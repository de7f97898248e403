import HyLink.Api.Submit
import HyLink.Compiler.Plan

/-!
# How a rank realises a call

Between the call and the transfers each rank chooses: the small-message executor or the graph
(CUDA), the AllReduce graph or a ReduceScatter and an AllGather (Ascend), and with its in-place
flag the staging of the graph.  It looks at its own pointers only.

* `submitCollective`, `realise` — the choices of one rank.
* `staged_congr` — a graph depends on the placement through the staged chunks alone.
* `realise_agree_iff` — the ranks realise a call alike if and only if `PlacementsAgree`.
-/

namespace HyLink
namespace Api

open Ir Compiler

/-- The ranks of a communicator, in processes of their own. -/
structure World where
  backend : Backend
  worldSize : ℕ
  worldSize_lt : worldSize < 2 ^ 31
  /-- The program of the IR file that a call selects. -/
  loadIR : Call → IRProgram
  /-- The rank has a small-message executor, and it is `initialized()`. -/
  initialized : ℕ → Bool
  /-- `PCCL_SMALL_MSG_THRESHOLD_BYTES` of the rank. -/
  thresholdBytes : ℕ → UInt64
  pairDirectAllowed : ℕ → ℕ → Bool
  /-- `PCCL_ALLREDUCE_RSAG_DISABLE` -/
  allreduceRsAgDisabled : Bool

/-- What the ranks have announced in shared memory. -/
structure Announced where
  available : ℕ → Bool
  threshold : ℕ → UInt64

section

variable (w : World)

/-! ## The small-message executor -/

def byteRangesOverlap (a aBytes b bBytes : UInt64) : Bool :=
  if a = 0 ∨ b = 0 ∨ aBytes = 0 ∨ bBytes = 0 then false
  else
    let aEnd := if a + aBytes < a then UInt64.ofNat (2 ^ 64 - 1) else a + aBytes
    let bEnd := if b + bBytes < b then UInt64.ofNat (2 ^ 64 - 1) else b + bBytes
    decide (a < bEnd) && decide (b < aEnd)

def smallMessageExecutorClusterReady (announced : Announced) (rank : ℕ) : Bool :=
  decide (1 < w.worldSize ∧ w.worldSize ≤ maxRanks) &&
    (List.range w.worldSize).all fun peer =>
      announced.available peer && announced.threshold peer == w.thresholdBytes rank

def collectiveTopologyCanAllDirect : Bool :=
  (List.range w.worldSize).all fun dst => (List.range w.worldSize).all fun source =>
    source == dst || w.pairDirectAllowed dst source

def Call.segBytes (call : Call) : UInt64 := call.segCount * call.elementSize

def logicalBytes (call : Call) : UInt64 :=
  call.segCount * call.elementSize * UInt64.ofInt (max call.sendSegs call.recvSegs)

/-- The receive buffer of a ReduceScatter overlaps the send buffer, and not as the rank's own
segment of it. -/
def strays (rank : ℕ) (call : Call) (b : Buffers) : Bool :=
  let sendBytes := call.segBytes * UInt64.ofNat w.worldSize
  let expectedInPlace := b.sendbuff + UInt64.ofNat rank * call.segBytes
  byteRangesOverlap b.sendbuff sendBytes b.recvbuff call.segBytes && b.recvbuff != expectedInPlace

/-- The checks of `canHandle` that look at the arguments alone. -/
def fitsSmall (threshold : UInt64) (call : Call) : Bool :=
  call.segCount != 0 && call.elementSize != 0 && call.stride == 0 &&
    decide (logicalBytes call < threshold) && decide (call.segBytes ≤ threshold) &&
    decide (0 < call.sendSegs ∧ 0 < call.recvSegs) &&
    match call.collective with
    | .allgather => decide (call.sendSegs = 1 ∧ call.recvSegs = w.worldSize)
    | .allreduce => collectiveTopologyCanAllDirect w && decide (call.sendSegs = 1 ∧ call.recvSegs = 1)
    | .reducescatter => decide (call.sendSegs = w.worldSize ∧ call.recvSegs = 1)
    -- `makeSmallMessageRequest` makes no request
    | .alltoall | .broadcastRoot _ | .other _ => false

def canHandle (rank : ℕ) (call : Call) (b : Buffers) : Bool :=
  w.initialized rank && decide (rank < maxRanks ∧ 1 < w.worldSize ∧ w.worldSize ≤ maxRanks) &&
    b.sendbuff != 0 && b.recvbuff != 0 && fitsSmall w (w.thresholdBytes rank) call &&
    !(call.collective == .reducescatter && strays w rank call b)

/-! ## One submission -/

/-- The element types that the device reduces on Ascend; every reduction is supported. -/
def devD2DReduceSupported : ScalarDataType → Bool
  | .int8 | .int32 | .float16 | .float32 | .bfloat16 => true
  | .uint8 | .uint32 | .int64 | .uint64 | .float64 => false

def collectiveUsesD2DReduce (collective : Collective) : Bool :=
  collective == .allreduce || collective == .reducescatter

/-- `submitCollective` refuses the arguments. -/
def refusesArgs (call : Call) : Bool :=
  call.segCount == 0 || call.elementSize == 0 ||
    match w.backend with
    | .cuda => false
    | .ascend =>
      decide (call.segCount ≤ call.stride) ||
        (call.collective == .alltoall && decide (2 ^ 64 ≤ call.segCount.toNat * w.worldSize)) ||
        (collectiveUsesD2DReduce call.collective && !devD2DReduceSupported call.scalarType)

/-- What a rank makes of a submission. -/
inductive Realised
  /-- `pcclInvalidArgument` -/
  | refused
  /-- By the small-message executor. -/
  | small (call : Call)
  /-- By a graph: the output chunks that are staged, and the keys of every instruction. -/
  | graph (call : Call) (staged : ℤ → ℤ → Bool)
      (keys : Except CompileError (List Assignment × PassState))

/-- The graph of a plan. -/
def graphOf (rank : ℕ) (call : Call) (isInPlace : Bool) : Realised :=
  let input := compileInput w.backend w.loadIR w.worldSize call isInPlace
  .graph call (stageOutputChunk input.options input.program w.worldSize)
    (assignAll input.options input.program w.worldSize
      { latestByBase := initialLatest input.program w.worldSize rank }
      input.program.allInstructions)

/-- The small-message executor takes the call. -/
def takesSmall (announced : Announced) (rank : ℕ) (call : Call) (b : Buffers) : Bool :=
  w.backend == .cuda && smallMessageExecutorClusterReady w announced rank && canHandle w rank call b

def submitCollective (announced : Announced) (rank : ℕ) (call : Call) (b : Buffers) : Realised :=
  if b.sendbuff = 0 ∨ b.recvbuff = 0 ∨ refusesArgs w call then .refused
  else if takesSmall w announced rank call b then .small call
  else graphOf w rank call (isCollectiveInPlace rank call b)

/-! ## The public calls -/

/-- The arguments of an AllReduce that is split on Ascend wherever it is out of place. -/
def splits (call : Call) : Bool :=
  w.backend == .ascend && call.collective == .allreduce && call.stride == 0 &&
    decide (call.sendSegs = 1 ∧ call.recvSegs = 1) && !w.allreduceRsAgDisabled &&
    decide (1 < w.worldSize) && call.segCount != 0 &&
    call.segCount % UInt64.ofNat w.worldSize == 0

def canSubmitAllReduceAsRsAg (call : Call) (b : Buffers) : Bool :=
  splits w call && b.sendbuff != 0 && b.recvbuff != 0 && b.sendbuff != b.recvbuff

/-- The elements of each rank's part of a split AllReduce. -/
def chunkCount (call : Call) : UInt64 := call.segCount / UInt64.ofNat w.worldSize

def localChunk (rank : ℕ) (call : Call) (b : Buffers) : UInt64 :=
  b.recvbuff + UInt64.ofNat rank * chunkCount w call * call.elementSize

/-- The ReduceScatter of `submitAllReduceAsRsAg`. -/
def reduceScatterPart (call : Call) : Call :=
  { call with
    collective := .reducescatter, segCount := chunkCount w call, stride := 0
    sendSegs := w.worldSize, recvSegs := 1 }

/-- The AllGather of `submitAllReduceAsRsAg`. -/
def allGatherPart (call : Call) : Call :=
  { call with
    collective := .allgather, segCount := chunkCount w call, stride := 0
    sendSegs := 1, recvSegs := w.worldSize }

/-- The submissions of a call. -/
def submissions (rank : ℕ) (call : Call) (b : Buffers) : List (Call × Buffers) :=
  if canSubmitAllReduceAsRsAg w call b then
    [(reduceScatterPart w call, ⟨b.sendbuff, localChunk w rank call b⟩),
      (allGatherPart w call, ⟨localChunk w rank call b, b.recvbuff⟩)]
  else [(call, b)]

/-- Submit one after the other, up to the first that is refused. -/
def submitAll (announced : Announced) (rank : ℕ) : List (Call × Buffers) → List Realised
  | [] => []
  | (call, b) :: rest =>
    match submitCollective w announced rank call b with
    | .refused => [.refused]
    | realised => realised :: submitAll announced rank rest

/-- How a rank realises a call. -/
def realise (announced : Announced) (rank : ℕ) (call : Call) (b : Buffers) : List Realised :=
  submitAll w announced rank (submissions w rank call b)

/-! ## When the ranks agree -/

/-- A buffer that exists: no null pointer, and the output ends within the address space. -/
structure Legal (call : Call) (b : Buffers) : Prop where
  send : b.sendbuff ≠ 0
  recv : b.recvbuff ≠ 0
  fits : b.recvbuff.toNat + call.segCount.toNat * call.elementSize.toNat * call.recvSegs.toNat <
    2 ^ 64

/-- Everything is announced. -/
def World.announced : Announced := ⟨w.initialized, w.thresholdBytes⟩

/-- All ranks have a small-message executor, with one threshold. -/
def clusterReady : Bool := smallMessageExecutorClusterReady w w.announced 0

/-- The call goes to the small-message executor of every rank that can take its buffers. -/
def smallEverywhere (call : Call) : Bool :=
  w.backend == .cuda && clusterReady w && fitsSmall w (w.thresholdBytes 0) call

/-- The program writes an output chunk whose bytes, in place, are those of an input chunk that is
read, and it may not do so directly. -/
def overwritesInput (call : Call) : Bool :=
  !directOverwrite call.collective (w.loadIR call) w.worldSize &&
    (w.loadIR call).allInstructions.any fun inst =>
      decide ((inst.op = .h2d ∨ inst.op = .d2d ∨ inst.op = .d2dReduce) ∧ inst.dstBuf = .output ∧
        0 ≤ inst.rank ∧ inst.rank < w.worldSize ∧ 0 ≤ inst.dst.chunkIdx ∧
        inst.dst.chunkIdx < (w.loadIR call).outputChunkCount) &&
      inputRead (w.loadIR call) w.worldSize inst.rank inst.dst.chunkIdx

/-- All ranks of the communicator say the same. -/
def Alike (f : ℕ → Bool) : Prop := ∀ r < w.worldSize, ∀ q < w.worldSize, f r = f q

/-- **The placements agree** as far as the choices depend on them: where the AllReduce is split,
on being in place; where the small-message executor takes the call, on a ReduceScatter whose
buffers overlap; and else on being in place, if the program overwrites input that it reads. -/
def PlacementsAgree (call : Call) (buffers : ℕ → Buffers) : Prop :=
  refusesArgs w call = true ∨
    if splits w call then Alike w fun r => (buffers r).sendbuff == (buffers r).recvbuff
    else if smallEverywhere w call then
      call.collective = .reducescatter → Alike w fun r => strays w r call (buffers r)
    else overwritesInput w call = true → Alike w fun r => isCollectiveInPlace r call (buffers r)

end

/-! ## What a graph depends on -/

section

variable {o o' : GraphCompileOptions} {program : IRProgram} {n : ℕ}

theorem visibleBuf_congr (h : stageOutputChunk o program n = stageOutputChunk o' program n) :
    visibleBuf o program n = visibleBuf o' program n := by
  funext buf owner chunk
  simp only [visibleBuf, h]

theorem producedBase_congr (h : stageOutputChunk o program n = stageOutputChunk o' program n) :
    producedBase o program n = producedBase o' program n := by
  funext inst
  simp only [producedBase, visibleBuf_congr h]

theorem inputBases_congr (h : stageOutputChunk o program n = stageOutputChunk o' program n) :
    inputBases o program n = inputBases o' program n := by
  funext inst
  simp only [inputBases, sourceDeviceKey, visibleBuf_congr h]

theorem latest_congr (h : stageOutputChunk o program n = stageOutputChunk o' program n) :
    latest o program n = latest o' program n := by
  have hversions : producedVersions o program n = producedVersions o' program n := by
    funext insts base
    simp only [producedVersions, producedBase_congr h]
  funext map base
  unfold latest
  rw [hversions]

theorem latestAll_congr (h : stageOutputChunk o program n = stageOutputChunk o' program n)
    (map : LatestMap) (bases : List BaseKey) :
    latestAll o program n map bases = latestAll o' program n map bases := by
  induction bases generalizing map with
  | nil => rfl
  | cons base bases ih => simp only [latestAll, latest_congr h, ih]

theorem assignInstruction_congr (h : stageOutputChunk o program n = stageOutputChunk o' program n) :
    assignInstruction o program n = assignInstruction o' program n := by
  funext st inst
  simp only [assignInstruction, producedBase_congr h, inputBases_congr h, latestAll_congr h]

/-- **The keys depend on the placement through the staged chunks alone.** -/
theorem assignAll_congr (h : stageOutputChunk o program n = stageOutputChunk o' program n)
    (st : PassState) (insts : List Instruction) :
    assignAll o program n st insts = assignAll o' program n st insts := by
  induction insts generalizing st with
  | nil => rfl
  | cons inst insts ih => simp only [assignAll, assignInstruction_congr h, ih]

end

section

variable {w : World} {r q : ℕ} {call : Call} {p p' : Bool}

/-- The staged chunks of a call. -/
def staged (w : World) (call : Call) (isInPlace : Bool) : ℤ → ℤ → Bool :=
  stageOutputChunk (graphOptions w.backend (w.loadIR call) w.worldSize call isInPlace)
    (w.loadIR call) w.worldSize

theorem graphOf_eq_iff (hr : r < w.worldSize) (hq : q < w.worldSize) :
    graphOf w r call p = graphOf w q call p' ↔ staged w call p = staged w call p' := by
  constructor
  · intro h
    simp only [graphOf, Realised.graph.injEq] at h
    exact h.2.1
  · intro h
    have hstart : initialLatest (w.loadIR call) w.worldSize r =
        initialLatest (w.loadIR call) w.worldSize q :=
      (initialLatest_funext hr).trans (initialLatest_funext hq).symm
    simp only [graphOf, compileInput, Realised.graph.injEq, true_and, hstart]
    exact ⟨h, assignAll_congr h _ _⟩

theorem staged_outOfPlace (w : World) (call : Call) : staged w call false = fun _ _ => false :=
  funext fun owner => funext fun chunk => stageOutputChunk_of_not_inPlace rfl owner chunk

theorem staged_of_direct (h : directOverwrite call.collective (w.loadIR call) w.worldSize = true) :
    staged w call p = fun _ _ => false := by
  funext owner chunk
  apply stageOutputChunk_of_direct
  left
  simp [graphOptions, stagingPolicy, h]

/-- In place, chunks are staged just if the program overwrites input. -/
theorem exists_staged_iff :
    (∃ owner chunk, staged w call true owner chunk = true) ↔ overwritesInput w call = true := by
  by_cases hdirect : directOverwrite call.collective (w.loadIR call) w.worldSize = true
  · simp [staged_of_direct hdirect, overwritesInput, hdirect]
  have hmode : inPlaceAliasMode call.collective = .sameBase := by
    unfold inPlaceAliasMode
    rw [if_neg]
    intro hgather
    exact hdirect (by rw [hgather]; rfl)
  have hpolicy : stagingPolicy call.collective (w.loadIR call) w.worldSize = .conservative := by
    simp [stagingPolicy, hdirect]
  simp only [staged, stageOutputChunk, graphOptions, compileOptions, hpolicy, hmode, overwritesInput,
    outputOverlapsLiveInput, Bool.and_eq_true, Bool.not_eq_true', List.any_eq_true,
    decide_eq_true_eq]
  constructor
  · rintro ⟨owner, chunk, ⟨-, hin⟩, inst, hmem, ⟨⟨hop, hbuf, rfl, rfl⟩, -, hread⟩, -⟩
    refine ⟨by simpa using hdirect, inst, hmem, ⟨hop, hbuf, hin.1, hin.2.1, hin.2.2⟩, hread⟩
  · rintro ⟨-, inst, hmem, ⟨hop, hbuf, h0, hlt, hc, hcount⟩, hread⟩
    refine ⟨inst.rank, inst.dst.chunkIdx, ⟨trivial, h0, hlt, hc, hcount⟩, inst, hmem,
      ⟨⟨hop, hbuf, rfl, rfl⟩, ⟨h0, hlt, hc⟩, hread⟩, by decide⟩

/-- Two placements stage alike just if they are the same, or nothing is staged. -/
theorem staged_eq_iff : staged w call p = staged w call p' ↔
    (overwritesInput w call = true → p = p') := by
  have hne : staged w call true = staged w call false ↔ ¬overwritesInput w call = true := by
    rw [staged_outOfPlace, ← exists_staged_iff]
    constructor
    · rintro h ⟨owner, chunk, hs⟩
      rw [h] at hs
      cases hs
    · intro h
      funext owner chunk
      rw [← Bool.not_eq_true]
      exact fun hs => h ⟨owner, chunk, hs⟩
  cases p <;> cases p'
  · simp
  · rw [eq_comm, hne]
    simp
  · rw [hne]
    simp
  · simp

theorem graphOf_eq_of_direct
    (h : directOverwrite call.collective (w.loadIR call) w.worldSize = true) (hr : r < w.worldSize)
    (hq : q < w.worldSize) (p p' : Bool) : graphOf w r call p = graphOf w q call p' := by
  rw [graphOf_eq_iff hr hq, staged_of_direct h, staged_of_direct h]

/-! ## The choice of one submission -/

variable {b : Buffers}

theorem clusterReady_eq (hr : r < w.worldSize) :
    smallMessageExecutorClusterReady w w.announced r = clusterReady w := by
  have h0 : 0 < w.worldSize := Nat.lt_of_le_of_lt (Nat.zero_le r) hr
  rw [Bool.eq_iff_iff, clusterReady]
  simp only [smallMessageExecutorClusterReady, World.announced, Bool.and_eq_true, decide_eq_true_eq,
    List.all_eq_true, List.mem_range, beq_iff_eq]
  constructor
  · rintro ⟨hsize, hall⟩
    exact ⟨hsize, fun peer hp => ⟨(hall peer hp).1, (hall peer hp).2.trans (hall 0 h0).2.symm⟩⟩
  · rintro ⟨hsize, hall⟩
    exact ⟨hsize, fun peer hp => ⟨(hall peer hp).1, (hall peer hp).2.trans (hall r hr).2.symm⟩⟩

theorem of_clusterReady (h : clusterReady w = true) (hr : r < w.worldSize) :
    (1 < w.worldSize ∧ w.worldSize ≤ maxRanks) ∧ w.initialized r = true ∧
      w.thresholdBytes r = w.thresholdBytes 0 := by
  simp only [clusterReady, smallMessageExecutorClusterReady, World.announced, Bool.and_eq_true,
    decide_eq_true_eq, List.all_eq_true, List.mem_range, beq_iff_eq] at h
  exact ⟨h.1, h.2 r hr⟩

/-- Once everything is announced, the executor of a rank takes what all take, unless the rank's own
buffers overlap. -/
theorem takesSmall_eq (hr : r < w.worldSize) (hsend : b.sendbuff ≠ 0) (hrecv : b.recvbuff ≠ 0) :
    takesSmall w w.announced r call b =
      (smallEverywhere w call && !(call.collective == .reducescatter && strays w r call b)) := by
  rw [takesSmall, clusterReady_eq hr, smallEverywhere]
  by_cases hready : clusterReady w = true
  · obtain ⟨hsize, hinit, hthreshold⟩ := of_clusterReady hready hr
    have hmax : r < maxRanks := Nat.lt_of_lt_of_le hr hsize.2
    have hsend' : (b.sendbuff != 0) = true := bne_iff_ne.2 hsend
    have hrecv' : (b.recvbuff != 0) = true := bne_iff_ne.2 hrecv
    simp [canHandle, hready, hinit, hthreshold, hmax, hsize, hsend', hrecv', Bool.and_assoc]
  · simp [hready]

/-- The choice of a rank, once everything is announced. -/
theorem submitCollective_eq (hr : r < w.worldSize) (hsend : b.sendbuff ≠ 0)
    (hrecv : b.recvbuff ≠ 0) :
    submitCollective w w.announced r call b =
      if refusesArgs w call then .refused
      else if smallEverywhere w call && !(call.collective == .reducescatter && strays w r call b)
      then .small call else graphOf w r call (isCollectiveInPlace r call b) := by
  rw [submitCollective, takesSmall_eq hr hsend hrecv]
  simp only [hsend, hrecv, false_or]

theorem submitAll_singleton (announced : Announced) (call : Call) (b : Buffers) :
    submitAll w announced r [(call, b)] = [submitCollective w announced r call b] := by
  simp only [submitAll]
  split
  · next h => rw [h]
  · rfl

theorem not_smallEverywhere_of_ascend (h : w.backend = .ascend) : smallEverywhere w call = false := by
  simp [smallEverywhere, h]

/-! ## A split AllReduce -/

theorem toNat_worldSize (w : World) : (UInt64.ofNat w.worldSize).toNat = w.worldSize :=
  UInt64.toNat_ofNat_of_lt' (Nat.lt_trans w.worldSize_lt (by decide))

/-- What `splits` says of the arguments. -/
structure SplitArgs (w : World) (call : Call) : Prop where
  backend : w.backend = .ascend
  collective : call.collective = .allreduce
  stride : call.stride = 0
  sendSegs : call.sendSegs = 1
  recvSegs : call.recvSegs = 1
  worldSize : 1 < w.worldSize
  segCount : call.segCount ≠ 0
  dvd : w.worldSize ∣ call.segCount.toNat

theorem SplitArgs.of_splits (h : splits w call = true) : SplitArgs w call := by
  simp only [splits, Bool.and_eq_true, beq_iff_eq, decide_eq_true_eq, bne_iff_ne, ne_eq] at h
  obtain ⟨⟨⟨⟨⟨⟨⟨hb, hc⟩, hs⟩, hsegs⟩, -⟩, hw⟩, hn⟩, hmod⟩ := h
  refine ⟨hb, hc, hs, hsegs.1, hsegs.2, hw, hn, Nat.dvd_of_mod_eq_zero ?_⟩
  have := congrArg UInt64.toNat hmod
  rwa [UInt64.toNat_mod, toNat_worldSize] at this

theorem SplitArgs.toNat_chunkCount (h : SplitArgs w call) :
    (chunkCount w call).toNat * w.worldSize = call.segCount.toNat := by
  rw [chunkCount, UInt64.toNat_div, toNat_worldSize, Nat.div_mul_cancel h.dvd]

theorem SplitArgs.chunkCount_ne (h : SplitArgs w call) : chunkCount w call ≠ 0 := by
  intro hzero
  have hmul := h.toNat_chunkCount
  rw [hzero] at hmul
  apply h.segCount
  apply UInt64.toNat_inj.1
  rw [← hmul]
  exact Nat.zero_mul _

/-- The rank's part of the output lies within the output. -/
theorem SplitArgs.localChunk_ne (h : SplitArgs w call) (hr : r < w.worldSize)
    (hb : Legal call b) : localChunk w r call b ≠ 0 := by
  have hfits := hb.fits
  rw [h.recvSegs, Int.toNat_one, Nat.mul_one] at hfits
  have hpart : r * (chunkCount w call).toNat * call.elementSize.toNat ≤
      call.segCount.toNat * call.elementSize.toNat := by
    apply Nat.mul_le_mul_right
    rw [← h.toNat_chunkCount, Nat.mul_comm]
    exact Nat.mul_le_mul_left _ hr.le
  have hpart' : r * (chunkCount w call).toNat ≤ call.segCount.toNat := by
    rw [← h.toNat_chunkCount, Nat.mul_comm]
    exact Nat.mul_le_mul_left _ hr.le
  have hrank : (UInt64.ofNat r).toNat = r :=
    UInt64.toNat_ofNat_of_lt' (Nat.lt_trans (Nat.lt_trans hr w.worldSize_lt) (by decide))
  have hmul : (UInt64.ofNat r * chunkCount w call).toNat = r * (chunkCount w call).toNat := by
    rw [UInt64.toNat_mul, hrank]
    exact Nat.mod_eq_of_lt (Nat.lt_of_le_of_lt hpart' call.segCount.toNat_lt)
  have hoffset : (UInt64.ofNat r * chunkCount w call * call.elementSize).toNat =
      r * (chunkCount w call).toNat * call.elementSize.toNat := by
    rw [UInt64.toNat_mul, hmul]
    exact Nat.mod_eq_of_lt (Nat.lt_of_le_of_lt hpart (Nat.lt_of_le_of_lt (Nat.le_add_left _ _) hfits))
  have hsum : (localChunk w r call b).toNat =
      b.recvbuff.toNat + r * (chunkCount w call).toNat * call.elementSize.toNat := by
    rw [localChunk, UInt64.toNat_add, hoffset]
    exact Nat.mod_eq_of_lt (Nat.lt_of_le_of_lt (Nat.add_le_add_left hpart _) hfits)
  intro hzero
  rw [hzero] at hsum
  apply hb.recv
  apply UInt64.toNat_inj.1
  exact (Nat.add_eq_zero_iff.1 hsum.symm).1

theorem SplitArgs.refuses_reduceScatter (h : SplitArgs w call) :
    refusesArgs w (reduceScatterPart w call) = refusesArgs w call := by
  have hle : ¬chunkCount w call ≤ 0 := fun hle => h.chunkCount_ne (UInt64.le_zero_iff.1 hle)
  have hle' : ¬call.segCount ≤ 0 := fun hle => h.segCount (UInt64.le_zero_iff.1 hle)
  have hne : (chunkCount w call == 0) = false := beq_eq_false_iff_ne.2 h.chunkCount_ne
  have hne' : (call.segCount == 0) = false := beq_eq_false_iff_ne.2 h.segCount
  have hname : (Collective.reducescatter == Collective.alltoall) = false := by decide
  have hname' : (Collective.allreduce == Collective.alltoall) = false := by decide
  simp [refusesArgs, reduceScatterPart, h.backend, h.collective, h.stride, hne, hne', hname, hname',
    hle, hle', collectiveUsesD2DReduce]

theorem SplitArgs.refuses_allGather (h : SplitArgs w call) (hno : refusesArgs w call = false) :
    refusesArgs w (allGatherPart w call) = false := by
  have hle : ¬chunkCount w call ≤ 0 := fun hle => h.chunkCount_ne (UInt64.le_zero_iff.1 hle)
  have hne : (chunkCount w call == 0) = false := beq_eq_false_iff_ne.2 h.chunkCount_ne
  have hname : (Collective.allgather == Collective.alltoall) = false := by decide
  have hname' : (Collective.allgather == Collective.allreduce) = false := by decide
  have hname'' : (Collective.allgather == Collective.reducescatter) = false := by decide
  simp only [refusesArgs, Bool.or_eq_false_iff] at hno
  simp [refusesArgs, allGatherPart, h.backend, hne, hname, hname', hname'', hle,
    collectiveUsesD2DReduce, beq_eq_false_iff_ne.1 hno.1.2]

/-- What a rank makes of an AllReduce that is split out of place. -/
theorem realise_of_splits (hsplit : splits w call = true) (hr : r < w.worldSize)
    (hb : Legal call b) :
    realise w w.announced r call b =
      if refusesArgs w call then [.refused]
      else if b.sendbuff == b.recvbuff then [graphOf w r call true]
      else [graphOf w r (reduceScatterPart w call)
          (isCollectiveInPlace r (reduceScatterPart w call) ⟨b.sendbuff, localChunk w r call b⟩),
        graphOf w r (allGatherPart w call)
          (isCollectiveInPlace r (allGatherPart w call) ⟨localChunk w r call b, b.recvbuff⟩)] := by
  have hargs := SplitArgs.of_splits hsplit
  have hlocal := hargs.localChunk_ne hr hb
  have hsub : ∀ (c : Call) (b' : Buffers), b'.sendbuff ≠ 0 → b'.recvbuff ≠ 0 →
      submitCollective w w.announced r c b' =
        if refusesArgs w c then .refused else graphOf w r c (isCollectiveInPlace r c b') := by
    intro c b' hsend hrecv
    rw [submitCollective_eq hr hsend hrecv, not_smallEverywhere_of_ascend hargs.backend,
      Bool.false_and, if_neg Bool.false_ne_true]
  have hcan : canSubmitAllReduceAsRsAg w call b = !(b.sendbuff == b.recvbuff) := by
    simp only [canSubmitAllReduceAsRsAg, hsplit, bne, beq_eq_false_iff_ne.2 hb.send,
      beq_eq_false_iff_ne.2 hb.recv, Bool.not_false, Bool.true_and]
  rw [realise, submissions, hcan]
  by_cases hplace : (b.sendbuff == b.recvbuff) = true
  · have hin : isCollectiveInPlace r call b = true := by
      rw [isCollectiveInPlace, if_neg (by rw [hargs.collective]; exact nofun)]
      exact hplace
    rw [if_neg (by rw [hplace]; exact Bool.false_ne_true), submitAll_singleton,
      hsub call b hb.send hb.recv, hin, if_pos hplace]
    split <;> rfl
  · have hout : (!(b.sendbuff == b.recvbuff)) = true := by
      rw [Bool.not_eq_true] at hplace
      rw [hplace]
      rfl
    rw [if_pos hout, if_neg hplace]
    simp only [submitAll, hsub _ ⟨b.sendbuff, localChunk w r call b⟩ hb.send hlocal,
      hsub _ ⟨localChunk w r call b, b.recvbuff⟩ hlocal hb.recv, hargs.refuses_reduceScatter]
    by_cases hrefuse : refusesArgs w call = true
    · simp only [hrefuse, if_true]
    · rw [Bool.not_eq_true] at hrefuse
      simp only [hrefuse, hargs.refuses_allGather hrefuse, Bool.false_eq_true, if_false, graphOf]

/-- What a rank makes of a call that is not split. -/
theorem realise_of_not_splits (hsplit : splits w call = false) (hr : r < w.worldSize)
    (hb : Legal call b) :
    realise w w.announced r call b =
      [if refusesArgs w call then .refused
        else if smallEverywhere w call && !(call.collective == .reducescatter && strays w r call b)
        then .small call else graphOf w r call (isCollectiveInPlace r call b)] := by
  have hcan : canSubmitAllReduceAsRsAg w call b = false := by
    simp [canSubmitAllReduceAsRsAg, hsplit]
  rw [realise, submissions, hcan, if_neg Bool.false_ne_true, submitAll_singleton,
    submitCollective_eq hr hb.send hb.recv]

/-- Two ranks and a split AllReduce. -/
theorem realise_eq_of_splits {b' : Buffers} (hsplit : splits w call = true)
    (hno : refusesArgs w call = false) (hr : r < w.worldSize) (hq : q < w.worldSize)
    (hb : Legal call b) (hb' : Legal call b') :
    realise w w.announced r call b = realise w w.announced q call b' ↔
      (b.sendbuff == b.recvbuff) = (b'.sendbuff == b'.recvbuff) := by
  rw [realise_of_splits hsplit hr hb, realise_of_splits hsplit hq hb', hno]
  simp only [Bool.false_eq_true, if_false]
  by_cases h : (b.sendbuff == b.recvbuff) = true <;>
    by_cases h' : (b'.sendbuff == b'.recvbuff) = true
  · simp only [h, h', if_true, List.cons.injEq, and_true, iff_true]
    exact (graphOf_eq_iff hr hq).2 rfl
  · simp [h, h']
  · simp [h, h']
  · simp only [h, h', Bool.false_eq_true, if_false, List.cons.injEq, and_true, iff_true]
    exact ⟨graphOf_eq_of_direct rfl hr hq _ _, graphOf_eq_of_direct rfl hr hq _ _⟩

/-- Two ranks and a call that may go to the small-message executor. -/
theorem realise_eq_of_small {b' : Buffers} (hsplit : splits w call = false)
    (hno : refusesArgs w call = false) (hsmall : smallEverywhere w call = true)
    (hr : r < w.worldSize) (hq : q < w.worldSize) (hb : Legal call b) (hb' : Legal call b') :
    realise w w.announced r call b = realise w w.announced q call b' ↔
      (call.collective = .reducescatter → strays w r call b = strays w q call b') := by
  rw [realise_of_not_splits hsplit hr hb, realise_of_not_splits hsplit hq hb', hno, hsmall]
  simp only [Bool.false_eq_true, if_false, Bool.true_and, List.cons.injEq, and_true]
  by_cases hc : call.collective = .reducescatter
  · have hdirect : directOverwrite call.collective (w.loadIR call) w.worldSize = true := by
      rw [hc]
      rfl
    simp only [hc, beq_self_eq_true, Bool.true_and, true_imp_iff]
    cases strays w r call b <;> cases strays w q call b'
    · simp
    · simp [graphOf]
    · simp [graphOf]
    · simpa using graphOf_eq_of_direct hdirect hr hq _ _
  · have hc' : (call.collective == .reducescatter) = false := beq_eq_false_iff_ne.2 hc
    simp [hc, hc']

/-- Two ranks and a call that runs as a graph. -/
theorem realise_eq_of_graph {b' : Buffers} (hsplit : splits w call = false)
    (hno : refusesArgs w call = false) (hsmall : smallEverywhere w call = false)
    (hr : r < w.worldSize) (hq : q < w.worldSize) (hb : Legal call b) (hb' : Legal call b') :
    realise w w.announced r call b = realise w w.announced q call b' ↔
      (overwritesInput w call = true →
        isCollectiveInPlace r call b = isCollectiveInPlace q call b') := by
  rw [realise_of_not_splits hsplit hr hb, realise_of_not_splits hsplit hq hb', hno, hsmall]
  simp only [Bool.false_eq_true, if_false, Bool.false_and, List.cons.injEq, and_true]
  rw [graphOf_eq_iff hr hq, staged_eq_iff]

theorem realise_of_refuses (hrefuse : refusesArgs w call = true) (hr : r < w.worldSize)
    (hb : Legal call b) : realise w w.announced r call b = [.refused] := by
  by_cases hsplit : splits w call = true
  · rw [realise_of_splits hsplit hr hb, if_pos hrefuse]
  · rw [realise_of_not_splits (Bool.not_eq_true _ ▸ hsplit) hr hb, if_pos hrefuse]

/-- **The ranks realise a call alike** just if their placements agree. -/
theorem realise_agree_iff (w : World) (call : Call) (buffers : ℕ → Buffers)
    (hlegal : ∀ r < w.worldSize, Legal call (buffers r)) :
    (∀ r < w.worldSize, ∀ q < w.worldSize,
        realise w w.announced r call (buffers r) = realise w w.announced q call (buffers q)) ↔
      PlacementsAgree w call buffers := by
  by_cases hrefuse : refusesArgs w call = true
  · simp only [PlacementsAgree, hrefuse, true_or, iff_true]
    intro r hr q hq
    rw [realise_of_refuses hrefuse hr (hlegal r hr), realise_of_refuses hrefuse hq (hlegal q hq)]
  have hno : refusesArgs w call = false := by simpa using hrefuse
  rw [PlacementsAgree, hno]
  simp only [Bool.false_eq_true, false_or]
  by_cases hsplit : splits w call = true
  · rw [if_pos hsplit]
    refine forall₂_congr fun r hr => forall₂_congr fun q hq => ?_
    exact realise_eq_of_splits hsplit hno hr hq (hlegal r hr) (hlegal q hq)
  rw [if_neg hsplit]
  rw [Bool.not_eq_true] at hsplit
  by_cases hsmall : smallEverywhere w call = true
  · rw [if_pos hsmall]
    constructor
    · intro h hc r hr q hq
      exact (realise_eq_of_small hsplit hno hsmall hr hq (hlegal r hr) (hlegal q hq)).1
        (h r hr q hq) hc
    · intro h r hr q hq
      exact (realise_eq_of_small hsplit hno hsmall hr hq (hlegal r hr) (hlegal q hq)).2
        fun hc => h hc r hr q hq
  · rw [if_neg hsmall]
    rw [Bool.not_eq_true] at hsmall
    constructor
    · intro h hover r hr q hq
      exact (realise_eq_of_graph hsplit hno hsmall hr hq (hlegal r hr) (hlegal q hq)).1
        (h r hr q hq) hover
    · intro h r hr q hq
      exact (realise_eq_of_graph hsplit hno hsmall hr hq (hlegal r hr) (hlegal q hq)).2
        fun hover => h hover r hr q hq

end

end Api
end HyLink
