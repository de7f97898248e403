import Mathlib.Algebra.Order.Ring.Int
import HyLink.Api.Submit

/-!
# The arithmetic behind the public calls

The public calls of the CUDA library hand their counts on to `submitCollective`, some of them
divided by the number of ranks, and the compiler multiplies and subtracts what it gets in 64 bits.

* `EntryCall.arguments` — what each public call hands on.
* `submitCollective` — the checks on the way to the compiler.
* `DeviceLayout` — the sizes that `compileGraph` computes first.
* `LayoutRelies` — what they rely on; `layoutRelies_iff` — when arguments meet it.
* `admission_arithmetic` — the calls of which all that are admitted meet it.
-/

namespace HyLink
namespace Api
namespace EntryPoints

/-! ## The public calls -/

/-- The fields of the compile options that the caller of the typed submission sets. -/
structure TypedOptions where
  elementSize : UInt64
  scalarType : ScalarDataType
  reduceOp : ReduceOpKind
  deriving DecidableEq, Repr

/-- A public call, with the counts its caller passes. -/
inductive EntryCall
  | allReduce (count : UInt64)
  | allGather (sendcount : UInt64)
  | reduceScatter (recvcount : UInt64)
  | allToAll (count : UInt64)
  | allGatherStrided (count stride : UInt64)
  | reduceScatterStrided (count stride : UInt64)
  | allToAllStrided (count stride : UInt64)
  /-- `pcclSubmitTypedCollective`; no options is the null pointer. -/
  | submitTyped (collective : Collective) (segCount stride : UInt64) (sendSegs recvSegs : Int32)
      (options : Option TypedOptions)
  deriving DecidableEq

/-- The size of the communicator as the calls divide by it. -/
structure WorldSize where
  nranks : ℕ
  pos : 0 < nranks
  lt : nranks < 2 ^ 31

namespace EntryCall

variable (w : WorldSize)

/-- The arguments of `submitCollective`. -/
def arguments : EntryCall → Option Call
  | .allReduce count => some { collective := .allreduce, segCount := count }
  | .allGather sendcount =>
    some { collective := .allgather, segCount := sendcount, recvSegs := w.nranks }
  | .reduceScatter recvcount =>
    some { collective := .reducescatter, segCount := recvcount, sendSegs := w.nranks }
  | .allToAll count =>
    some
      { collective := .alltoall, segCount := count / UInt64.ofNat w.nranks
        sendSegs := w.nranks, recvSegs := w.nranks }
  | .allGatherStrided count stride =>
    some { collective := .allgather, segCount := count, stride, recvSegs := w.nranks }
  | .reduceScatterStrided count stride =>
    some
      { collective := .reducescatter, segCount := count / UInt64.ofNat w.nranks, stride
        sendSegs := w.nranks }
  | .allToAllStrided count stride =>
    some
      { collective := .alltoall, segCount := count / UInt64.ofNat w.nranks, stride
        sendSegs := w.nranks, recvSegs := w.nranks }
  | .submitTyped collective segCount stride sendSegs recvSegs options =>
    options.map fun o =>
      { collective, segCount, stride, sendSegs := sendSegs.toInt, recvSegs := recvSegs.toInt
        elementSize := o.elementSize, scalarType := o.scalarType, reduceOp := o.reduceOp }

/-- The count from which the segments are derived by division. -/
def divided : EntryCall → Option UInt64
  | .allToAll count | .reduceScatterStrided count _ | .allToAllStrided count _ => some count
  | .allReduce _ | .allGather _ | .reduceScatter _ | .allGatherStrided .. | .submitTyped .. => none

end EntryCall

/-! ## The way to the compiler -/

/-- What `submitCollective` asks others for. -/
structure Surroundings where
  setDevice : Bool
  registerDeviceBuffers : Buffers → Bool
  takesSmall : Call → Buffers → Bool
  /-- The small-message executor has nothing in flight, or gets it done in time. -/
  waitForIdle : Bool
  planCached : Call → Buffers → Bool
  loadIR : Call → Bool
  usesUnsupportedPeerD2D : Call → Bool

/-- Where a call gets to. -/
inductive Admission
  | rejected
  | small (call : Call)
  | cached (call : Call)
  | compiled (call : Call)
  deriving DecidableEq

/-- The call that is carried out. -/
def Admission.admitted : Admission → Option Call
  | .rejected => none
  | .small call | .cached call | .compiled call => some call

def submitCollective (env : Surroundings) (call : Call) (b : Buffers) : Admission :=
  if b.sendbuff = 0 ∨ b.recvbuff = 0 ∨ call.segCount = 0 then .rejected
  else if env.setDevice = false then .rejected
  else if call.elementSize = 0 then .rejected
  else if env.registerDeviceBuffers b = false then .rejected
  else if env.takesSmall call b = true then .small call
  else if env.waitForIdle = false then .rejected
  else if env.planCached call b = true then .cached call
  else if env.loadIR call = false then .rejected
  else if env.usesUnsupportedPeerD2D call = true then .rejected
  else .compiled call

/-- A public call. -/
def submit (w : WorldSize) (env : Surroundings) (e : EntryCall) (b : Buffers) : Admission :=
  match e.arguments w with
  | none => .rejected
  | some call => submitCollective env call b

/-! ## What the compiler relies on -/

/-- The sizes that `compileGraph` computes first. -/
structure DeviceLayout where
  segmentSize : UInt64
  strideOffset : UInt64
  pciePerSeg : UInt64
  activeElems : UInt64
  totalBytes : UInt64
  deriving DecidableEq

/-- `std::max(options.d2h_segments, options.h2d_segments)` -/
def segments (call : Call) : ℤ := max call.sendSegs call.recvSegs

def deviceLayout (call : Call) : DeviceLayout :=
  let segmentSize := call.segCount * call.elementSize
  let strideOffset := call.stride * call.elementSize
  { segmentSize, strideOffset
    pciePerSeg := segmentSize - strideOffset
    activeElems := call.segCount - call.stride
    totalBytes := (segmentSize - strideOffset) * UInt64.ofInt (segments call) }

/-- **The compiler's sizes are those of the buffers**: the stride offset is below the segment size,
and no product or difference has wrapped around. -/
structure LayoutRelies (call : Call) : Prop where
  strideOffset_lt : (deviceLayout call).strideOffset < (deviceLayout call).segmentSize
  segmentSize : (deviceLayout call).segmentSize.toNat =
    call.segCount.toNat * call.elementSize.toNat
  strideOffset : (deviceLayout call).strideOffset.toNat =
    call.stride.toNat * call.elementSize.toNat
  pciePerSeg : ((deviceLayout call).pciePerSeg.toNat : ℤ) =
    (deviceLayout call).segmentSize.toNat - (deviceLayout call).strideOffset.toNat
  /-- `seg_count * element_size * segments` -/
  allSegments : ((call.segCount * call.elementSize * UInt64.ofInt (segments call)).toNat : ℤ) =
    call.segCount.toNat * call.elementSize.toNat * segments call

/-- The segments are derived by a division that leaves nothing. -/
def DividesExactly (w : WorldSize) (e : EntryCall) : Prop :=
  ∀ count, e.divided = some count → w.nranks ∣ count.toNat

/-! ## Products in 64 bits -/

theorem toNat_mul_eq_iff (a b : UInt64) :
    (a * b).toNat = a.toNat * b.toNat ↔ a.toNat * b.toNat < 2 ^ 64 := by
  rw [UInt64.toNat_mul]
  constructor
  · intro h
    rw [← h]
    exact Nat.mod_lt _ (by decide)
  · exact Nat.mod_eq_of_lt

theorem toNat_ofInt (s : ℤ) : ((UInt64.ofInt s).toNat : ℤ) = s % 2 ^ 64 := by
  have hpos : 0 ≤ s % 2 ^ 64 := Int.emod_nonneg _ (by decide)
  have hlt : s % 2 ^ 64 < 2 ^ 64 := Int.emod_lt_of_pos _ (by decide)
  have hnat : (s % 2 ^ 64).toNat < 2 ^ 64 := (Int.toNat_lt hpos).2 hlt
  show ((UInt64.ofNat (s % 2 ^ 64).toNat).toNat : ℤ) = s % 2 ^ 64
  rw [UInt64.toNat_ofNat_of_lt' hnat, Int.toNat_of_nonneg hpos]

/-- A product with an `int` wraps around where it is negative, too. -/
theorem toNat_mul_ofInt_eq_iff (a : UInt64) (s : ℤ) :
    ((a * UInt64.ofInt s).toNat : ℤ) = a.toNat * s ↔ 0 ≤ a.toNat * s ∧ a.toNat * s < 2 ^ 64 := by
  have hmod : ((a * UInt64.ofInt s).toNat : ℤ) = a.toNat * s % 2 ^ 64 := by
    rw [UInt64.toNat_mul, Int.natCast_emod, Int.natCast_mul, toNat_ofInt]
    show a.toNat * (s % 2 ^ 64) % 2 ^ 64 = _
    rw [Int.mul_emod, Int.emod_emod_of_dvd _ (dvd_refl _), ← Int.mul_emod]
  rw [hmod]
  constructor
  · intro h
    rw [← h]
    exact ⟨Int.emod_nonneg _ (by decide), Int.emod_lt_of_pos _ (by decide)⟩
  · rintro ⟨hpos, hlt⟩
    exact Int.emod_eq_of_lt hpos hlt

/-- **When the compiler's sizes are right.** -/
theorem layoutRelies_iff {call : Call} (hes : call.elementSize ≠ 0) :
    LayoutRelies call ↔ call.stride < call.segCount ∧
      call.segCount.toNat * call.elementSize.toNat < 2 ^ 64 ∧ 0 ≤ segments call ∧
        call.segCount.toNat * call.elementSize.toNat * segments call < 2 ^ 64 := by
  have hpos : 0 < call.elementSize.toNat :=
    Nat.pos_of_ne_zero fun h => hes (UInt64.toNat_inj.1 h)
  constructor
  · intro h
    have hseg := (toNat_mul_eq_iff _ _).1 h.segmentSize
    have hlt := UInt64.lt_iff_toNat_lt.1 h.strideOffset_lt
    rw [h.segmentSize, h.strideOffset] at hlt
    have hstride := Nat.lt_of_mul_lt_mul_right hlt
    have hall := h.allSegments
    rw [← Nat.cast_mul, ← (toNat_mul_eq_iff _ _).2 hseg, toNat_mul_ofInt_eq_iff,
      (toNat_mul_eq_iff _ _).2 hseg, Nat.cast_mul] at hall
    refine ⟨UInt64.lt_iff_toNat_lt.2 hstride, hseg, ?_, hall.2⟩
    have hbytes : (0 : ℤ) < call.segCount.toNat * call.elementSize.toNat := by
      exact_mod_cast Nat.mul_pos (Nat.zero_lt_of_lt hstride) hpos
    exact nonneg_of_mul_nonneg_right hall.1 hbytes
  · rintro ⟨hstride, hseg, hsegs, hall⟩
    have hlt := UInt64.lt_iff_toNat_lt.1 hstride
    have hprod : call.stride.toNat * call.elementSize.toNat <
        call.segCount.toNat * call.elementSize.toNat := Nat.mul_lt_mul_of_pos_right hlt hpos
    have hsize : (call.segCount * call.elementSize).toNat =
        call.segCount.toNat * call.elementSize.toNat := (toNat_mul_eq_iff _ _).2 hseg
    have hoffset : (call.stride * call.elementSize).toNat =
        call.stride.toNat * call.elementSize.toNat :=
      (toNat_mul_eq_iff _ _).2 (hprod.trans hseg)
    have hbelow : call.stride * call.elementSize < call.segCount * call.elementSize := by
      rw [UInt64.lt_iff_toNat_lt, hsize, hoffset]
      exact hprod
    refine ⟨hbelow, hsize, hoffset, ?_, ?_⟩
    · show ((call.segCount * call.elementSize - call.stride * call.elementSize).toNat : ℤ) = _
      rw [UInt64.toNat_sub_of_le _ _ (UInt64.le_of_lt hbelow)]
      exact Nat.cast_sub (UInt64.le_iff_toNat_le.1 (UInt64.le_of_lt hbelow))
    · rw [← Nat.cast_mul, ← hsize, toNat_mul_ofInt_eq_iff, hsize, Nat.cast_mul]
      refine ⟨mul_nonneg ?_ hsegs, hall⟩
      exact_mod_cast Nat.zero_le (call.segCount.toNat * call.elementSize.toNat)

/-! ## What is admitted -/

/-- The arguments that `submitCollective` can refuse by itself. -/
def Refusable (call : Call) (b : Buffers) : Prop :=
  b.sendbuff = 0 ∨ b.recvbuff = 0 ∨ call.segCount = 0 ∨ call.elementSize = 0

theorem submitCollective_refusable {env : Surroundings} {call : Call} {b : Buffers}
    (h : Refusable call b) : submitCollective env call b = .rejected := by
  unfold submitCollective
  by_cases hnull : b.sendbuff = 0 ∨ b.recvbuff = 0 ∨ call.segCount = 0
  · exact if_pos hnull
  · have hes : call.elementSize = 0 := by
      rcases h with hb | hb | hb | hb
      · exact absurd (.inl hb) hnull
      · exact absurd (.inr (.inl hb)) hnull
      · exact absurd (.inr (.inr hb)) hnull
      · exact hb
    rw [if_neg hnull, if_pos hes]
    exact ite_self _

/-- A check sends the call one way or the other. -/
theorem admitted_ite {p : Prop} [Decidable p] {call : Call} {x y : Admission}
    (hx : x.admitted = none ∨ x.admitted = some call)
    (hy : y.admitted = none ∨ y.admitted = some call) :
    (if p then x else y).admitted = none ∨ (if p then x else y).admitted = some call := by
  split
  · exact hx
  · exact hy

/-- No check changes the call. -/
theorem submitCollective_same (env : Surroundings) (call : Call) (b : Buffers) :
    (submitCollective env call b).admitted = none ∨
      (submitCollective env call b).admitted = some call := by
  unfold submitCollective
  apply admitted_ite (.inl rfl)
  apply admitted_ite (.inl rfl)
  apply admitted_ite (.inl rfl)
  apply admitted_ite (.inl rfl)
  apply admitted_ite (.inr rfl)
  apply admitted_ite (.inl rfl)
  apply admitted_ite (.inr rfl)
  apply admitted_ite (.inl rfl)
  exact admitted_ite (.inl rfl) (.inr rfl)

theorem submitCollective_admitted {env : Surroundings} {call call' : Call} {b : Buffers}
    (h : (submitCollective env call b).admitted = some call') :
    call' = call ∧ ¬ Refusable call b := by
  refine ⟨?_, fun hrefusable => ?_⟩
  · rcases submitCollective_same env call b with hnone | hsame
    · exact absurd (hnone.symm.trans h) nofun
    · exact (Option.some.inj (hsame.symm.trans h)).symm
  · rw [submitCollective_refusable hrefusable] at h
    cases h

/-- Surroundings in which all goes well, and the plan is compiled. -/
def Surroundings.granted : Surroundings where
  setDevice := true
  registerDeviceBuffers _ := true
  takesSmall _ _ := false
  waitForIdle := true
  planCached _ _ := false
  loadIR _ := true
  usesUnsupportedPeerD2D _ := false

theorem submitCollective_granted {call : Call} {b : Buffers} (h : ¬ Refusable call b) :
    submitCollective .granted call b = .compiled call := by
  simp only [Refusable, not_or] at h
  simp [submitCollective, Surroundings.granted, h]

/-- Whatever it finds beyond the arguments, a call that is admitted meets what the compiler relies
on. -/
def Safe (w : WorldSize) (e : EntryCall) (b : Buffers) : Prop :=
  ∀ env call, (submit w env e b).admitted = some call → DividesExactly w e ∧ LayoutRelies call

/-- What is admitted in any surroundings is admitted in the best ones. -/
theorem safe_iff {w : WorldSize} {e : EntryCall} {b : Buffers} :
    Safe w e b ↔ ∀ call, e.arguments w = some call →
      Refusable call b ∨ DividesExactly w e ∧ LayoutRelies call := by
  constructor
  · intro h call harguments
    by_cases hrefusable : Refusable call b
    · exact .inl hrefusable
    · refine .inr (h .granted call ?_)
      rw [submit, harguments]
      exact congrArg Admission.admitted (submitCollective_granted hrefusable)
  · intro h env call hadmitted
    unfold submit at hadmitted
    cases harguments : e.arguments w with
    | none =>
      rw [harguments] at hadmitted
      cases hadmitted
    | some call' =>
      rw [harguments] at hadmitted
      obtain ⟨rfl, hnot⟩ := submitCollective_admitted hadmitted
      exact (h call harguments).resolve_left hnot

/-! ## The counts for which the public calls are safe -/

variable (w : WorldSize)

/-- The segments of a count that is divided by the number of ranks. -/
def SafeDivided (count stride : UInt64) : Prop :=
  count.toNat < w.nranks ∨
    w.nranks ∣ count.toNat ∧ stride.toNat * w.nranks < count.toNat ∧ count.toNat < 2 ^ 62

/-- The segments of a count that is one segment's, for as many segments as there are ranks. -/
def SafePerRank (count stride : UInt64) : Prop :=
  count = 0 ∨ stride < count ∧ count.toNat * w.nranks < 2 ^ 62

/-- The counts of a typed submission. -/
def SafeTyped (segCount stride : UInt64) (sendSegs recvSegs : Int32) (o : TypedOptions) : Prop :=
  segCount = 0 ∨ o.elementSize = 0 ∨ stride < segCount ∧
    segCount.toNat * o.elementSize.toNat < 2 ^ 64 ∧ 0 ≤ max sendSegs.toInt recvSegs.toInt ∧
      segCount.toNat * o.elementSize.toNat * max sendSegs.toInt recvSegs.toInt < 2 ^ 64

/-- The counts of a public call that cannot go wrong. -/
def SafeCounts : EntryCall → Prop
  | .allReduce count => count.toNat < 2 ^ 62
  | .allGather count | .reduceScatter count => SafePerRank w count 0
  | .allToAll count => SafeDivided w count 0
  | .allGatherStrided count stride => SafePerRank w count stride
  | .reduceScatterStrided count stride | .allToAllStrided count stride =>
    SafeDivided w count stride
  | .submitTyped _ segCount stride sendSegs recvSegs options =>
    ∀ o, options = some o → SafeTyped segCount stride sendSegs recvSegs o

variable {w} {b : Buffers} {call : Call}

/-- The untyped calls: elements of 4 bytes, and at least one segment. -/
theorem layoutRelies_iff_of_four (hes : call.elementSize = 4) {m : ℕ} (hm : 0 < m)
    (hsegs : segments call = m) :
    LayoutRelies call ↔ call.stride < call.segCount ∧ call.segCount.toNat * m < 2 ^ 62 := by
  rw [layoutRelies_iff (by rw [hes]; decide), hes, hsegs]
  have hfour : (4 : UInt64).toNat = 4 := rfl
  have hle : call.segCount.toNat ≤ call.segCount.toNat * m := Nat.le_mul_of_pos_right _ hm
  have hall : (call.segCount.toNat : ℤ) * 4 * m < 2 ^ 64 ↔ call.segCount.toNat * m < 2 ^ 62 := by
    rw [mul_right_comm, ← Nat.cast_mul]
    omega
  rw [hfour]
  constructor
  · rintro ⟨hstride, -, -, h⟩
    exact ⟨hstride, hall.1 h⟩
  · rintro ⟨hstride, h⟩
    exact ⟨hstride, by omega, Int.natCast_nonneg m, hall.2 h⟩

theorem WorldSize.toNat_ofNat (w : WorldSize) : (UInt64.ofNat w.nranks).toNat = w.nranks :=
  UInt64.toNat_ofNat_of_lt' (Nat.lt_trans w.lt (by decide))

/-- A count for every rank. -/
theorem safePerRank_iff {count stride : UInt64} (hcount : call.segCount = count)
    (hstride : call.stride = stride) (hes : call.elementSize = 4)
    (hsegs : segments call = w.nranks) :
    call.segCount = 0 ∨ LayoutRelies call ↔ SafePerRank w count stride := by
  rw [layoutRelies_iff_of_four hes w.pos hsegs, hcount, hstride]
  rfl

/-- A count that is divided. -/
theorem safeDivided_iff {count stride : UInt64} (hcount : call.segCount = count / .ofNat w.nranks)
    (hstride : call.stride = stride) (hes : call.elementSize = 4)
    (hsegs : segments call = w.nranks) :
    call.segCount = 0 ∨ w.nranks ∣ count.toNat ∧ LayoutRelies call ↔
      SafeDivided w count stride := by
  have hseg : call.segCount.toNat = count.toNat / w.nranks := by
    rw [hcount, UInt64.toNat_div, w.toNat_ofNat]
  have hzero : call.segCount = 0 ↔ count.toNat < w.nranks := by
    rw [← UInt64.toNat_inj, hseg]
    exact Nat.div_eq_zero_iff_lt w.pos
  rw [hzero, layoutRelies_iff_of_four hes w.pos hsegs, UInt64.lt_iff_toNat_lt, hseg, hstride]
  unfold SafeDivided
  refine or_congr Iff.rfl (and_congr_right fun hdvd => ?_)
  rw [Nat.div_mul_cancel hdvd, Nat.lt_div_iff_mul_lt' hdvd, Nat.mul_comm w.nranks]

theorem WorldSize.one_le (w : WorldSize) : (1 : ℤ) ≤ w.nranks := by
  exact_mod_cast w.pos

/-- Elements have 4 bytes where the caller gives no options. -/
theorem safe_untyped {e : EntryCall} (harguments : e.arguments w = some call)
    (hes : call.elementSize = 4) :
    (∀ call', e.arguments w = some call' → (call'.segCount = 0 ∨ call'.elementSize = 0) ∨
      DividesExactly w e ∧ LayoutRelies call') ↔
      call.segCount = 0 ∨ DividesExactly w e ∧ LayoutRelies call := by
  rw [harguments]
  have hne : call.elementSize ≠ 0 := by
    rw [hes]
    decide
  simp [hne]

theorem dividesExactly_of_none {e : EntryCall} (h : e.divided = none) : DividesExactly w e := by
  intro count hcount
  rw [h] at hcount
  cases hcount

theorem dividesExactly_iff {e : EntryCall} {count : UInt64} (h : e.divided = some count) :
    DividesExactly w e ↔ w.nranks ∣ count.toNat := by
  unfold DividesExactly
  rw [h]
  simp

/-- **When a public call is safe.**  All that is admitted meets what the compiler relies on, just
for null buffers, and for counts within the bounds of the call: the stride within the segment, the
count divisible where it is divided, and the bytes of all segments within 64 bits. -/
theorem admission_arithmetic (w : WorldSize) (e : EntryCall) (b : Buffers) :
    Safe w e b ↔ b.sendbuff = 0 ∨ b.recvbuff = 0 ∨ SafeCounts w e := by
  rw [safe_iff]
  by_cases hsend : b.sendbuff = 0
  · exact iff_of_true (fun _ _ => .inl (.inl hsend)) (.inl hsend)
  by_cases hrecv : b.recvbuff = 0
  · exact iff_of_true (fun _ _ => .inl (.inr (.inl hrecv))) (.inr (.inl hrecv))
  simp only [Refusable, hsend, hrecv, false_or]
  have hmax : max (1 : ℤ) w.nranks = w.nranks := max_eq_right w.one_le
  have hmax' : max (w.nranks : ℤ) 1 = w.nranks := max_eq_left w.one_le
  cases e with
  | allReduce count =>
    rw [safe_untyped rfl rfl, and_iff_right (dividesExactly_of_none rfl),
      layoutRelies_iff_of_four rfl Nat.one_pos rfl, Nat.mul_one]
    show count = 0 ∨ 0 < count ∧ count.toNat < 2 ^ 62 ↔ count.toNat < 2 ^ 62
    by_cases hzero : count = 0
    · subst hzero
      decide
    · simp [hzero, UInt64.pos_iff_ne_zero]
  | allGather count =>
    rw [safe_untyped rfl rfl, and_iff_right (dividesExactly_of_none rfl)]
    exact safePerRank_iff rfl rfl rfl hmax
  | reduceScatter count =>
    rw [safe_untyped rfl rfl, and_iff_right (dividesExactly_of_none rfl)]
    exact safePerRank_iff rfl rfl rfl hmax'
  | allToAll count =>
    rw [safe_untyped rfl rfl, dividesExactly_iff rfl]
    exact safeDivided_iff rfl rfl rfl (max_self _)
  | allGatherStrided count stride =>
    rw [safe_untyped rfl rfl, and_iff_right (dividesExactly_of_none rfl)]
    exact safePerRank_iff rfl rfl rfl hmax
  | reduceScatterStrided count stride =>
    rw [safe_untyped rfl rfl, dividesExactly_iff rfl]
    exact safeDivided_iff rfl rfl rfl hmax'
  | allToAllStrided count stride =>
    rw [safe_untyped rfl rfl, dividesExactly_iff rfl]
    exact safeDivided_iff rfl rfl rfl (max_self _)
  | submitTyped collective segCount stride sendSegs recvSegs options =>
    cases options with
    | none => exact iff_of_true (fun _ h => absurd h (Option.some_ne_none _).symm) nofun
    | some o =>
      rw [show SafeCounts w (.submitTyped collective segCount stride sendSegs recvSegs (some o)) =
        ∀ o', some o = some o' → SafeTyped segCount stride sendSegs recvSegs o' from rfl]
      simp only [Option.some_inj, forall_eq']
      by_cases hes : o.elementSize = 0
      · refine iff_of_true (fun call hcall => .inl (.inr ?_)) (.inr (.inl hes))
        rw [← Option.some.inj hcall]
        exact hes
      · have hone : ∀ call, EntryCall.arguments w
            (.submitTyped collective segCount stride sendSegs recvSegs (some o)) = some call ↔
              _ = call := fun call => Option.some_inj
        simp only [hone, forall_eq', hes, or_false, false_or, SafeTyped]
        refine or_congr Iff.rfl ?_
        rw [and_iff_right (dividesExactly_of_none rfl)]
        exact layoutRelies_iff hes

/-! ## Calls that are admitted and should not be -/

def twoRanks : WorldSize := ⟨2, Nat.two_pos, by decide⟩

def twoBuffers : Buffers := ⟨4096, 8192⟩

/-- **Calls that are not safe**: a stride as long as the segment, a count that two ranks cannot
share, and a count whose bytes wrap around. -/
theorem admission_arithmetic_unsafe :
    ¬ Safe twoRanks (.allToAllStrided 8 4) twoBuffers ∧
      ¬ Safe twoRanks (.allToAll 7) twoBuffers ∧
      ¬ Safe twoRanks (.allGather 4611686018427387904) twoBuffers := by
  have hexact : ¬ DividesExactly twoRanks (.allToAll 7) := fun h =>
    absurd (h 7 rfl) (by decide)
  refine ⟨fun h => ?_, fun h => ?_, fun h => ?_⟩
  · have hrelies := (h .granted _ rfl).2
    exact absurd hrelies.strideOffset_lt (by decide)
  · exact hexact (h .granted _ rfl).1
  · have hrelies := (h .granted _ rfl).2
    have hbytes := ((layoutRelies_iff (by decide)).1 hrelies).2.1
    exact absurd hbytes (by decide)

end EntryPoints
end Api
end HyLink
