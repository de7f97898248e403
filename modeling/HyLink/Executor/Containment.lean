import HyLink.Compiler.Active
import HyLink.Executor.Operands
import HyLink.Theory.Shares
import HyLink.Theory.Tiles

/-!
# Where a graph's transfers go

The user's buffers are cut segment by segment.  A segment's active elements are cut evenly into
`chunks_per_segment` chunks; the two sides of a program may be cut into different numbers.  A node
has one number of bytes, taken from the chunk it writes: the size of that chunk on the device, the
size of the largest chunk of either side on the host.

* `segmentTiled_iff` — the chunks of a segment tile its active part, just if they are all there.
* `node_iff` — a node's subchunks stay in their regions just if its bytes fit at every operand.
* `layoutSound_iff` — what a program must satisfy for both, on a rank.
* `baseFits_of_alike` — when both sides are cut into the same number of chunks, whatever is in the
  layout fits.
-/

namespace HyLink
namespace Compiler

open Ir

/-! ## What a program must satisfy -/

namespace CompileOptions

variable (options : CompileOptions) (program : IRProgram)

/-- Chunks of a segment of a user buffer. -/
def cpsOf : ProgressSpace → ℕ
  | .input => options.d2hCps program
  | .output | .scratch => options.h2dCps program
  | .host | .internal => 1

/-- Segments of a user buffer. -/
def segmentsOf : ProgressSpace → ℕ
  | .input => max 1 options.d2hSegments
  | .output | .scratch => max 1 options.h2dSegments
  | .host | .internal => 1

/-- Chunks that a user buffer's layout lists. -/
def countOf (rank : ℕ) : ProgressSpace → ℕ
  | .input => maxInputChunkCount program rank
  | .output | .scratch => program.outputChunkCount
  | .host | .internal => 0

/-- Bytes of a segment's active part. -/
def activeBytes : ℕ := options.activeElems * options.elementSize

/-- Where a chunk of a user buffer begins in the active part of its segment: as it is listed, else
a whole number of slots. -/
def beginOf (rank : ℕ) (space : ProgressSpace) (i : ℕ) : ℕ :=
  if i < countOf program rank space then
    chunkBegin options.activeElems (options.cpsOf program space) (i % options.cpsOf program space) *
      options.elementSize
  else i % options.cpsOf program space * options.chunkSize program

/-- A chunk of a user buffer lies in one of its segments, and `bytes` bytes from where it begins lie
in the active part. -/
def UserFits (rank : ℕ) (space : ProgressSpace) (i bytes : ℕ) : Prop :=
  i / options.cpsOf program space < options.segmentsOf space ∧
    options.beginOf program rank space i + bytes ≤ options.activeBytes

/-- `bytes` bytes fit at a chunk. -/
def BaseFits (rank : ℕ) (base : BaseKey) (bytes : ℕ) : Prop :=
  0 ≤ base.chunk ∧
    (base.space = .host ∨ base.space = .internal ∨
      options.UserFits program rank base.space base.chunk.toNat bytes)

instance (rank : ℕ) (space : ProgressSpace) (i bytes : ℕ) :
    Decidable (options.UserFits program rank space i bytes) := by
  unfold UserFits; infer_instance

instance (rank : ℕ) (base : BaseKey) (bytes : ℕ) :
    Decidable (options.BaseFits program rank base bytes) := by
  unfold BaseFits; infer_instance

/-- Bytes that a node writing this chunk moves. -/
def bytesOf (rank : ℕ) (base : BaseKey) : ℕ :=
  options.chunkBytesForKey program (maxInputChunkCount program rank) base

end CompileOptions

theorem le_maxInputChunkCount (program : IRProgram) (rank : ℤ) :
    program.inputChunkCount ≤ maxInputChunkCount program rank := by
  unfold maxInputChunkCount
  generalize program.allInstructions = insts
  generalize program.inputChunkCount = count
  induction insts generalizing count with
  | nil => exact le_rfl
  | cons inst insts ih =>
    rw [List.foldl_cons]
    refine le_trans ?_ (ih _)
    split
    · exact le_max_left _ _
    · exact le_rfl

/-- The spaces of the user's buffers. -/
def IsUserSpace (space : ProgressSpace) : Prop := space ≠ .host ∧ space ≠ .internal

/-- A chunk of a layout: on the host, in `INTERNAL`, or listed and in a segment of its buffer. -/
def Listed (options : CompileOptions) (program : IRProgram) (rank : ℕ) (base : BaseKey) : Prop :=
  0 ≤ base.chunk ∧ (base.space = .host ∨ base.space = .internal ∨
    base.chunk.toNat < CompileOptions.countOf program rank base.space ∧
      base.chunk.toNat / options.cpsOf program base.space < options.segmentsOf base.space)

/-- What a program must satisfy on a rank: each user buffer has a chunk for every segment, and what
the rank's instructions and copy-backs move fits at each chunk it is moved between. -/
structure LayoutFits (env : Env) (graphOptions : GraphCompileOptions) (program : IRProgram)
    (worldSize rank : ℕ) : Prop where
  segments : ∀ space, IsUserSpace space → graphOptions.legacyLayout.activeBytes = 0 ∨
    graphOptions.legacyLayout.segmentsOf space ≤ CompileOptions.countOf program rank space
  insts : ∀ inst ∈ program.allInstructions, executionRank env inst = rank →
    ∀ out ∈ producedBase graphOptions program worldSize inst,
      graphOptions.legacyLayout.bytesOf program rank out = 0 ∨
      ∀ base ∈ out :: sourceBases graphOptions program worldSize inst,
        graphOptions.legacyLayout.BaseFits program rank base
          (graphOptions.legacyLayout.bytesOf program rank out)
  staged : ∀ i ∈ stagedChunks graphOptions program worldSize rank,
    graphOptions.legacyLayout.bytesOf program rank (deviceKey .output rank (i : ℕ)) = 0 ∨
      graphOptions.legacyLayout.BaseFits program rank (deviceKey .output rank (i : ℕ))
        (graphOptions.legacyLayout.bytesOf program rank (deviceKey .output rank (i : ℕ)))

end Compiler

namespace Executor

open Ir Compiler Theory

/-! ## Tiled segments -/

/-- The bytes of a chunk that a layout lists. -/
def chunkSpan (layout : LayoutDesc) (i : ℕ) : Span where
  start := i / layout.chunksPerSegment * layout.segmentSize + layout.strideOffset +
    layout.chunkOffsets.getD i 0
  len := layout.chunkSizes.getD i 0

/-- The chunks that a layout lists for a segment, which are those with `i / chunks_per_segment = s`,
tile the segment's active part. -/
def SegmentTiled (layout : LayoutDesc) (s : ℕ) : Prop :=
  let start := s * layout.segmentSize + layout.strideOffset
  Tiles start
    ((share layout.chunkSizes.length layout.chunksPerSegment s).map (chunkSpan layout))
    (start + (layout.segmentSize - layout.strideOffset))

section

variable {segmentSize strideOffset elementSize activeElems count cps slotSize s : ℕ}

theorem makeDeviceLayout_span (hcps : 0 < cps) {i : ℕ} (hi : i < cps)
    (hcount : s * cps + i < count) :
    chunkSpan (makeDeviceLayout segmentSize strideOffset elementSize activeElems count cps slotSize)
      (s * cps + i) =
      ⟨s * segmentSize + strideOffset + evenCut activeElems cps i * elementSize,
        (evenCut activeElems cps (i + 1) - evenCut activeElems cps i) * elementSize⟩ := by
  have hmax : max 1 cps = cps := max_eq_right hcps
  have hdiv : (s * cps + i) / cps = s := by
    rw [Nat.mul_comm, Nat.mul_add_div hcps, Nat.div_eq_of_lt hi, Nat.add_zero]
  have hmod : (s * cps + i) % cps = i := by
    rw [Nat.mul_comm, Nat.mul_add_mod, Nat.mod_eq_of_lt hi]
  simp [chunkSpan, makeDeviceLayout, makeLayout, hmax, hdiv, hmod, hcount, deviceChunkSize,
    chunkBegin, evenCut]

/-- **A segment is tiled** by its chunks just if they are all listed, or there is nothing to
tile. -/
theorem segmentTiled_iff (hcps : 0 < cps)
    (hactive : segmentSize - strideOffset = activeElems * elementSize) :
    SegmentTiled (makeDeviceLayout segmentSize strideOffset elementSize activeElems count cps
      slotSize) s ↔ activeElems * elementSize = 0 ∨ (s + 1) * cps ≤ count := by
  have hmax : max 1 cps = cps := max_eq_right hcps
  have hm : min cps (count - s * cps) ≤ cps := Nat.min_le_left _ _
  have hspans : (share count cps s).map (chunkSpan
      (makeDeviceLayout segmentSize strideOffset elementSize activeElems count cps slotSize)) =
      (List.range (min cps (count - s * cps))).map fun i =>
        ⟨s * segmentSize + strideOffset + evenCut activeElems cps i * elementSize,
          (evenCut activeElems cps (i + 1) - evenCut activeElems cps i) * elementSize⟩ := by
    rw [share, List.range'_eq_map_range, List.map_map]
    refine List.map_congr_left fun i hi => ?_
    rw [List.mem_range] at hi
    exact makeDeviceLayout_span hcps (by omega) (by omega)
  have hlen : (makeDeviceLayout segmentSize strideOffset elementSize activeElems count cps
      slotSize).chunkSizes.length = count := by simp [makeDeviceLayout]
  have hsize : (makeDeviceLayout segmentSize strideOffset elementSize activeElems count cps
      slotSize).chunksPerSegment = cps := hmax
  have hall : min cps (count - s * cps) = cps ↔ (s + 1) * cps ≤ count := by
    rw [Nat.add_mul, Nat.one_mul]
    omega
  rw [SegmentTiled, hlen, hsize, hspans, ← hall]
  show Tiles (s * segmentSize + strideOffset) _
    (s * segmentSize + strideOffset + (segmentSize - strideOffset)) ↔ _
  rw [hactive]
  exact tiles_evenCut_iff hm hcps

end

/-! ## The layouts of a graph -/

namespace Cluster

variable {c : Cluster} {r : ℕ}

theorem d2hCps_pos (options : CompileOptions) (program : IRProgram) :
    0 < options.d2hCps program := by simp [CompileOptions.d2hCps]

theorem h2dCps_pos (options : CompileOptions) (program : IRProgram) :
    0 < options.h2dCps program := by simp [CompileOptions.h2dCps]

theorem cpsOf_pos (options : CompileOptions) (program : IRProgram) (space : ProgressSpace) :
    0 < options.cpsOf program space := by
  cases space <;> simp [CompileOptions.cpsOf, d2hCps_pos, h2dCps_pos]

/-- The layout of a user buffer. -/
theorem layoutOf_user {space : ProgressSpace} (h : IsUserSpace space) :
    c.layoutOf r space = makeDeviceLayout c.graphOptions.legacyLayout.segmentSize
      c.graphOptions.legacyLayout.strideOffset c.elementSize
      c.graphOptions.legacyLayout.activeElems (CompileOptions.countOf c.program r space)
      (c.graphOptions.legacyLayout.cpsOf c.program space) c.chunkSize := by
  cases space with
  | host => exact absurd rfl h.1
  | internal => exact absurd rfl h.2
  | input => rfl
  | output => rfl
  | scratch => rfl

theorem activeBytes_eq : c.graphOptions.legacyLayout.segmentSize -
    c.graphOptions.legacyLayout.strideOffset =
    c.graphOptions.legacyLayout.activeElems * c.elementSize :=
  (Nat.sub_mul _ _ _).symm

/-- Every segment of a user buffer has its chunks just if there are as many chunks as segments. -/
theorem segments_covered_iff (options : CompileOptions) (program : IRProgram) (rank : ℕ)
    {space : ProgressSpace} (h : IsUserSpace space) :
    (∀ s < options.segmentsOf space,
      (s + 1) * options.cpsOf program space ≤ CompileOptions.countOf program rank space) ↔
      options.segmentsOf space ≤ CompileOptions.countOf program rank space := by
  have hall : ∀ {segs cps named count : ℕ}, 0 < segs → cps = max 1 (named / segs) →
      named ≤ count → ((∀ s < segs, (s + 1) * cps ≤ count) ↔ segs ≤ count) := by
    intro segs cps named count hsegs hcps hnamed
    constructor
    · intro hs
      have hlast := hs (segs - 1) (by omega)
      rw [Nat.sub_add_cancel hsegs] at hlast
      exact (Nat.le_mul_of_pos_right segs (by omega)).trans hlast
    · intro hle s hlt
      have hmul : (s + 1) * cps ≤ segs * cps := Nat.mul_le_mul_right cps hlt
      have hdiv := Nat.mul_div_le named segs
      rcases Nat.eq_zero_or_pos (named / segs) with h0 | hpos
      · rw [hcps, h0, max_eq_left (Nat.zero_le 1)] at hmul ⊢
        omega
      · rw [hcps, max_eq_right hpos] at hmul ⊢
        omega
  cases space with
  | host => exact absurd rfl h.1
  | internal => exact absurd rfl h.2
  | input =>
    exact hall (by simp [CompileOptions.segmentsOf]) rfl (le_maxInputChunkCount program rank)
  | output => exact hall (by simp [CompileOptions.segmentsOf]) rfl le_rfl
  | scratch => exact hall (by simp [CompileOptions.segmentsOf]) rfl le_rfl

/-- A user operand's place, read off the options. -/
theorem inSegment_user {key : BaseKey} (h : IsUserSpace key.space) (hchunk : 0 ≤ key.chunk) :
    c.inSegment r key =
      c.graphOptions.legacyLayout.beginOf c.program r key.space key.chunk.toNat := by
  have hcps := cpsOf_pos c.graphOptions.legacyLayout c.program key.space
  have hmax : max 1 (c.graphOptions.legacyLayout.cpsOf c.program key.space) =
      c.graphOptions.legacyLayout.cpsOf c.program key.space := max_eq_right hcps
  unfold inSegment CompileOptions.beginOf
  rw [layoutOf_user h]
  by_cases hlt : key.chunk.toNat < CompileOptions.countOf c.program r key.space
  · simp [makeDeviceLayout, hmax, hchunk, hlt]
    exact Or.inl rfl
  · simp [makeDeviceLayout, makeLayout, hmax, hlt]
    exact Or.inl rfl

theorem segmentOf_user {key : BaseKey} (h : IsUserSpace key.space) :
    c.segmentOf r key =
      key.chunk.toNat / c.graphOptions.legacyLayout.cpsOf c.program key.space := by
  have hcps := cpsOf_pos c.graphOptions.legacyLayout c.program key.space
  have hmax : max 1 (c.graphOptions.legacyLayout.cpsOf c.program key.space) =
      c.graphOptions.legacyLayout.cpsOf c.program key.space := max_eq_right hcps
  rw [segmentOf, layoutOf_user h]
  simp [makeDeviceLayout, makeLayout, hmax]

/-! ## Operands -/

variable {n : InstructionNode} {key : BaseKey}

/-- **One operand.**  The subchunks of a node stay in an operand's region just if its bytes fit
there. -/
theorem operand_iff (hpos : 0 < n.workBytes) (hle : n.workBytes ≤ c.chunkSize)
    (ringBuffered : Bool) :
    (∀ sc < c.numSubchunks, 0 < c.subchunkSize n sc →
      c.Contained r key sc ringBuffered (c.subchunkSize n sc)) ↔
    c.graphOptions.legacyLayout.BaseFits c.program r key n.workBytes := by
  unfold CompileOptions.BaseFits
  by_cases hhost : key.space = .host
  · constructor
    · intro h
      obtain ⟨sc, hsc, hbytes, -⟩ := exists_last_subchunk hpos hle
      exact ⟨(h sc hsc hbytes).chunk_nonneg, Or.inl hhost⟩
    · rintro ⟨hchunk, -⟩ sc hsc hbytes
      exact contained_host hhost hchunk hle hsc hbytes ringBuffered
  rw [contained_device hhost hpos hle]
  refine and_congr_right fun hchunk => ?_
  by_cases hint : key.space = .internal
  · have hlayout : c.layoutOf r key.space = makeLayout c.chunkSize 0 c.chunkSize 1 := by
      rw [hint]
      rfl
    have hbegin : c.inSegment r key = 0 := by
      simp [inSegment, hlayout, makeLayout, Nat.mod_one]
    simp only [hint, or_true, true_or, iff_true]
    rw [← hint, hbegin, hlayout]
    refine ⟨by simp only [hasSegment, hint], ?_⟩
    simpa [makeLayout] using hle
  · have huser : IsUserSpace key.space := ⟨hhost, hint⟩
    have hseg : ∀ s, c.hasSegment key.space s ↔
        s < c.graphOptions.legacyLayout.segmentsOf key.space := by
      intro s
      revert hhost hint
      cases key.space <;> simp [hasSegment, CompileOptions.segmentsOf]
    have hactive : (c.layoutOf r key.space).segmentSize - (c.layoutOf r key.space).strideOffset =
        c.graphOptions.legacyLayout.activeBytes := by
      rw [layoutOf_user huser]
      exact activeBytes_eq
    simp only [hhost, hint, false_or, CompileOptions.UserFits]
    rw [hseg, hactive, segmentOf_user huser, inSegment_user huser hchunk]

/-- **One node.**  Its subchunks stay in their regions just if it has nothing to move or its bytes
fit at every operand. -/
theorem node_iff (hle : n.workBytes ≤ c.chunkSize) :
    (∀ sc < c.numSubchunks, 0 < c.subchunkSize n sc → ∀ op ∈ operands n,
      c.Contained r op.1 sc op.2 (c.subchunkSize n sc)) ↔
    n.workBytes = 0 ∨ ∀ op ∈ operands n,
      c.graphOptions.legacyLayout.BaseFits c.program r op.1 n.workBytes := by
  rcases Nat.eq_zero_or_pos n.workBytes with h0 | hpos
  · have hnone : ∀ sc, c.subchunkSize n sc = 0 := by
      intro sc
      rw [subchunkSize, h0, if_pos (Nat.zero_le _)]
    simp [hnone, h0]
  · rw [or_iff_right hpos.ne']
    constructor
    · intro h op hop
      exact (operand_iff hpos hle op.2).1 fun sc hsc hbytes => h sc hsc hbytes op hop
    · intro h sc hsc hbytes op hop
      exact (operand_iff hpos hle op.2).2 (h op hop) sc hsc hbytes

/-! ## Graphs -/

/-- An instruction's node moves bytes between the chunk it writes and those it counts as read. -/
theorem operands_instNode {a : Assignment} (ha : a ∈ c.plan.assignments) :
    (operands (c.plan.instNode c.env r a)).map (·.1) =
      a.output.base :: sourceBases c.graphOptions c.program c.worldSize a.inst := by
  obtain ⟨mid, post, -, hat⟩ := c.plan.assignedFrom.exists_split ha
  have hmap := congrArg (List.map ProgressKey.base) hat.inputs
  rw [List.map_map, List.map_map, Function.comp_def, Function.comp_def, List.map_id'] at hmap
  have hin : ((c.plan.instNode c.env r a).inputs.map (·.key.base)) =
      inputBases c.graphOptions c.program c.worldSize a.inst := by
    rw [← hmap]
    simp [Plan.instNode, instantiateNode]
  have hop : (c.plan.instNode c.env r a).op = a.inst.op := rfl
  have hout : (c.plan.instNode c.env r a).output = a.output := rfl
  rw [operands, List.map_cons, List.map_map, hout, resolvedInputs, hop]
  simp only [Function.comp_def, List.map_take, hin, sourceBases]
  cases hcase : a.inst.op <;> simp [inputBases, hcase]

/-- A copy-back moves bytes from the staged chunk to the output chunk. -/
theorem operands_copyBack {i : ℕ}
    (hs : stageOutputChunk c.graphOptions c.program c.worldSize r (i : ℕ) = true) :
    (operands (c.plan.copyBack r i)).map (·.1) =
      [deviceKey .output r (i : ℕ), deviceKey .internal r (i : ℕ)] := by
  have hop : (c.plan.copyBack r i).op = .d2d := rfl
  simp [operands, resolvedInputs, hop, c.plan.copyBack_input, c.plan.copyBack_output hs]

theorem workBytes_copyBack {i : ℕ}
    (hs : stageOutputChunk c.graphOptions c.program c.worldSize r (i : ℕ) = true) :
    (c.plan.copyBack r i).workBytes =
      c.graphOptions.legacyLayout.bytesOf c.program r (deviceKey .output r (i : ℕ)) := by
  have hout := c.plan.copyBack_output hs
  have hwork : (c.plan.copyBack r i).workBytes =
      c.graphOptions.legacyLayout.bytesOf c.program r (c.plan.copyBack r i).output.base := rfl
  rw [hwork, hout]

theorem workBytes_le {n : InstructionNode} (hn : n ∈ (c.graph r).nodes) :
    n.workBytes ≤ c.chunkSize := by
  rcases c.plan.mem_nodes_iff.1 hn with ⟨a, -, -, rfl⟩ | ⟨i, -, hs, rfl⟩
  · exact chunkBytesForKey_le _ _ _ _
  · rw [workBytes_copyBack hs]
    exact chunkBytesForKey_le _ _ _ _

/-- On a rank, every segment of a user buffer is tiled, and every subchunk that a node moves stays
in the regions of its operands. -/
structure LayoutSound (c : Cluster) (r : ℕ) : Prop where
  tiled : ∀ space, IsUserSpace space → ∀ s < c.graphOptions.legacyLayout.segmentsOf space,
    SegmentTiled (c.layoutOf r space) s
  contained : ∀ n ∈ (c.graph r).nodes, ∀ sc < c.numSubchunks, 0 < c.subchunkSize n sc →
    ∀ op ∈ operands n, c.Contained r op.1 sc op.2 (c.subchunkSize n sc)

theorem tiled_iff {space : ProgressSpace} (h : IsUserSpace space) :
    (∀ s < c.graphOptions.legacyLayout.segmentsOf space, SegmentTiled (c.layoutOf r space) s) ↔
      c.graphOptions.legacyLayout.activeBytes = 0 ∨
        c.graphOptions.legacyLayout.segmentsOf space ≤
          CompileOptions.countOf c.program r space := by
  rw [layoutOf_user h, ← segments_covered_iff _ _ _ h]
  have hiff : ∀ s, SegmentTiled (makeDeviceLayout c.graphOptions.legacyLayout.segmentSize
      c.graphOptions.legacyLayout.strideOffset c.elementSize
      c.graphOptions.legacyLayout.activeElems (CompileOptions.countOf c.program r space)
      (c.graphOptions.legacyLayout.cpsOf c.program space) c.chunkSize) s ↔
      c.graphOptions.legacyLayout.activeBytes = 0 ∨
        (s + 1) * c.graphOptions.legacyLayout.cpsOf c.program space ≤
          CompileOptions.countOf c.program r space :=
    fun s => segmentTiled_iff (cpsOf_pos _ _ _) activeBytes_eq
  simp only [hiff]
  by_cases h0 : c.graphOptions.legacyLayout.activeBytes = 0
  · simp [h0]
  · simp [h0]

theorem contained_iff : (∀ n ∈ (c.graph r).nodes, ∀ sc < c.numSubchunks,
    0 < c.subchunkSize n sc → ∀ op ∈ operands n,
      c.Contained r op.1 sc op.2 (c.subchunkSize n sc)) ↔
    ∀ n ∈ (c.graph r).nodes, n.workBytes = 0 ∨ ∀ base ∈ (operands n).map (·.1),
      c.graphOptions.legacyLayout.BaseFits c.program r base n.workBytes := by
  refine forall_congr' fun n => forall_congr' fun hn => ?_
  rw [node_iff (workBytes_le hn), List.forall_mem_map]

theorem LayoutSound.fits (h : c.LayoutSound r) :
    LayoutFits c.env c.graphOptions c.program c.worldSize r := by
  obtain ⟨htiled, hcontained⟩ := h
  rw [contained_iff] at hcontained
  refine ⟨fun space h => tiled_iff h |>.1 (htiled space h), ?_, ?_⟩
  · intro inst hi hexec out hout
    have hop : inst.op ≠ .nop := fun hop => by
      rw [producedBase_eq_none.2 hop] at hout
      cases hout
    obtain ⟨a, ha, rfl⟩ := c.plan.exists_assignment hi hop
    obtain ⟨mid, post, -, hat⟩ := c.plan.assignedFrom.exists_split ha
    obtain rfl : a.output.base = out := Option.some.inj (hat.produced.symm.trans hout)
    have hnode := hcontained _ (c.plan.mem_nodes_iff.2 (Or.inl ⟨a, ha, hexec, rfl⟩))
    rwa [operands_instNode ha] at hnode
  · intro i hi
    simp only [stagedChunks, List.mem_filter, List.mem_range] at hi
    have hnode := hcontained _ (c.plan.mem_nodes_iff.2 (Or.inr ⟨i, hi.1, hi.2, rfl⟩))
    rw [operands_copyBack hi.2, workBytes_copyBack hi.2] at hnode
    exact hnode.imp_right fun h => h _ List.mem_cons_self

theorem LayoutSound.of_fits (h : LayoutFits c.env c.graphOptions c.program c.worldSize r) :
    c.LayoutSound r := by
  obtain ⟨hsegments, hinsts, hstaged⟩ := h
  refine ⟨fun space h => (tiled_iff h).2 (hsegments space h), ?_⟩
  rw [contained_iff]
  intro n hn
  rcases c.plan.mem_nodes_iff.1 hn with ⟨a, ha, hexec, rfl⟩ | ⟨i, hi, hs, rfl⟩
  · obtain ⟨mid, post, -, hat⟩ := c.plan.assignedFrom.exists_split ha
    rw [operands_instNode ha]
    exact hinsts a.inst (c.plan.inst_mem ha) hexec _ hat.produced
  · rw [operands_copyBack hs, workBytes_copyBack hs]
    refine (hstaged i (List.mem_filter.2 ⟨List.mem_range.2 hi, hs⟩)).imp_right fun h => ?_
    rw [List.forall_mem_cons, List.forall_mem_singleton]
    exact ⟨h, Int.natCast_nonneg i, Or.inr (Or.inl rfl)⟩

/-- **Sides cut alike.**  When both sides have the same number of chunks in a segment, the largest
chunk is a part of an even cut of either, so that every transfer fits at every listed chunk. -/
theorem baseFits_of_alike {options : CompileOptions} {program : IRProgram} {rank : ℕ}
    (halike : options.d2hCps program = options.h2dCps program) {base : BaseKey} {bytes : ℕ}
    (hlisted : Listed options program rank base) (hle : bytes ≤ options.chunkSize program) :
    options.BaseFits program rank base bytes := by
  refine ⟨hlisted.1, ?_⟩
  rcases hlisted.2 with hhost | hint | ⟨hcount, hseg⟩
  · exact Or.inl hhost
  · exact Or.inr (Or.inl hint)
  by_cases hhost : base.space = .host
  · exact Or.inl hhost
  by_cases hint : base.space = .internal
  · exact Or.inr (Or.inl hint)
  refine Or.inr (Or.inr ⟨hseg, ?_⟩)
  have hcps := cpsOf_pos options program base.space
  have hsame : options.cpsOf program base.space = options.d2hCps program := by
    revert hhost hint
    cases base.space <;> simp [CompileOptions.cpsOf, halike]
  have hsize : options.chunkSize program =
      (options.activeElems + options.cpsOf program base.space - 1) /
        options.cpsOf program base.space * options.elementSize := by
    rw [hsame] at hcps ⊢
    rw [CompileOptions.chunkSize, ← halike, max_self, maxChunkBytes, max_eq_right hcps, divUp,
      if_neg hcps.ne']
  have hcut := evenCut_add_le (n := options.activeElems)
    (Nat.mod_lt base.chunk.toNat hcps)
  have hmul := Nat.mul_le_mul_right options.elementSize hcut
  rw [Nat.add_mul, ← hsize] at hmul
  rw [CompileOptions.beginOf, if_pos hcount, CompileOptions.activeBytes]
  exact (Nat.add_le_add_left hle _).trans hmul

/-- A program whose sides are cut alike and whose instructions stay in the layout. -/
theorem LayoutSound.of_alike
    (halike : c.graphOptions.legacyLayout.d2hCps c.program =
      c.graphOptions.legacyLayout.h2dCps c.program)
    (hsegments : ∀ space, IsUserSpace space → c.graphOptions.legacyLayout.segmentsOf space ≤
      CompileOptions.countOf c.program r space)
    (hlisted : ∀ base ∈ rankBases c.env c.graphOptions c.program c.worldSize r,
      Listed c.graphOptions.legacyLayout c.program r base) : c.LayoutSound r := by
  refine LayoutSound.of_fits ⟨fun space h => Or.inr (hsegments space h),
    fun inst hi hexec out hout => Or.inr fun base hb => ?_, fun i hi => Or.inr ?_⟩
  · refine baseFits_of_alike halike (hlisted base ?_) (chunkBytesForKey_le _ _ _ _)
    have hop : inst.op ≠ .nop := fun hop => by
      rw [producedBase_eq_none.2 hop] at hout
      cases hout
    refine mem_rankBases.2 (Or.inl ⟨inst, hi, hop, hexec, mem_instBases.2 ?_⟩)
    rcases List.mem_cons.1 hb with rfl | hb
    · exact Or.inr hout
    · exact Or.inl (sourceBases_subset hb)
  · simp only [stagedChunks, List.mem_filter, List.mem_range] at hi
    exact baseFits_of_alike halike (hlisted _ (mem_rankBases.2 (Or.inr (mem_ownBases.2
      (Or.inr (Or.inl ⟨i, hi.1, rfl⟩)))))) (chunkBytesForKey_le _ _ _ _)

end Cluster

/-- Rank zero copies the last of its four input chunks to the host, and from there to the last of
two output chunks. -/
def unlikeProgram : IRProgram where
  inputChunkCount := 4
  outputChunkCount := 2
  allInstructions :=
    [{ op := .d2h, rank := 0, src := ⟨0, 3⟩, dst := ⟨0, 0⟩ },
     { op := .h2d, rank := 0, src := ⟨0, 0⟩, dst := ⟨0, 1⟩ }]

/-- Eight elements of four bytes. -/
def eightElements : GraphCompileOptions where
  legacyLayout := { segCount := 8 }

end Executor
end HyLink
