import HyLink.Executor.Cluster

/-!
# Operands and their regions

A node's DMA moves one subchunk between two buffers: `resolve` adds an offset to the base address of
each.  A host chunk has `chunkSize` bytes of its own in the host pool.  A device chunk lies in a
segment of its buffer, after the leading bytes that another path transfers.

* `resolve_eq` — an address is the buffer's base with the operand's offset.
* `contained_host`, `contained_device` — when all subchunks of a node stay in an operand's region.
-/

namespace HyLink
namespace Executor

open Ir Compiler

/-- The inputs whose addresses a node resolves: a three-address reduce has two sources. -/
def resolvedInputs (n : InstructionNode) : List NodeInput :=
  n.inputs.take (if n.op = .h2hReduce then 2 else 1)

/-- The chunks between which a node moves bytes, with their ring flags. -/
def operands (n : InstructionNode) : List (BaseKey × Bool) :=
  (n.output.base, n.outputRingBuffered) ::
    (resolvedInputs n).map fun x => (x.key.base, x.ringBuffered)

namespace Cluster

variable (c : Cluster) (r : ℕ)

/-! ## Offsets -/

/-- The base address of the buffer a chunk lies in. -/
def bufferBase (key : BaseKey) : Option ℕ :=
  if key.space = .host then (c.binding r).hostBase key.owner
  else (c.binding r).deviceBase key.space key.owner

def layoutOf (space : ProgressSpace) : LayoutDesc := (c.graph r).runtimeLayout space

/-- `chunk / chunks_per_segment`. -/
def segmentOf (key : BaseKey) : ℕ :=
  key.chunk.toNat / max 1 (c.layoutOf r key.space).chunksPerSegment

/-- Where the active part of a device chunk's segment begins. -/
def segmentStart (key : BaseKey) : ℕ :=
  c.segmentOf r key * (c.layoutOf r key.space).segmentSize + (c.layoutOf r key.space).strideOffset

/-- Where a device chunk begins in the active part of its segment. -/
def inSegment (key : BaseKey) : ℕ :=
  let layout := c.layoutOf r key.space
  if 0 ≤ key.chunk ∧ key.chunk.toNat < layout.chunkOffsets.length then
    layout.chunkOffsets.getD key.chunk.toNat 0
  else key.chunk.toNat % max 1 layout.chunksPerSegment * layout.chunkSize

/-- What `resolve` adds to the base address. -/
def operandOffset (key : BaseKey) (sc : ℕ) (ringBuffered : Bool) : ℕ :=
  if key.space = .host then key.chunk.toNat * c.chunkSize + c.subOffset ringBuffered sc
  else c.segmentStart r key + c.inSegment r key + sc * c.slice

theorem resolve_eq (key : BaseKey) (sc : ℕ) (ringBuffered : Bool) :
    c.resolve r key sc ringBuffered =
      (c.bufferBase r key).map fun base => base + c.operandOffset r key sc ringBuffered := by
  unfold resolve bufferBase operandOffset
  split
  · simp only [Nat.add_assoc]
  · refine congrArg (Option.map · _) (funext fun base => ?_)
    simp only [segmentStart, segmentOf, inSegment, layoutOf, Nat.add_assoc]
    rfl

/-! ## Regions -/

/-- Where the bytes begin that a chunk may use: a host chunk's own, or the active part of a device
chunk's segment. -/
def regionStart (key : BaseKey) : ℕ :=
  if key.space = .host then key.chunk.toNat * c.chunkSize else c.segmentStart r key

def regionLen (key : BaseKey) : ℕ :=
  if key.space = .host then c.chunkSize
  else (c.layoutOf r key.space).segmentSize - (c.layoutOf r key.space).strideOffset

/-- Segments of the user's buffers; host chunks and `INTERNAL` chunks are allocated as they are
needed. -/
def hasSegment (space : ProgressSpace) (seg : ℕ) : Prop :=
  match space with
  | .host | .internal => True
  | .input => seg < max 1 c.graphOptions.legacyLayout.d2hSegments
  | .output | .scratch => seg < max 1 c.graphOptions.legacyLayout.h2dSegments

/-- `bytes` bytes of an operand lie in its region. -/
structure Contained (key : BaseKey) (sc : ℕ) (ringBuffered : Bool) (bytes : ℕ) : Prop where
  chunk_nonneg : 0 ≤ key.chunk
  segment : c.hasSegment key.space (c.segmentOf r key)
  start_le : c.regionStart r key ≤ c.operandOffset r key sc ringBuffered
  le_stop : c.operandOffset r key sc ringBuffered + bytes ≤ c.regionStart r key + c.regionLen r key

/-! ## Subchunks of a node -/

variable {c} {r} {n : InstructionNode} {key : BaseKey}

theorem slice_pos : 0 < c.slice := pcclSubchunkSliceFor_pos c.env c.chunkSize

/-- A subchunk with bytes lies within the node's work. -/
theorem subchunk_le {sc : ℕ} (h : 0 < c.subchunkSize n sc) :
    sc * c.slice + c.subchunkSize n sc ≤ n.workBytes ∧ c.subchunkSize n sc ≤ c.slice := by
  unfold subchunkSize at h ⊢
  split at h
  · exact absurd h (lt_irrefl 0)
  · next hlt =>
    rw [if_neg hlt]
    omega

/-- The last subchunk with bytes ends with the work. -/
theorem exists_last_subchunk (hpos : 0 < n.workBytes) (hle : n.workBytes ≤ c.chunkSize) :
    ∃ sc < c.numSubchunks, 0 < c.subchunkSize n sc ∧
      sc * c.slice + c.subchunkSize n sc = n.workBytes := by
  have hslice := c.slice_pos
  have hdiv := Nat.div_add_mod (n.workBytes - 1) c.slice
  have hmod := Nat.mod_lt (n.workBytes - 1) hslice
  rw [Nat.mul_comm] at hdiv
  refine ⟨(n.workBytes - 1) / c.slice, slice_cover (by omega), ?_⟩
  unfold subchunkSize
  rw [if_neg (by omega)]
  omega

/-- **Host operands stay in their chunk**, ring-buffered or not. -/
theorem contained_host (hspace : key.space = .host) (hchunk : 0 ≤ key.chunk)
    (hle : n.workBytes ≤ c.chunkSize) {sc : ℕ} (hsc : sc < c.numSubchunks)
    (h : 0 < c.subchunkSize n sc) (ringBuffered : Bool) :
    c.Contained r key sc ringBuffered (c.subchunkSize n sc) := by
  obtain ⟨hwork, hbytes⟩ := subchunk_le h
  have hsub : c.subOffset ringBuffered sc + c.subchunkSize n sc ≤ c.chunkSize := by
    unfold subOffset
    split
    · -- the slots fit into a chunk as soon as there are fewer of them than subchunks
      by_cases hslots : c.ringSlots < c.numSubchunks
      · have hpos : 0 < c.ringSlots := Nat.zero_lt_of_lt (two_le_pcclRingSlotsFor c.env)
        have hfit : c.ringSlots * c.slice < c.chunkSize := ring_slots_fit hpos hslots
        have hmod : sc % c.ringSlots + 1 ≤ c.ringSlots := Nat.mod_lt sc hpos
        have hmul := Nat.mul_le_mul_right c.slice hmod
        rw [Nat.add_mul, Nat.one_mul] at hmul
        omega
      · rw [Nat.mod_eq_of_lt (by omega)]
        omega
    · omega
  have hseg : c.hasSegment key.space (c.segmentOf r key) := by
    simp only [hasSegment, hspace]
  refine ⟨hchunk, hseg, ?_, ?_⟩
  · rw [regionStart, operandOffset, if_pos hspace, if_pos hspace]
    omega
  · rw [regionStart, operandOffset, regionLen, if_pos hspace, if_pos hspace, if_pos hspace]
    omega

/-- **Device operands** stay in the active part of their segment just if the segment is one of the
buffer, and the node's work fits from the beginning of the chunk on. -/
theorem contained_device (hspace : key.space ≠ .host) (hpos : 0 < n.workBytes)
    (hle : n.workBytes ≤ c.chunkSize) (ringBuffered : Bool) :
    (∀ sc < c.numSubchunks, 0 < c.subchunkSize n sc →
      c.Contained r key sc ringBuffered (c.subchunkSize n sc)) ↔
    0 ≤ key.chunk ∧ c.hasSegment key.space (c.segmentOf r key) ∧
      c.inSegment r key + n.workBytes ≤
        (c.layoutOf r key.space).segmentSize - (c.layoutOf r key.space).strideOffset := by
  constructor
  · intro h
    obtain ⟨sc, hsc, hbytes, hlast⟩ := exists_last_subchunk hpos hle
    obtain ⟨hchunk, hseg, -, hstop⟩ := h sc hsc hbytes
    rw [regionStart, operandOffset, regionLen, if_neg hspace, if_neg hspace, if_neg hspace] at hstop
    exact ⟨hchunk, hseg, by omega⟩
  · rintro ⟨hchunk, hseg, hfit⟩ sc - hbytes
    obtain ⟨hwork, -⟩ := subchunk_le hbytes
    refine ⟨hchunk, hseg, ?_, ?_⟩
    · rw [regionStart, operandOffset, if_neg hspace, if_neg hspace]
      omega
    · rw [regionStart, operandOffset, regionLen, if_neg hspace, if_neg hspace, if_neg hspace]
      omega

end Cluster

end Executor
end HyLink
