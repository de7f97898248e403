import Mathlib.Data.Nat.Basic
import Mathlib.Data.Nat.Notation
import Mathlib.Tactic.Ring
import HyLink.Ir.Program

/-!
# Slices, subchunks and ring slots

Every transfer is cut into **subchunks** of one slice each; the slice size is a
function of the graph's chunk size, so that the compiler, the executors and the
H2H engine always agree on it.  Ring-buffered host chunks keep only a few
slice-sized slots.

* `pcclSubchunkSliceFor_pos` — a slice is never empty.
* `numSubchunks_pos` — a graph has at least one subchunk.
* `ring_slots_fit` — a chunk with more subchunks than slots is longer than all
  its slots together.
* `slice_cover` — the subchunks of a chunk cover it.
-/

namespace HyLink
namespace Ir

/-- The environment variables the modelled code reads, already parsed.  They are
process-wide constants. -/
structure Env where
  /-- `PCCL_SUBCHUNK_SLICE_SIZE`, where it is set to a number. -/
  subchunkSliceSize : Option ℕ := none
  /-- `PCCL_HOST_RING_SLOTS`, where it is set. -/
  hostRingSlots : Option ℤ := none
  /-- `PCCL_D2D_PUSH`: remote copies run on the source rank. -/
  d2dPush : Bool := true
  /-- `PCCL_D2D_INPUT_FIRST`, where it is set. -/
  d2dInputFirst : Option Bool := none
  /-- The diagnostic switch that publishes device transfers without issuing
  them. -/
  skipDma : Bool := false
  deriving DecidableEq, Repr

/-- The forced slice size; `0` when it is not set or below a page. -/
def Env.forcedSlice (env : Env) : ℕ :=
  match env.subchunkSliceSize with
  | none => 0
  | some parsed => if parsed < 4096 then 0 else parsed

/-- `while (s * 2 <= target && s * 2 <= hi) s *= 2`, for at most `fuel`
rounds. -/
def growSlice (target hi : ℕ) : ℕ → ℕ → ℕ
  | 0, s => s
  | fuel + 1, s => if s * 2 ≤ target ∧ s * 2 ≤ hi then growSlice target hi fuel (s * 2) else s

/-- Subchunk slice size for a graph with the given chunk size. -/
def pcclSubchunkSliceFor (env : Env) (chunkSize : ℕ) : ℕ :=
  if env.forcedSlice ≠ 0 then env.forcedSlice
  else
    -- from 512 KiB, five doublings pass both upper bounds
    let s := growSlice (chunkSize / 8) (4 * 2 ^ 20) 5 (512 * 2 ^ 10)
    if 512 * 2 ^ 20 ≤ chunkSize then growSlice (chunkSize / 64) (16 * 2 ^ 20) 5 s else s

def pcclHostRingSlots (env : Env) : ℕ :=
  match env.hostRingSlots with
  | none => 3
  | some v => if 2 ≤ v then v.toNat else 0

/-- Slot count of every ring-buffered host chunk. -/
def pcclRingSlotsFor (env : Env) : ℕ :=
  if 2 ≤ pcclHostRingSlots env then pcclHostRingSlots env else doubleBufferSlots

/-- Number of subchunks of a chunk; an empty chunk has one. -/
def numSubchunksFor (env : Env) (chunkSize : ℕ) : ℕ :=
  let slice := pcclSubchunkSliceFor env chunkSize
  let n := (chunkSize + slice - 1) / slice
  if n = 0 then 1 else n

/-! ## Slice arithmetic -/

theorem growSlice_ge (target hi : ℕ) : ∀ fuel s, s ≤ growSlice target hi fuel s := by
  intro fuel
  induction fuel with
  | zero => intro s; exact le_rfl
  | succ fuel ih =>
    intro s
    rw [growSlice]
    split
    · exact le_trans (by omega) (ih (s * 2))
    · exact le_rfl

theorem pcclSubchunkSliceFor_pos (env : Env) (chunkSize : ℕ) :
    0 < pcclSubchunkSliceFor env chunkSize := by
  have h1 := growSlice_ge (chunkSize / 8) (4 * 2 ^ 20) 5 (512 * 2 ^ 10)
  have h2 := growSlice_ge (chunkSize / 64) (16 * 2 ^ 20) 5
    (growSlice (chunkSize / 8) (4 * 2 ^ 20) 5 (512 * 2 ^ 10))
  rw [pcclSubchunkSliceFor]
  split
  · omega
  · dsimp only
    split <;> omega

theorem two_le_pcclRingSlotsFor (env : Env) : 2 ≤ pcclRingSlotsFor env := by
  rw [pcclRingSlotsFor]
  split
  · assumption
  · exact le_rfl

theorem numSubchunksFor_pos (env : Env) (chunkSize : ℕ) : 0 < numSubchunksFor env chunkSize := by
  simp only [numSubchunksFor]
  split
  · exact Nat.one_pos
  · exact Nat.pos_of_ne_zero ‹_›

/-- Every byte of a chunk lies in one of its subchunks. -/
theorem slice_cover {env : Env} {chunkSize x : ℕ} (hx : x < chunkSize) :
    x / pcclSubchunkSliceFor env chunkSize < numSubchunksFor env chunkSize := by
  have hpos := pcclSubchunkSliceFor_pos env chunkSize
  simp only [numSubchunksFor]
  generalize pcclSubchunkSliceFor env chunkSize = slice at hpos ⊢
  have hlt : x / slice < (chunkSize + slice - 1) / slice := by
    rw [Nat.div_lt_iff_lt_mul hpos]
    have h := Nat.lt_div_mul_add (a := chunkSize + slice - 1) hpos
    omega
  split
  · next h0 => rw [h0] at hlt; exact absurd hlt (Nat.not_lt_zero _)
  · exact hlt

/-- The subchunks before the last one are full: they end inside the chunk. -/
theorem slice_inside {env : Env} {chunkSize sc : ℕ}
    (h : sc + 1 < numSubchunksFor env chunkSize) :
    (sc + 1) * pcclSubchunkSliceFor env chunkSize < chunkSize := by
  have hpos := pcclSubchunkSliceFor_pos env chunkSize
  simp only [numSubchunksFor] at h
  generalize pcclSubchunkSliceFor env chunkSize = slice at hpos h ⊢
  have hlt : sc + 1 < (chunkSize + slice - 1) / slice := by
    split at h
    · omega
    · exact h
  have hmul : (sc + 2) * slice ≤ chunkSize + slice - 1 :=
    (Nat.le_div_iff_mul_le hpos).1 (by omega)
  have : (sc + 2) * slice = (sc + 1) * slice + slice := by ring
  omega

/-- A chunk with more subchunks than ring slots is longer than all the slots
together, so that no slot reaches past the chunk. -/
theorem ring_slots_fit {env : Env} {chunkSize slots : ℕ} (hslots : 0 < slots)
    (h : slots < numSubchunksFor env chunkSize) :
    slots * pcclSubchunkSliceFor env chunkSize < chunkSize := by
  obtain ⟨k, rfl⟩ : ∃ k, slots = k + 1 := ⟨slots - 1, by omega⟩
  exact slice_inside h

end Ir
end HyLink
