import Mathlib.Algebra.Group.Nat.Defs
import HyLink.Theory.Blocks

/-!
# The host's copy and reduction kernels

`hostMemcpy`, `hostReduce` and their temporal variants for AVX2, AVX-512, NEON and without vector
instructions.  Each has a head that aligns the destination, an unrolled body, a tail of vectors and
a tail of scalars, or some of these.

* `hostMemcpy`, `hostReduce`, … — the kernels, by the instruction set they are compiled for.
* `Filled` — how far a kernel has got.
* `host_kernels` — every kernel does what the scalar loop does, and its aligned stores are aligned.

A memory is made of bytes for the copies and of floats for the reductions, where the float at cell
`p` is at byte address `4 * p`.  No array is so long that `i + 256` would wrap.
-/

namespace HyLink
namespace Hal

open Theory

variable {V : Type}

/-- The memory, and the aligned streaming stores so far, with their byte address and width. -/
structure Host (V : Type) where
  mem : ℕ → V
  streams : List (ℕ × ℕ)

/-- A vector is stored, by `_mm…_stream_ps` or by a store that need not be aligned; `cell` bytes are
in a cell. -/
def Host.put (cell : ℕ) (streaming : Bool) (h : Host V) (a : ℕ) (v : List V) : Host V where
  mem := store h.mem a v
  streams := if streaming then h.streams ++ [(cell * a, cell * v.length)] else h.streams

/-- `std::memcpy` -/
def memcpy (h : Host V) (dst src n : ℕ) : Host V :=
  { h with mem := store h.mem dst (load h.mem src n) }

/-- One turn of an unrolled loop: all vectors are computed before the first is stored. -/
def unrolled (put : Host V → ℕ → List V → Host V) (vec : (ℕ → V) → ℕ → List V) (dst : ℕ)
    (offsets : List ℕ) (i : ℕ) (h : Host V) : Host V :=
  (offsets.map fun o => (o, vec h.mem (i + o))).foldl (fun h p => put h (dst + i + p.1) p.2) h

/-! ## Copies -/

/-- The body and the tail of a copy: 256 bytes a turn in vectors of `width` bytes. -/
def copyFrom (streaming : Bool) (width : ℕ) (offsets : List ℕ) (dst src size i : ℕ) (h : Host V) :
    Host V :=
  let (i, h) := loop 256 size
    (unrolled (Host.put 1 streaming) (fun m i => load m (src + i) width) dst offsets) i h
  if i < size then memcpy h (dst + i) (src + i) (size - i) else h

/-- The AVX copies with streaming stores: the destination is aligned first. -/
def streamingCopy (width : ℕ) (offsets : List ℕ) (dst src size : ℕ) (h : Host V) : Host V :=
  if size < 2048 then memcpy h dst src size
  else
    let alignOffset := (width - (dst &&& (width - 1))) &&& (width - 1)
    let head := if alignOffset < size then alignOffset else size
    if 0 < alignOffset then
      copyFrom true width offsets dst src size head (memcpy h dst src head)
    else copyFrom true width offsets dst src size 0 h

/-- The copies that do not align. -/
def plainCopy (width : ℕ) (offsets : List ℕ) (dst src size : ℕ) (h : Host V) : Host V :=
  if size < 2048 then memcpy h dst src size
  else copyFrom false width offsets dst src size 0 h

namespace Avx256

def hostMemcpyImpl : ℕ → ℕ → ℕ → Host V → Host V :=
  streamingCopy 32 [0, 32, 64, 96, 128, 160, 192, 224]

def hostMemcpyTemporalImpl : ℕ → ℕ → ℕ → Host V → Host V :=
  plainCopy 32 [0, 32, 64, 96, 128, 160, 192, 224]

end Avx256

namespace Avx512

def hostMemcpyImpl : ℕ → ℕ → ℕ → Host V → Host V := streamingCopy 64 [0, 64, 128, 192]

def hostMemcpyTemporalImpl : ℕ → ℕ → ℕ → Host V → Host V := plainCopy 64 [0, 64, 128, 192]

end Avx512

namespace Neon

/-- Pairs of registers, by `ldp` and `stnp`, which need not be aligned. -/
def hostMemcpyImpl : ℕ → ℕ → ℕ → Host V → Host V :=
  plainCopy 32 [0, 32, 64, 96, 128, 160, 192, 224]

/-- The same by `ldnp` and `stp`. -/
def hostMemcpyTemporalImpl : ℕ → ℕ → ℕ → Host V → Host V :=
  plainCopy 32 [0, 32, 64, 96, 128, 160, 192, 224]

end Neon

/-! ## Reductions -/

section Reductions

variable (add : V → V → V)

/-- `dst[i] = src1[i] + src2[i]` -/
def scalarAdd (dst src1 src2 i : ℕ) (h : Host V) : Host V :=
  { h with mem := store h.mem (dst + i) [add (h.mem (src1 + i)) (h.mem (src2 + i))] }

/-- The sum of two vectors of `width` floats. -/
def vectorAdd (width src1 src2 : ℕ) (m : ℕ → V) (i : ℕ) : List V :=
  List.zipWith add (load m (src1 + i) width) (load m (src2 + i) width)

/-- Two sums that one instruction stores. -/
def pairAdd (width src1 src2 : ℕ) (m : ℕ → V) (i : ℕ) : List V :=
  vectorAdd add width src1 src2 m i ++ vectorAdd add width src1 src2 m (i + width)

/-- The loops of a reduction: `step` floats a turn, then a vector of `width`, then a float. -/
def reduceFrom (streaming : Bool) (step : ℕ) (body : ℕ → Host V → Host V) (width : ℕ)
    (dst src1 src2 count i : ℕ) (h : Host V) : Host V :=
  let (i, h) := loop step count body i h
  let (i, h) := loop width count
    (unrolled (Host.put 4 streaming) (vectorAdd add width src1 src2) dst [0]) i h
  (loop 1 count (scalarAdd add dst src1 src2) i h).2

/-- The AVX reductions with streaming stores: the destination is aligned first. -/
def streamingReduce (width : ℕ) (offsets : List ℕ) (dst src1 src2 count : ℕ) (h : Host V) :
    Host V :=
  let alignFloats := (width - (((4 * dst) >>> 2) &&& (width - 1))) &&& (width - 1)
  let head := if alignFloats < count then alignFloats else count
  let body := unrolled (Host.put 4 true) (vectorAdd add width src1 src2) dst offsets
  if 0 < alignFloats then
    reduceFrom add true 64 body width dst src1 src2 count head
      (loop 1 head (scalarAdd add dst src1 src2) 0 h).2
  else reduceFrom add true 64 body width dst src1 src2 count 0 h

/-- The reductions that do not align. -/
def plainReduce (step width : ℕ) (vec : (ℕ → V) → ℕ → List V) (offsets : List ℕ)
    (dst src1 src2 count : ℕ) (h : Host V) : Host V :=
  let body := unrolled (Host.put 4 false) vec dst offsets
  reduceFrom add false step body width dst src1 src2 count 0 h

namespace Avx256

def hostReduceImpl : ℕ → ℕ → ℕ → ℕ → Host V → Host V :=
  streamingReduce add 8 [0, 8, 16, 24, 32, 40, 48, 56]

def hostReduceTemporalImpl (dst src1 src2 : ℕ) : ℕ → Host V → Host V :=
  plainReduce add 64 8 (vectorAdd add 8 src1 src2) [0, 8, 16, 24, 32, 40, 48, 56] dst src1 src2

end Avx256

namespace Avx512

def hostReduceImpl : ℕ → ℕ → ℕ → ℕ → Host V → Host V := streamingReduce add 16 [0, 16, 32, 48]

def hostReduceTemporalImpl (dst src1 src2 : ℕ) : ℕ → Host V → Host V :=
  plainReduce add 64 16 (vectorAdd add 16 src1 src2) [0, 16, 32, 48] dst src1 src2

end Avx512

namespace Neon

/-- `stnp` stores two sums of four floats; the offsets are `#0`, `#32`, `#64` and `#96` bytes. -/
def hostReduceImpl (dst src1 src2 : ℕ) : ℕ → Host V → Host V :=
  plainReduce add 32 4 (pairAdd add 4 src1 src2) [0, 8, 16, 24] dst src1 src2

def hostReduceTemporalImpl (dst src1 src2 : ℕ) : ℕ → Host V → Host V :=
  plainReduce add 32 4 (vectorAdd add 4 src1 src2) [0, 4, 8, 12, 16, 20, 24, 28] dst src1 src2

end Neon

namespace Standard

def hostMemcpyImpl (dst src size : ℕ) (h : Host V) : Host V := memcpy h dst src size

def hostReduceImpl (dst src1 src2 count : ℕ) (h : Host V) : Host V :=
  (loop 1 count (scalarAdd add dst src1 src2) 0 h).2

end Standard

end Reductions

/-! ## The kernels a build has -/

/-- The instruction set `HostTag` stands for. -/
inductive HostTag where
  | avx512
  | avx256
  | neon
  | standard
  deriving DecidableEq, Repr

def hostMemcpy : HostTag → ℕ → ℕ → ℕ → Host V → Host V
  | .avx512 => Avx512.hostMemcpyImpl
  | .avx256 => Avx256.hostMemcpyImpl
  | .neon => Neon.hostMemcpyImpl
  | .standard => Standard.hostMemcpyImpl

def hostMemcpyTemporal : HostTag → ℕ → ℕ → ℕ → Host V → Host V
  | .avx512 => Avx512.hostMemcpyTemporalImpl
  | .avx256 => Avx256.hostMemcpyTemporalImpl
  | .neon => Neon.hostMemcpyTemporalImpl
  | .standard => Standard.hostMemcpyImpl

def hostReduce (add : V → V → V) : HostTag → ℕ → ℕ → ℕ → ℕ → Host V → Host V
  | .avx512 => Avx512.hostReduceImpl add
  | .avx256 => Avx256.hostReduceImpl add
  | .neon => Neon.hostReduceImpl add
  | .standard => Standard.hostReduceImpl add

def hostReduceTemporal (add : V → V → V) : HostTag → ℕ → ℕ → ℕ → ℕ → Host V → Host V
  | .avx512 => Avx512.hostReduceTemporalImpl add
  | .avx256 => Avx256.hostReduceTemporalImpl add
  | .neon => Neon.hostReduceTemporalImpl add
  | .standard => Standard.hostReduceImpl add

/-! ## How far a kernel has got -/

variable {m : ℕ → V} {f : ℕ → V} {vec : (ℕ → V) → ℕ → List V} {streaming : Bool}
  {cell dst src src1 src2 n i c width : ℕ} {h : Host V} {offsets : List ℕ}

/-- The first `i` cells of the destination are done, and the streaming stores were aligned. -/
structure Filled (m f : ℕ → V) (dst n i : ℕ) (h : Host V) : Prop where
  mem : h.mem = fill m dst i f
  le : i ≤ n
  aligned : ∀ p ∈ h.streams, p.2 ∣ p.1

/-- Where the next vector is stored by a streaming store, it is aligned. -/
def Edge (streaming : Bool) (width dst n i : ℕ) : Prop :=
  streaming = true → i = n ∨ width ∣ dst + i

/-- The vectors of a loop, computed before what they depend on is overwritten. -/
def Computes (vec : (ℕ → V) → ℕ → List V) (width : ℕ) (m f : ℕ → V) (dst n : ℕ) : Prop :=
  ∀ i j, i ≤ j → j + width ≤ n → vec (fill m dst i f) j = load f j width

theorem Filled.put (hi : Filled m f dst n i h) (hn : i + width ≤ n)
    (hal : streaming = true → width ∣ dst + i) :
    Filled m f dst n (i + width) (h.put cell streaming (dst + i) (load f i width)) := by
  refine ⟨?_, hn, fun p hp => ?_⟩
  · show store h.mem _ _ = _
    rw [hi.mem]
    exact store_fill
  · unfold Host.put at hp
    cases streaming with
    | false => exact hi.aligned p hp
    | true =>
      rcases List.mem_append.1 hp with hp | hp
      · exact hi.aligned p hp
      · rw [List.mem_singleton.1 hp, length_load]
        exact Nat.mul_dvd_mul_left cell (hal rfl)

/-- **One turn of an unrolled loop** with `c` vectors that follow one another. -/
theorem Filled.unrolled (hi : Filled m f dst n i h) (hvec : Computes vec width m f dst n)
    (hoffsets : offsets = (List.range c).map (· * width)) (hn : i + c * width ≤ n)
    (hal : streaming = true → width ∣ dst + i) :
    Filled m f dst n (i + c * width) (unrolled (Host.put cell streaming) vec dst offsets i h) := by
  have hvals : (offsets.map fun o => (o, vec h.mem (i + o))) =
      (List.range c).map fun k => (k * width, load f (i + k * width) width) := by
    rw [hoffsets, List.map_map]
    apply List.map_congr_left
    intro k hk
    have hle : (k + 1) * width ≤ c * width := Nat.mul_le_mul_right _ (List.mem_range.1 hk)
    rw [Nat.succ_mul] at hle
    show (_, vec h.mem (i + k * width)) = _
    rw [hi.mem, hvec i _ (Nat.le_add_right _ _) (by omega)]
  unfold Hal.unrolled
  rw [hvals]
  clear hvals hoffsets hvec
  -- the vectors are stored one after the other
  induction c with
  | zero => simpa using hi
  | succ c ih =>
    rw [Nat.succ_mul] at hn
    rw [List.range_succ, List.map_append, List.foldl_append, Nat.succ_mul, ← Nat.add_assoc]
    have hdvd : streaming = true → width ∣ dst + (i + c * width) := fun hs => by
      rw [← Nat.add_assoc]
      exact Nat.dvd_add (hal hs) (Nat.dvd_mul_left width c)
    have hput : Filled m f dst n (i + c * width + width) (Host.put cell streaming _
        (dst + (i + c * width)) (load f (i + c * width) width)) :=
      (ih (by omega)).put (by omega) hdvd
    rw [← Nat.add_assoc] at hput
    exact hput

/-- **An unrolled loop** leaves less than a turn. -/
theorem Filled.loop (cell : ℕ) {step : ℕ} (hi : Filled m f dst n i h) (hvec : Computes vec width m f dst n)
    (hoffsets : offsets = (List.range c).map (· * width)) (hstep : step = c * width)
    (hpos : 0 < step) (hedge : Edge streaming width dst n i) :
    let r := Theory.loop step n (Hal.unrolled (Host.put cell streaming) vec dst offsets) i h
    Filled m f dst n r.1 r.2 ∧ Edge streaming width dst n r.1 := by
  refine (loop_rule _ (I := fun i h => Filled m f dst n i h ∧ Edge streaming width dst n i) hpos
    ?_ ⟨hi, hedge⟩).1
  rintro i h ⟨hi, hedge⟩ hn
  have hal : streaming = true → width ∣ dst + i := fun hs =>
    (hedge hs).resolve_left (by omega)
  subst hstep
  refine ⟨hi.unrolled hvec hoffsets hn hal, fun hs => .inr ?_⟩
  rw [← Nat.add_assoc]
  exact Nat.dvd_add (hal hs) (Nat.dvd_mul_left width c)

/-! ## The copies -/

theorem Filled.init (m f : ℕ → V) (dst n : ℕ) : Filled m f dst n 0 ⟨m, []⟩ :=
  ⟨fill_zero.symm, Nat.zero_le n, fun _ hp => absurd hp List.not_mem_nil⟩

/-- The next multiple of the width. -/
theorem dvd_align (hw : 0 < width) (a : ℕ) : width ∣ a + (width - a % width) % width := by
  have hle : a % width ≤ width := (Nat.mod_lt a hw).le
  apply Nat.dvd_of_mod_eq_zero
  calc (a + (width - a % width) % width) % width
      = (a % width + (width - a % width)) % width := by rw [Nat.add_mod_mod, Nat.mod_add_mod]
    _ = width % width := by rw [Nat.add_sub_cancel' hle]
    _ = 0 := Nat.mod_self width

/-- The mask arithmetic of the heads. -/
theorem mask_eq {k : ℕ} (hk : width = 2 ^ k) (a : ℕ) :
    (width - (a &&& (width - 1))) &&& (width - 1) = (width - a % width) % width := by
  rw [hk, Nat.and_two_pow_sub_one_eq_mod, Nat.and_two_pow_sub_one_eq_mod]

/-- What a copy puts into cell `k` of its destination. -/
abbrev copied (m : ℕ → V) (src : ℕ) : ℕ → V := fun k => m (src + k)

theorem load_copied (m : ℕ → V) (src i w : ℕ) : load m (src + i) w = load (copied m src) i w :=
  load_congr fun k _ => by rw [Nat.add_assoc]

theorem computes_copy (hab : Apart dst src n) :
    Computes (fun m i => load m (src + i) width) width m (copied m src) dst n := by
  intro i j hij hj
  show load _ (src + j) width = _
  rw [load_fill hab hij hj, load_copied]

theorem Filled.memcpy (hi : Filled m (copied m src) dst n i h) (hab : Apart dst src n)
    (hn : i + width ≤ n) :
    Filled m (copied m src) dst n (i + width) (memcpy h (dst + i) (src + i) width) := by
  refine ⟨?_, hn, hi.aligned⟩
  show store h.mem _ (load h.mem _ _) = _
  rw [hi.mem, load_fill hab (Nat.le_refl i) hn, load_copied]
  exact store_fill

theorem Filled.copyFrom (hi : Filled m (copied m src) dst n i h) (hab : Apart dst src n)
    (hoffsets : offsets = (List.range c).map (· * width)) (hstep : 256 = c * width)
    (hedge : Edge streaming width dst n i) :
    Filled m (copied m src) dst n n (copyFrom streaming width offsets dst src n i h) := by
  obtain ⟨hfilled, _⟩ := hi.loop 1 (computes_copy hab) hoffsets hstep (by decide) hedge
  unfold Hal.copyFrom
  have hle := hfilled.le
  dsimp only
  split
  · have hlast := hfilled.memcpy hab (Nat.le_of_eq (Nat.add_sub_cancel' hle))
    rwa [Nat.add_sub_cancel' hle] at hlast
  · rename_i hge
    rwa [Nat.le_antisymm hle (Nat.le_of_not_lt hge)] at hfilled

/-- A copy that is not started by a kernel's own loop. -/
theorem filled_memcpy (m : ℕ → V) (hab : Apart dst src n) :
    Filled m (copied m src) dst n n (memcpy ⟨m, []⟩ dst src n) := by
  have hfilled := (Filled.init m (copied m src) dst n).memcpy hab
    (Nat.le_of_eq (Nat.zero_add n))
  rwa [Nat.zero_add] at hfilled

theorem filled_plainCopy (m : ℕ → V) (hab : Apart dst src n)
    (hoffsets : offsets = (List.range c).map (· * width)) (hstep : 256 = c * width) :
    Filled m (copied m src) dst n n (plainCopy width offsets dst src n ⟨m, []⟩) := by
  unfold plainCopy
  split
  · exact filled_memcpy m hab
  · exact (Filled.init m _ dst n).copyFrom hab hoffsets hstep fun h => by cases h

theorem filled_streamingCopy (m : ℕ → V) (hab : Apart dst src n) {k : ℕ} (hk : width = 2 ^ k)
    (hoffsets : offsets = (List.range c).map (· * width)) (hstep : 256 = c * width) :
    Filled m (copied m src) dst n n (streamingCopy width offsets dst src n ⟨m, []⟩) := by
  unfold streamingCopy
  rw [mask_eq hk]
  have hdvd := dvd_align (hk ▸ Nat.two_pow_pos k) dst
  split
  · exact filled_memcpy m hab
  · dsimp only
    generalize (width - dst % width) % width = align at hdvd ⊢
    split
    · -- the head ends at a multiple of the width, or at the end of the array
      have hhead : (if align < n then align else n) ≤ n := by split <;> omega
      have hfilled := (Filled.init m (copied m src) dst n).memcpy hab (i := 0)
        ((Nat.zero_add _).trans_le hhead)
      rw [Nat.zero_add] at hfilled
      refine hfilled.copyFrom hab hoffsets hstep fun _ => ?_
      split
      · exact .inr hdvd
      · exact .inl rfl
    · rename_i hzero
      refine (Filled.init m _ dst n).copyFrom hab hoffsets hstep fun _ => .inr ?_
      rwa [Nat.eq_zero_of_not_pos hzero] at hdvd

/-! ## The reductions -/

/-- What a reduction puts into cell `k` of its destination. -/
abbrev summed (add : V → V → V) (m : ℕ → V) (src1 src2 : ℕ) : ℕ → V := fun k =>
  add (m (src1 + k)) (m (src2 + k))

section Sums

variable {add : V → V → V}

theorem zipWith_load (m : ℕ → V) (i w : ℕ) :
    List.zipWith add (load m (src1 + i) w) (load m (src2 + i) w) =
      load (summed add m src1 src2) i w := by
  unfold load
  rw [List.zipWith_map, List.zipWith_self]
  apply List.map_congr_left
  intro k _
  rw [Nat.add_assoc, Nat.add_assoc]

theorem computes_vectorAdd (h1 : Apart dst src1 n) (h2 : Apart dst src2 n) :
    Computes (vectorAdd add width src1 src2) width m (summed add m src1 src2) dst n := by
  intro i j hij hj
  unfold vectorAdd
  rw [load_fill h1 hij hj, load_fill h2 hij hj, zipWith_load]

theorem computes_pairAdd (h1 : Apart dst src1 n) (h2 : Apart dst src2 n) :
    Computes (pairAdd add width src1 src2) (width + width) m (summed add m src1 src2) dst n := by
  intro i j hij hj
  unfold pairAdd
  rw [computes_vectorAdd h1 h2 i j hij (by omega),
    computes_vectorAdd h1 h2 i (j + width) (by omega) (by omega), load_add]

theorem Filled.scalarAdd (hi : Filled m (summed add m src1 src2) dst n i h)
    (h1 : Apart dst src1 n) (h2 : Apart dst src2 n) (hn : i + 1 ≤ n) :
    Filled m (summed add m src1 src2) dst n (i + 1) (scalarAdd add dst src1 src2 i h) := by
  refine ⟨?_, hn, hi.aligned⟩
  show store h.mem (dst + i) [add (h.mem (src1 + i)) (h.mem (src2 + i))] = _
  rw [hi.mem, fill_apart h1 (Nat.le_refl i) hn, fill_apart h2 (Nat.le_refl i) hn]
  exact store_fill (w := 1)

/-- **The scalar loop**, up to a bound within the array. -/
theorem Filled.scalars {k : ℕ} (hi : Filled m (summed add m src1 src2) dst n i h)
    (h1 : Apart dst src1 n) (h2 : Apart dst src2 n) (hik : i ≤ k) (hk : k ≤ n) :
    Filled m (summed add m src1 src2) dst n k
      (Theory.loop 1 k (Hal.scalarAdd add dst src1 src2) i h).2 := by
  obtain ⟨⟨hfilled, hle⟩, hend⟩ := loop_rule (Hal.scalarAdd add dst src1 src2)
    (I := fun i h => Filled m (summed add m src1 src2) dst n i h ∧ i ≤ k) (n := k) Nat.one_pos
    (fun i h hi hn => ⟨hi.1.scalarAdd h1 h2 (hn.trans hk), hn⟩) ⟨hi, hik⟩
  have heq : (Theory.loop 1 k (Hal.scalarAdd add dst src1 src2) i h).1 = k := by omega
  rwa [heq] at hfilled

theorem Filled.reduceFrom {step w : ℕ} (hi : Filled m (summed add m src1 src2) dst n i h)
    (h1 : Apart dst src1 n) (h2 : Apart dst src2 n)
    (hvec : Computes vec w m (summed add m src1 src2) dst n)
    (hoffsets : offsets = (List.range c).map (· * w)) (hstep : step = c * w) (hpos : 0 < step)
    (hw : 0 < width) (hdvd : width ∣ w) (hedge : Edge streaming w dst n i) :
    Filled m (summed add m src1 src2) dst n n
      (reduceFrom add streaming step (Hal.unrolled (Host.put 4 streaming) vec dst offsets) width
        dst src1 src2 n i h) := by
  obtain ⟨hbody, hedge⟩ := hi.loop 4 hvec hoffsets hstep hpos hedge
  have hedge' : Edge streaming width dst n _ := fun hs => (hedge hs).imp_right (Nat.dvd_trans hdvd)
  obtain ⟨hvector, _⟩ := hbody.loop 4 (computes_vectorAdd h1 h2)
    (by simp : [0] = (List.range 1).map (· * width)) (Nat.one_mul width).symm hw hedge'
  exact hvector.scalars h1 h2 hvector.le (Nat.le_refl n)

theorem filled_plainReduce {step w : ℕ} (m : ℕ → V) (h1 : Apart dst src1 n)
    (h2 : Apart dst src2 n) (hvec : Computes vec w m (summed add m src1 src2) dst n)
    (hoffsets : offsets = (List.range c).map (· * w)) (hstep : step = c * w) (hpos : 0 < step)
    (hw : 0 < width) (hdvd : width ∣ w) :
    Filled m (summed add m src1 src2) dst n n
      (plainReduce add step width vec offsets dst src1 src2 n ⟨m, []⟩) :=
  (Filled.init m _ dst n).reduceFrom h1 h2 hvec hoffsets hstep hpos hw hdvd fun h => by cases h

theorem filled_streamingReduce (m : ℕ → V) (h1 : Apart dst src1 n) (h2 : Apart dst src2 n)
    {k : ℕ} (hk : width = 2 ^ k) (hoffsets : offsets = (List.range c).map (· * width))
    (hstep : 64 = c * width) :
    Filled m (summed add m src1 src2) dst n n
      (streamingReduce add width offsets dst src1 src2 n ⟨m, []⟩) := by
  have hw : 0 < width := hk ▸ Nat.two_pow_pos k
  have hcells : (4 * dst) >>> 2 = dst := by
    rw [Nat.shiftRight_eq_div_pow]
    exact Nat.mul_div_cancel_left dst (by decide)
  unfold streamingReduce
  rw [hcells, mask_eq hk]
  have hdvd := dvd_align hw dst
  dsimp only
  generalize (width - dst % width) % width = align at hdvd ⊢
  split
  · have hhead : (if align < n then align else n) ≤ n := by split <;> omega
    refine ((Filled.init m _ dst n).scalars h1 h2 (Nat.zero_le _) hhead).reduceFrom h1 h2
      (computes_vectorAdd h1 h2) hoffsets hstep (by decide) hw (Nat.dvd_refl width) fun _ => ?_
    split
    · exact .inr hdvd
    · exact .inl rfl
  · rename_i hzero
    refine (Filled.init m _ dst n).reduceFrom h1 h2 (computes_vectorAdd h1 h2) hoffsets hstep
      (by decide) hw (Nat.dvd_refl width) fun _ => .inr ?_
    rwa [Nat.eq_zero_of_not_pos hzero] at hdvd

end Sums

/-! ## Every kernel -/

theorem filled_hostMemcpy (tag : HostTag) (m : ℕ → V) (hab : Apart dst src n) :
    Filled m (copied m src) dst n n (hostMemcpy tag dst src n ⟨m, []⟩) := by
  cases tag with
  | avx512 => exact filled_streamingCopy m hab (k := 6) (c := 4) rfl rfl rfl
  | avx256 => exact filled_streamingCopy m hab (k := 5) (c := 8) rfl rfl rfl
  | neon => exact filled_plainCopy m hab (c := 8) rfl rfl
  | standard => exact filled_memcpy m hab

theorem filled_hostMemcpyTemporal (tag : HostTag) (m : ℕ → V) (hab : Apart dst src n) :
    Filled m (copied m src) dst n n (hostMemcpyTemporal tag dst src n ⟨m, []⟩) := by
  cases tag with
  | avx512 => exact filled_plainCopy m hab (c := 4) rfl rfl
  | avx256 => exact filled_plainCopy m hab (c := 8) rfl rfl
  | neon => exact filled_plainCopy m hab (c := 8) rfl rfl
  | standard => exact filled_memcpy m hab

variable (add : V → V → V)

theorem filled_standardReduce (m : ℕ → V) (h1 : Apart dst src1 n) (h2 : Apart dst src2 n) :
    Filled m (summed add m src1 src2) dst n n
      (Standard.hostReduceImpl add dst src1 src2 n ⟨m, []⟩) :=
  (Filled.init m _ dst n).scalars h1 h2 (Nat.zero_le n) (Nat.le_refl n)

theorem filled_hostReduce (tag : HostTag) (m : ℕ → V) (h1 : Apart dst src1 n)
    (h2 : Apart dst src2 n) :
    Filled m (summed add m src1 src2) dst n n (hostReduce add tag dst src1 src2 n ⟨m, []⟩) := by
  cases tag with
  | avx512 => exact filled_streamingReduce m h1 h2 (k := 4) (c := 4) rfl rfl rfl
  | avx256 => exact filled_streamingReduce m h1 h2 (k := 3) (c := 8) rfl rfl rfl
  | neon =>
    exact filled_plainReduce m h1 h2 (computes_pairAdd h1 h2) (c := 4) rfl rfl (by decide)
      (by decide) (by decide)
  | standard => exact filled_standardReduce add m h1 h2

theorem filled_hostReduceTemporal (tag : HostTag) (m : ℕ → V) (h1 : Apart dst src1 n)
    (h2 : Apart dst src2 n) :
    Filled m (summed add m src1 src2) dst n n
      (hostReduceTemporal add tag dst src1 src2 n ⟨m, []⟩) := by
  cases tag with
  | avx512 =>
    exact filled_plainReduce m h1 h2 (computes_vectorAdd h1 h2) (c := 4) rfl rfl (by decide)
      (by decide) (by decide)
  | avx256 =>
    exact filled_plainReduce m h1 h2 (computes_vectorAdd h1 h2) (c := 8) rfl rfl (by decide)
      (by decide) (by decide)
  | neon =>
    exact filled_plainReduce m h1 h2 (computes_vectorAdd h1 h2) (c := 8) rfl rfl (by decide)
      (by decide) (by decide)
  | standard => exact filled_standardReduce add m h1 h2

/-- The cells `0, …, n - 1` of the destination are `f`'s, everything else is as before, and each
aligned streaming store was at a multiple of its width. -/
structure Writes (m f : ℕ → V) (dst n : ℕ) (h : Host V) : Prop where
  cells : ∀ k < n, h.mem (dst + k) = f k
  rest : ∀ a, a < dst ∨ dst + n ≤ a → h.mem a = m a
  aligned : ∀ p ∈ h.streams, p.2 ∣ p.1

theorem Filled.writes (h' : Filled m f dst n n h) : Writes m f dst n h := by
  refine ⟨fun k hk => ?_, fun a ha => ?_, h'.aligned⟩
  · rw [h'.mem, fill_add hk]
  · rw [h'.mem, fill_of_not ha]

/-- **The vector kernels are the scalar ones.**  For every destination and length, where a source is
the destination's array or a disjoint one, a copy leaves `src[k]` and a reduction
`src1[k] + src2[k]` in the cells of the destination and changes nothing else, as the kernels without
vector instructions do, and the aligned stores are aligned. -/
theorem host_kernels (tag : HostTag) (m : ℕ → V) (dst src src1 src2 n : ℕ) :
    (Apart dst src n →
      Writes m (fun k => m (src + k)) dst n (hostMemcpy tag dst src n ⟨m, []⟩) ∧
      Writes m (fun k => m (src + k)) dst n (hostMemcpyTemporal tag dst src n ⟨m, []⟩) ∧
      (hostMemcpy tag dst src n ⟨m, []⟩).mem = (Standard.hostMemcpyImpl dst src n ⟨m, []⟩).mem ∧
      (hostMemcpyTemporal tag dst src n ⟨m, []⟩).mem =
        (Standard.hostMemcpyImpl dst src n ⟨m, []⟩).mem) ∧
    (Apart dst src1 n → Apart dst src2 n →
      Writes m (fun k => add (m (src1 + k)) (m (src2 + k))) dst n
        (hostReduce add tag dst src1 src2 n ⟨m, []⟩) ∧
      Writes m (fun k => add (m (src1 + k)) (m (src2 + k))) dst n
        (hostReduceTemporal add tag dst src1 src2 n ⟨m, []⟩) ∧
      (hostReduce add tag dst src1 src2 n ⟨m, []⟩).mem =
        (Standard.hostReduceImpl add dst src1 src2 n ⟨m, []⟩).mem ∧
      (hostReduceTemporal add tag dst src1 src2 n ⟨m, []⟩).mem =
        (Standard.hostReduceImpl add dst src1 src2 n ⟨m, []⟩).mem) := by
  constructor
  · intro hab
    have hcopy := filled_hostMemcpy tag m hab
    have htemporal := filled_hostMemcpyTemporal tag m hab
    have hscalar := filled_memcpy m hab
    exact ⟨hcopy.writes, htemporal.writes, hcopy.mem.trans hscalar.mem.symm,
      htemporal.mem.trans hscalar.mem.symm⟩
  · intro h1 h2
    have hreduce := filled_hostReduce add tag m h1 h2
    have htemporal := filled_hostReduceTemporal add tag m h1 h2
    have hscalar := filled_standardReduce add m h1 h2
    exact ⟨hreduce.writes, htemporal.writes, hreduce.mem.trans hscalar.mem.symm,
      htemporal.mem.trans hscalar.mem.symm⟩

/-- An array added to in place, with a head, a turn and both tails, and a copy beside it. -/
theorem host_kernels_in_place :
    Writes id (fun k => (3 + k) + (500 + k)) 3 150
        (hostReduce (· + ·) .avx256 3 3 500 150 ⟨id, []⟩) ∧
      Writes id (fun k => 9000 + k) 5 3000 (hostMemcpy .avx512 5 9000 3000 ⟨id, []⟩) :=
  ⟨((host_kernels (· + ·) .avx256 id 3 3 3 500 150).2 (by decide) (by decide)).1,
    ((host_kernels (· + ·) .avx512 id 5 9000 5 5 3000).1 (by decide)).1⟩

end Hal
end HyLink
