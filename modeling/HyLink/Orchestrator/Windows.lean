import HyLink.Orchestrator.Split

/-!
# A window of every segment

Each part of a split collective computes the same window of every segment of the output.

* `wants` — the operation that computes the window `[lo, hi)` of the segments of a list.
* `LibCall.…_writer` — every call of the collectives is such an operation.
* `wants_within` — it touches only its window of the user's buffers.
* `strip` — copies of equal size one after the other.
-/

namespace HyLink
namespace Orchestrator
namespace Split

open Theory
open Streams (Kind)

/-- The number of segments of the send buffer. -/
def sendSegs (c : Comm) : Kind → ℕ
  | .allReduce | .allGather => 1
  | .reduceScatter | .allToAll => c.nranks

/-- The number of segments of the receive buffer. -/
def recvSegs (c : Comm) : Kind → ℕ
  | .allReduce | .reduceScatter => 1
  | .allGather | .allToAll => c.nranks

def reduces : Kind → Bool
  | .allReduce | .reduceScatter => true
  | .allGather | .allToAll => false

/-- The segment of the send buffers that rank `r` gets. -/
def sourceSeg (r : ℕ) : Kind → ℕ
  | .allReduce | .allGather => 0
  | .reduceScatter | .allToAll => r

section Want

variable (c : Comm) (kind : Kind) (send recv : ℕ → ℕ) (t : ℕ)

/-- Byte `i` of segment `j` of the output of rank `r`; segments have `t` bytes. -/
def want (w : Memories UInt8) (r j i : ℕ) : UInt8 :=
  if reduces kind then
    c.reduceOp (fun p k => w p (send p + (sourceSeg r kind * t + (i / c.es * c.es + k)))) (i % c.es)
  else w j (send j + (sourceSeg r kind * t + i))

/-- The window `[lo, hi)` of the segments `segs r` of every rank `r`. -/
def wants (lo hi : ℕ) (segs : ℕ → List ℕ) : Writer UInt8 := fun r =>
  if r < c.nranks then
    (segs r).map fun j => ⟨recv r + (j * t + lo), hi - lo, fun w i => want c kind send t w r j (lo + i)⟩
  else []

/-- The window of all segments. -/
def wantsAll (lo hi : ℕ) : Writer UInt8 :=
  wants c kind send recv t lo hi fun _ => List.range (recvSegs c kind)

/-- The window of the segments of the user's buffers. -/
def Part (lo hi r a : ℕ) : Prop :=
  r < c.nranks ∧ ∃ j i, lo ≤ i ∧ i < hi ∧
    (j < sendSegs c kind ∧ a = send r + (j * t + i) ∨ j < recvSegs c kind ∧ a = recv r + (j * t + i))

/-- The buffers do not overlap, or one starts at a segment of the other. -/
def Layout : Prop := ∀ r < c.nranks,
  Apart (send r) (sendSegs c kind * t) (recv r) (recvSegs c kind * t) ∨
    ∃ m, send r = recv r + m * t ∨ recv r = send r + m * t

end Want

variable {c : Comm} {kind : Kind} {send recv : ℕ → ℕ} {t lo hi r a : ℕ} {segs : ℕ → List ℕ}
  {w w' : Memories UInt8}

/-! ## What the window holds -/

theorem wants_mem {s : Segment UInt8} (h : s ∈ wants c kind send recv t lo hi segs r) :
    r < c.nranks ∧ ∃ j ∈ segs r, s =
      ⟨recv r + (j * t + lo), hi - lo, fun w i => want c kind send t w r j (lo + i)⟩ := by
  unfold wants at h
  split at h
  · rename_i hr
    obtain ⟨j, hj, rfl⟩ := List.mem_map.1 h
    exact ⟨hr, j, hj, rfl⟩
  · exact absurd h List.not_mem_nil

theorem wants_apply_mem {j i : ℕ} (hr : r < c.nranks) (hj : j ∈ segs r) (hlo : lo ≤ i) (hi' : i < hi)
    (ht : hi ≤ t) (w : Memories UInt8) :
    (wants c kind send recv t lo hi segs).apply w r (recv r + (j * t + i)) =
      want c kind send t w r j i := by
  have hcov : ∃ s ∈ wants c kind send recv t lo hi segs r,
      s.covers (recv r + (j * t + i)) = true := by
    unfold wants
    rw [if_pos hr]
    refine ⟨_, List.mem_map.2 ⟨j, hj, rfl⟩, Segment.covers_iff.2 ?_⟩
    show recv r + (j * t + lo) ≤ _ ∧ _ < recv r + (j * t + lo) + (hi - lo)
    omega
  obtain ⟨s, hs, hcov, hval⟩ := Writer.apply_of_covers hcov
  obtain ⟨_, k, _, rfl⟩ := wants_mem hs
  rw [Segment.covers_iff] at hcov
  dsimp only at hcov
  rw [hval]
  dsimp only
  obtain ⟨x, hx⟩ : ∃ x, j * t + i = k * t + (lo + x) := ⟨j * t + i - (k * t + lo), by omega⟩
  obtain ⟨rfl, rfl⟩ := step_unique (by omega) (by omega) hx
  rw [show recv r + (j * t + (lo + x)) - (recv r + (j * t + lo)) = x by omega]

/-- The operation leaves everything that is not in its window. -/
theorem wants_apply_not (h : ∀ j ∈ segs r, ∀ i, lo ≤ i → i < hi → a ≠ recv r + (j * t + i))
    (w : Memories UInt8) : (wants c kind send recv t lo hi segs).apply w r a = w r a := by
  apply Writer.apply_of_not_covers
  intro s hs
  obtain ⟨_, j, hj, rfl⟩ := wants_mem hs
  rw [Bool.eq_false_iff, Ne, Segment.covers_iff]
  rintro ⟨hle, hlt⟩
  dsimp only at hle hlt
  exact h j hj (a - (recv r + j * t)) (by omega) (by omega) (by omega)

theorem wants_apply_not_mem {j i : ℕ} (hj : j ∉ segs r) (hi' : i < t) (ht : hi ≤ t)
    (w : Memories UInt8) :
    (wants c kind send recv t lo hi segs).apply w r (recv r + (j * t + i)) =
      w r (recv r + (j * t + i)) := by
  apply wants_apply_not
  intro k hk x _ hx heq
  obtain ⟨rfl, _⟩ := step_unique hi' (by omega) (show j * t + i = k * t + x by omega)
  exact hj hk

theorem wants_apply_rank (hr : ¬ r < c.nranks) (w : Memories UInt8) :
    (wants c kind send recv t lo hi segs).apply w r a = w r a := by
  apply Writer.apply_of_not_covers
  intro s hs
  exact absurd (wants_mem hs).1 hr

theorem wantsAll_apply {j i : ℕ} (hr : r < c.nranks) (hj : j < recvSegs c kind) (hlo : lo ≤ i)
    (hi' : i < hi) (ht : hi ≤ t) (w : Memories UInt8) :
    (wantsAll c kind send recv t lo hi).apply w r (recv r + (j * t + i)) =
      want c kind send t w r j i := by
  have hmem : j ∈ (fun _ : ℕ => List.range (recvSegs c kind)) r := List.mem_range.2 hj
  exact wants_apply_mem hr hmem hlo hi' ht w

theorem wantsAll_apply_not
    (h : ∀ j < recvSegs c kind, ∀ i, lo ≤ i → i < hi → a ≠ recv r + (j * t + i))
    (w : Memories UInt8) : (wantsAll c kind send recv t lo hi).apply w r a = w r a := by
  unfold wantsAll
  exact wants_apply_not (fun j hj => h j (List.mem_range.1 hj)) w

theorem wantsAll_apply_rank (hr : ¬ r < c.nranks) (w : Memories UInt8) :
    (wantsAll c kind send recv t lo hi).apply w r a = w r a :=
  wants_apply_rank hr w

/-- Windows that do not start before they end are empty. -/
theorem wants_empty (w : Memories UInt8) :
    (wants c kind send recv t lo lo segs).apply w = w := by
  funext r a
  apply wants_apply_not
  intro j _ i hlo hi'
  omega

theorem sourceSeg_lt (hr : r < c.nranks) : sourceSeg r kind < sendSegs c kind := by
  cases kind <;> first | exact Nat.one_pos | exact hr

/-- An element of the window is in the window. -/
theorem element_in_window {es i k : ℕ} (hlo : es ∣ lo) (hhi : es ∣ hi) (hli : lo ≤ i) (hih : i < hi)
    (hk : k < es) : lo ≤ i / es * es + k ∧ i / es * es + k < hi := by
  have hes : 0 < es := Nat.lt_of_le_of_lt (Nat.zero_le _) hk
  obtain ⟨x, rfl⟩ := hlo
  obtain ⟨y, rfl⟩ := hhi
  have hx : x ≤ i / es := (Nat.le_div_iff_mul_le hes).2 (by rwa [Nat.mul_comm])
  have hy : i / es < y := (Nat.div_lt_iff_lt_mul hes).2 (by rwa [Nat.mul_comm])
  have hle := Nat.mul_le_mul_right es hx
  have hlt : i / es * es + es ≤ y * es := step_le hy
  rw [Nat.mul_comm es x, Nat.mul_comm es y]
  omega

theorem recvSegs_of_not_reduces (h : reduces kind = false) : recvSegs c kind = c.nranks := by
  cases kind <;> first | rfl | cases h

theorem recvSegs_of_reduces (h : reduces kind = true) : recvSegs c kind = 1 := by
  cases kind <;> first | rfl | cases h

/-- What the output gets depends only on the same window of the send buffers. -/
theorem want_congr {j i : ℕ} (hj : j < recvSegs c kind) (hlo : c.es ∣ lo)
    (hhi : c.es ∣ hi) (hli : lo ≤ i) (hih : i < hi)
    (heq : ∀ p < c.nranks, ∀ x, lo ≤ x → x < hi →
      w p (send p + (sourceSeg r kind * t + x)) = w' p (send p + (sourceSeg r kind * t + x))) :
    want c kind send t w r j i = want c kind send t w' r j i := by
  unfold want
  split
  · congr 1
    funext p k
    obtain ⟨hl, hh⟩ := element_in_window hlo hhi hli hih k.isLt
    exact heq p p.isLt _ hl hh
  · rename_i hred
    rw [recvSegs_of_not_reduces (Bool.eq_false_iff.2 hred)] at hj
    exact heq j hj i hli hih

theorem wants_within (hlo : c.es ∣ lo) (hhi : c.es ∣ hi)
    (hsegs : ∀ r < c.nranks, ∀ j ∈ segs r, j < recvSegs c kind) :
    (wants c kind send recv t lo hi segs).Within (Part c kind send recv t lo hi) := by
  refine ⟨fun r s hs i hi' => ?_, fun r s hs => ?_⟩
  · obtain ⟨hr, j, hj, rfl⟩ := wants_mem hs
    dsimp only at hi' ⊢
    exact ⟨hr, j, lo + i, by omega, by omega, .inr ⟨hsegs r hr j hj, by omega⟩⟩
  · obtain ⟨hr, j, hj, rfl⟩ := wants_mem hs
    intro i hi' w w' heq
    dsimp only at hi' ⊢
    refine want_congr (hsegs r hr j hj) hlo hhi (Nat.le_add_right _ _) (by omega) ?_
    intro p hp x hx hx'
    exact heq p _ ⟨hp, _, x, hx, hx', .inl ⟨sourceSeg_lt hr, rfl⟩⟩

theorem wantsAll_within (hlo : c.es ∣ lo) (hhi : c.es ∣ hi) :
    (wantsAll c kind send recv t lo hi).Within (Part c kind send recv t lo hi) :=
  wants_within hlo hhi fun _ _ _ hj => List.mem_range.1 hj

/-- Windows that do not overlap have no address in common, also in place. -/
theorem part_disjoint {lo' hi' : ℕ} (hlayout : Layout c kind send recv t) (h : hi ≤ lo') (ht : hi' ≤ t)
    (hp : Part c kind send recv t lo hi r a) : ¬ Part c kind send recv t lo' hi' r a := by
  rintro ⟨_, j', i', hlo', hhi', ha'⟩
  obtain ⟨hr, j, i, hlo, hhi, ha⟩ := hp
  have hne : ∀ x y, x * t + i ≠ y * t + i' := by
    intro x y heq
    have := (step_unique (by omega) (by omega) heq).2
    omega
  have hshift : ∀ m x y, x * t + i ≠ m * t + (y * t + i') := by
    intro m x y heq
    refine hne x (m + y) ?_
    rw [Nat.add_mul]
    omega
  have hshift' : ∀ m x y, m * t + (x * t + i) ≠ y * t + i' := by
    intro m x y heq
    refine hne (m + x) y ?_
    rw [Nat.add_mul]
    omega
  rcases ha with ⟨hj, rfl⟩ | ⟨hj, rfl⟩ <;> rcases ha' with ⟨hj', ha'⟩ | ⟨hj', ha'⟩
  · exact hne j j' (by omega)
  · rcases hlayout r hr with hapart | ⟨m, hm | hm⟩
    · have := step_le (t := t) hj
      have := step_le (t := t) hj'
      unfold Apart at hapart
      omega
    · exact hshift' m j j' (by omega)
    · exact hshift m j j' (by omega)
  · rcases hlayout r hr with hapart | ⟨m, hm | hm⟩
    · have := step_le (t := t) hj
      have := step_le (t := t) hj'
      unfold Apart at hapart
      omega
    · exact hshift m j j' (by omega)
    · exact hshift' m j j' (by omega)
  · exact hne j j' (by omega)

/-- **The two windows together.**  The window behind the one that is already computed. -/
theorem wantsAll_wantsAll {f : ℕ} (hlayout : Layout c kind send recv t) (hf : f ≤ t)
    (hdvd : c.es ∣ f) (hdvd' : c.es ∣ t) (w : Memories UInt8) :
    (wantsAll c kind send recv t f t).apply ((wantsAll c kind send recv t 0 f).apply w) =
      (wantsAll c kind send recv t 0 t).apply w := by
  funext r a
  by_cases hr : r < c.nranks
  · by_cases ha : ∃ j < recvSegs c kind, ∃ i < t, a = recv r + (j * t + i)
    · obtain ⟨j, hj, i, hi', rfl⟩ := ha
      rw [wantsAll_apply hr hj (Nat.zero_le i) hi' (Nat.le_refl t)]
      by_cases hif : i < f
      · rw [wantsAll_apply_not, wantsAll_apply hr hj (Nat.zero_le i) hif hf]
        intro k _ x hx hx' heq
        have := (step_unique hi' hx' (show j * t + i = k * t + x by omega)).2
        omega
      · rw [wantsAll_apply hr hj (Nat.le_of_not_lt hif) hi' (Nat.le_refl t)]
        refine want_congr hj hdvd hdvd' (Nat.le_of_not_lt hif) hi' fun p hp x hx hx' => ?_
        have hfirst : (wantsAll c kind send recv t 0 f).Within (Part c kind send recv t 0 f) :=
          wantsAll_within (Nat.dvd_zero _) hdvd
        apply hfirst.apply_of_not
        intro hpart
        exact part_disjoint hlayout (Nat.le_refl f) (Nat.le_refl t) hpart
          ⟨hp, _, x, hx, hx', .inl ⟨sourceSeg_lt hr, rfl⟩⟩
    · have hno : ∀ lo hi, hi ≤ t → ∀ w : Memories UInt8,
          (wantsAll c kind send recv t lo hi).apply w r a = w r a := by
        intro lo hi hle w
        apply wantsAll_apply_not
        intro j hj i _ hi' heq
        exact ha ⟨j, hj, i, by omega, heq⟩
      rw [hno _ _ (Nat.le_refl t), hno _ _ hf, hno _ _ (Nat.le_refl t)]
  · rw [wantsAll_apply_rank hr, wantsAll_apply_rank hr, wantsAll_apply_rank hr]

/-! ## The calls as windows -/

theorem segment_eq {d d' l l' : ℕ} {v v' : Memories UInt8 → ℕ → UInt8} (hd : d = d') (hl : l = l')
    (hv : ∀ w i, v w i = v' w i) : (⟨d, l, v⟩ : Segment UInt8) = ⟨d', l', v'⟩ := by
  subst hd hl
  rw [show v = v' from funext fun w => funext fun i => hv w i]

/-- Copies from the send buffers of the ranks. -/
theorem wants_eq_copies {dst src : ℕ → ℕ → ℕ} {len : ℕ} (hkind : reduces kind = false)
    (hdst : ∀ r j, dst r j = recv r + (j * t + lo))
    (hsrc : ∀ r j, src r j = send j + (sourceSeg r kind * t + lo)) (hlen : len = hi - lo) :
    (fun r => if r < c.nranks then (segs r).map fun j => copyTo (dst r j) j (src r j) len else []) =
      wants c kind send recv t lo hi segs := by
  funext r
  unfold wants
  split
  · refine List.map_congr_left fun j _ => segment_eq (hdst r j) hlen fun w i => ?_
    unfold want
    rw [hkind, hsrc, Nat.add_assoc, Nat.add_assoc]
    rfl
  · rfl

/-- The elements of all ranks, reduced. -/
theorem wants_eq_reduce {dst : ℕ → ℕ} {src : ℕ → ℕ → ℕ} {len : ℕ} (hes : 0 < c.es)
    (hkind : reduces kind = true) (hlo : c.es ∣ lo) (hdst : ∀ r, dst r = recv r + lo)
    (hsrc : ∀ r p, src r p = send p + (sourceSeg r kind * t + lo)) (hlen : len = hi - lo) :
    (fun r => if r < c.nranks then [reduceTo c (dst r) (src r) len] else []) =
      wantsAll c kind send recv t lo hi := by
  funext r
  unfold wantsAll wants
  split
  · rw [recvSegs_of_reduces hkind]
    refine congrArg (· :: []) (segment_eq ?_ hlen fun w i => ?_)
    · rw [hdst, Nat.zero_mul, Nat.zero_add]
    · dsimp only
      unfold want
      rw [hkind, if_pos rfl]
      obtain ⟨x, rfl⟩ := hlo
      rw [Nat.mul_add_mod, Nat.mul_add_div hes]
      congr 1
      funext p k
      rw [hsrc, Nat.add_mul, Nat.mul_comm c.es x]
      congr 1
      omega
  · rfl

/-! ## Copies of equal size -/

/-- The first `m` copies of `len` bytes, from steps of length `s'` to steps of length `s`. -/
def strip (c : Comm) (m : ℕ) (dst : ℕ → ℕ) (s : ℕ) (src : ℕ → ℕ) (s' len : ℕ) : Writer UInt8 :=
  fun r =>
    if r < c.nranks then
      (List.range m).map fun j => copyTo (dst r + j * s) r (src r + j * s') len
    else []

section Strip

variable {m s s' len : ℕ} {dst src : ℕ → ℕ}

theorem strip_mem {x : Segment UInt8} (h : x ∈ strip c m dst s src s' len r) :
    r < c.nranks ∧ ∃ j < m, x = copyTo (dst r + j * s) r (src r + j * s') len := by
  unfold strip at h
  split at h
  · rename_i hr
    obtain ⟨j, hj, rfl⟩ := List.mem_map.1 h
    exact ⟨hr, j, List.mem_range.1 hj, rfl⟩
  · exact absurd h List.not_mem_nil

theorem strip_apply {j i : ℕ} (hr : r < c.nranks) (hj : j < m) (hi' : i < len) (hs : len ≤ s)
    (w : Memories UInt8) :
    (strip c m dst s src s' len).apply w r (dst r + (j * s + i)) = w r (src r + (j * s' + i)) := by
  have hcov : ∃ x ∈ strip c m dst s src s' len r, x.covers (dst r + (j * s + i)) = true := by
    unfold strip
    rw [if_pos hr]
    refine ⟨_, List.mem_map.2 ⟨j, List.mem_range.2 hj, rfl⟩, Segment.covers_iff.2 ?_⟩
    show dst r + j * s ≤ _ ∧ _ < dst r + j * s + len
    omega
  obtain ⟨x, hx, hcov, hval⟩ := Writer.apply_of_covers hcov
  obtain ⟨_, k, _, rfl⟩ := strip_mem hx
  rw [Segment.covers_iff] at hcov
  unfold copyTo at hcov hval
  dsimp only at hcov hval
  rw [hval]
  obtain ⟨y, hy⟩ : ∃ y, j * s + i = k * s + y := ⟨j * s + i - k * s, by omega⟩
  obtain ⟨rfl, rfl⟩ := step_unique (by omega) (by omega) hy
  congr 1
  omega

theorem strip_apply_not (h : r < c.nranks → ∀ j < m, ∀ i < len, a ≠ dst r + (j * s + i))
    (w : Memories UInt8) : (strip c m dst s src s' len).apply w r a = w r a := by
  apply Writer.apply_of_not_covers
  intro x hx
  obtain ⟨hr, j, hj, rfl⟩ := strip_mem hx
  unfold copyTo
  rw [Bool.eq_false_iff, Ne, Segment.covers_iff]
  rintro ⟨hle, hlt⟩
  dsimp only at hle hlt
  exact h hr j hj (a - (dst r + j * s)) (by omega) (by omega)

/-- One copy is a strip of length one. -/
theorem copy_writer (dst src : ℕ → ℕ) (len : ℕ) :
    (Op.copy dst src len).writer c = strip c 1 dst s src s' len := by
  funext r
  unfold Op.writer strip
  dsimp only
  split
  · show [copyTo (dst r) r (src r) len] = [copyTo (dst r + 0 * s) r (src r + 0 * s') len]
    rw [Nat.zero_mul, Nat.zero_mul]
    rfl
  · rfl

/-- **Copies one after the other.**  When no copy reads what another one writes they are as
good as one operation. -/
theorem copies_eq_strip (hs : len ≤ s) (hs' : len ≤ s')
    (hapart : ∀ r < c.nranks, Apart (dst r) (m * s) (src r) (m * s')) (w : Memories UInt8) :
    Writer.applyAll ((List.range m).map fun j =>
      (Op.copy (fun r => dst r + j * s) (fun r => src r + j * s') len).writer c) w =
        (strip c m dst s src s' len).apply w := by
  have hprefix : ∀ k ≤ m, Writer.applyAll ((List.range k).map fun j =>
      (Op.copy (fun r => dst r + j * s) (fun r => src r + j * s') len).writer c) w =
        (strip c k dst s src s' len).apply w := by
    intro k hk
    induction k with
    | zero =>
      funext r a
      exact (strip_apply_not (fun _ j hj => absurd hj (Nat.not_lt_zero j)) w).symm
    | succ k ih =>
      rw [List.range_succ, List.map_append, Writer.applyAll_append, ih (Nat.le_of_succ_le hk)]
      funext r a
      rw [List.map_singleton, Writer.applyAll_cons, @copy_writer c s s' _ _ len]
      show (strip c 1 _ s _ s' len).apply _ r a = _
      by_cases hr : r < c.nranks
      · by_cases ha : ∃ j < k + 1, ∃ i < len, a = dst r + (j * s + i)
        · obtain ⟨j, hj, i, hi', rfl⟩ := ha
          rw [strip_apply hr hj hi' hs]
          by_cases hjk : j = k
          · subst hjk
            have hlast := @strip_apply c r 1 s s' len (fun r => dst r + j * s) (fun r => src r + j * s')
              0 i hr Nat.one_pos hi' hs ((strip c j dst s src s' len).apply w)
            rw [show dst r + j * s + (0 * s + i) = dst r + (j * s + i) by omega] at hlast
            rw [hlast, strip_apply_not]
            · congr 1
              omega
            · intro _ x hx y hy heq
              have := step_le (t := s) (show x < m by omega)
              have := step_le (t := s') (show j < m by omega)
              have hap := hapart r hr
              unfold Apart at hap
              omega
          · rw [strip_apply_not, strip_apply hr (by omega) hi' hs]
            intro _ x hx y hy heq
            have hx0 : x = 0 := by omega
            subst hx0
            exact hjk (step_unique (t := s) (by omega) (by omega)
              (show j * s + i = k * s + y by omega)).1
        · rw [strip_apply_not, strip_apply_not, strip_apply_not]
          · exact fun _ j hj i hi' heq => ha ⟨j, hj, i, hi', heq⟩
          · exact fun _ j hj i hi' heq => ha ⟨j, by omega, i, hi', heq⟩
          · intro _ x hx y hy heq
            have hx0 : x = 0 := by omega
            subst hx0
            exact ha ⟨k, Nat.lt_succ_self k, y, hy, by omega⟩
      · rw [strip_apply_not fun h => absurd h hr, strip_apply_not fun h => absurd h hr,
          strip_apply_not fun h => absurd h hr]
  exact hprefix m (Nat.le_refl m)

end Strip

end Split
end Orchestrator
end HyLink
