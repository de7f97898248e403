import Mathlib.Data.List.Basic
import Mathlib.Data.Nat.Notation

/-!
# Operations that write segments of memories

Several ranks have a memory each.  An operation writes some segments of each memory, from
what the memories held before.

* `Writer.apply_of_covers`, `Writer.apply_of_not_covers` — what is there afterwards.
* `Writer.Within` — an operation reads and writes in one part of the memories only.
* `Writer.Within.comm` — operations in parts that have nothing in common commute.
* `count_covering` — equal steps with a window each cover an address once or not at all.
-/

namespace HyLink
namespace Theory

/-- The memory of every rank. -/
abbrev Memories (V : Type) := ℕ → ℕ → V

/-- A segment that is written at once: what its byte `i` gets. -/
structure Segment (V : Type) where
  dst : ℕ
  len : ℕ
  value : Memories V → ℕ → V

/-- The segments an operation writes in the memory of each rank. -/
abbrev Writer (V : Type) := ℕ → List (Segment V)

variable {V : Type} {W W' : Writer V} {A A' : ℕ → ℕ → Prop} {w w' : Memories V} {r a : ℕ}

def Segment.covers (s : Segment V) (a : ℕ) : Bool := decide (s.dst ≤ a ∧ a < s.dst + s.len)

theorem Segment.covers_iff {s : Segment V} : s.covers a = true ↔ s.dst ≤ a ∧ a < s.dst + s.len :=
  decide_eq_true_iff

def Writer.apply (W : Writer V) (w : Memories V) : Memories V := fun r a =>
  match (W r).find? fun s => s.covers a with
  | some s => s.value w (a - s.dst)
  | none => w r a

theorem Writer.apply_of_covers (h : ∃ s ∈ W r, s.covers a = true) :
    ∃ s ∈ W r, s.covers a = true ∧ ∀ w, W.apply w r a = s.value w (a - s.dst) := by
  obtain ⟨s, hs⟩ := Option.isSome_iff_exists.1 (List.find?_isSome.2 h)
  have hcov := List.find?_some hs
  refine ⟨s, List.mem_of_find?_eq_some hs, hcov, fun w => ?_⟩
  unfold Writer.apply
  rw [hs]

theorem Writer.apply_of_not_covers (h : ∀ s ∈ W r, s.covers a = false) (w : Memories V) :
    W.apply w r a = w r a := by
  have hnone : (W r).find? (fun s => s.covers a) = none :=
    List.find?_eq_none.2 fun s hs => by
      rw [h s hs]
      exact Bool.false_ne_true
  unfold Writer.apply
  rw [hnone]

/-- A segment depends only on the part `A` of the memories. -/
def Segment.ReadsIn (s : Segment V) (A : ℕ → ℕ → Prop) : Prop :=
  ∀ i < s.len, ∀ w w' : Memories V, (∀ p b, A p b → w p b = w' p b) → s.value w i = s.value w' i

/-- The operation reads and writes in the part `A` of the memories. -/
structure Writer.Within (W : Writer V) (A : ℕ → ℕ → Prop) : Prop where
  writes : ∀ r, ∀ s ∈ W r, ∀ i < s.len, A r (s.dst + i)
  reads : ∀ r, ∀ s ∈ W r, s.ReadsIn A

theorem Writer.Within.of_covers (h : W.Within A) {s : Segment V} (hs : s ∈ W r)
    (hc : s.covers a = true) : A r a := by
  rw [Segment.covers_iff] at hc
  have hi := h.writes r s hs (a - s.dst) (by omega)
  rwa [Nat.add_sub_cancel' hc.1] at hi

theorem Writer.Within.mono (h : W.Within A) (hA : ∀ r a, A r a → A' r a) : W.Within A' := by
  refine ⟨fun r s hs i hi => hA _ _ (h.writes r s hs i hi), fun r s hs i hi w w' heq => ?_⟩
  exact h.reads r s hs i hi w w' fun p b hb => heq p b (hA p b hb)

/-- Outside of `A` the operation changes nothing. -/
theorem Writer.Within.apply_of_not (h : W.Within A) (ha : ¬ A r a) (w : Memories V) :
    W.apply w r a = w r a := by
  apply Writer.apply_of_not_covers
  intro s hs
  by_contra hc
  exact ha (h.of_covers hs (Bool.not_eq_false _ ▸ hc))

/-- What the operation does depends only on `A`. -/
theorem Writer.Within.apply_congr (h : W.Within A) (hw : ∀ p b, A p b → w p b = w' p b)
    (ha : w r a = w' r a) : W.apply w r a = W.apply w' r a := by
  by_cases hc : ∃ s ∈ W r, s.covers a = true
  · obtain ⟨s, hs, hcov, hval⟩ := Writer.apply_of_covers hc
    rw [hval, hval]
    rw [Segment.covers_iff] at hcov
    exact h.reads r s hs _ (by omega) w w' hw
  · have hno : ∀ s ∈ W r, s.covers a = false := by
      intro s hs
      exact Bool.eq_false_iff.2 fun hs' => hc ⟨s, hs, hs'⟩
    rw [Writer.apply_of_not_covers hno, Writer.apply_of_not_covers hno, ha]

/-- **Operations without a common part commute.** -/
theorem Writer.Within.comm (h : W.Within A) (h' : W'.Within A') (hA : ∀ r a, A r a → ¬ A' r a)
    (w : Memories V) : W.apply (W'.apply w) = W'.apply (W.apply w) := by
  have hleft : ∀ r a, A r a → W'.apply w r a = w r a := fun r a ha => h'.apply_of_not (hA r a ha) w
  have hright : ∀ r a, A' r a → W.apply w r a = w r a :=
    fun r a ha => h.apply_of_not (fun ha' => hA r a ha' ha) w
  funext r a
  by_cases ha : A r a
  · rw [h'.apply_of_not (hA r a ha)]
    exact h.apply_congr hleft (hleft r a ha)
  · rw [h.apply_of_not ha]
    exact (h'.apply_congr hright (h.apply_of_not ha w)).symm

/-- One operation after the other. -/
def Writer.applyAll (l : List (Writer V)) (w : Memories V) : Memories V :=
  l.foldl (fun w W => W.apply w) w

theorem Writer.applyAll_cons (W : Writer V) (l : List (Writer V)) (w : Memories V) :
    Writer.applyAll (W :: l) w = Writer.applyAll l (W.apply w) := rfl

theorem Writer.applyAll_append (l l' : List (Writer V)) (w : Memories V) :
    Writer.applyAll (l ++ l') w = Writer.applyAll l' (Writer.applyAll l w) :=
  List.foldl_append

/-- An operation that commutes with the rest may be the last one. -/
theorem Writer.applyAll_comm {l : List (Writer V)} (h : ∀ W ∈ l, W.Within A) (h' : W'.Within A')
    (hA : ∀ r a, A r a → ¬ A' r a) (w : Memories V) :
    Writer.applyAll l (W'.apply w) = W'.apply (Writer.applyAll l w) := by
  induction l generalizing w with
  | nil => rfl
  | cons W l ih =>
    rw [Writer.applyAll_cons, (h W List.mem_cons_self).comm h' hA,
      ih fun W hW => h W (List.mem_cons_of_mem _ hW), Writer.applyAll_cons]

/-! ## Equal steps -/

/-- Addresses in steps of length `t` have one step and one offset. -/
theorem step_unique {t j i j' i' : ℕ} (hi : i < t) (hi' : i' < t) (h : j * t + i = j' * t + i') :
    j = j' ∧ i = i' := by
  have ht : 0 < t := Nat.lt_of_le_of_lt (Nat.zero_le _) hi
  have hj : j = j' := by
    have hdiv := congrArg (· / t) h
    simp only [Nat.mul_comm _ t, Nat.mul_add_div ht, Nat.div_eq_of_lt hi, Nat.div_eq_of_lt hi'] at hdiv
    simpa using hdiv
  subst hj
  exact ⟨rfl, by omega⟩

theorem step_le {n t j : ℕ} (hj : j < n) : j * t + t ≤ n * t := by
  rw [← Nat.succ_mul]
  exact Nat.mul_le_mul_right t hj

/-- The window `[lo, hi)` of each of `m` steps of length `t` from `base` on. -/
def windows (base m t lo hi : ℕ) : List (ℕ × ℕ) :=
  (List.range m).map fun j => (base + (j * t + lo), hi - lo)

/-- How many of the ranges contain an address. -/
def coverage (ranges : List (ℕ × ℕ)) (a : ℕ) : ℕ :=
  ranges.countP fun x => decide (x.1 ≤ a ∧ a < x.1 + x.2)

theorem coverage_append (l l' : List (ℕ × ℕ)) (a : ℕ) :
    coverage (l ++ l') a = coverage l a + coverage l' a :=
  List.countP_append

theorem coverage_eq_zero {ranges : List (ℕ × ℕ)} {a : ℕ}
    (h : ∀ x ∈ ranges, ¬ (x.1 ≤ a ∧ a < x.1 + x.2)) : coverage ranges a = 0 :=
  List.countP_eq_zero.2 fun x hx => by simpa using h x hx

theorem coverage_pos {ranges : List (ℕ × ℕ)} {a : ℕ} {x : ℕ × ℕ} (hx : x ∈ ranges)
    (h : x.1 ≤ a ∧ a < x.1 + x.2) : 0 < coverage ranges a :=
  List.countP_pos_iff.2 ⟨x, hx, by simpa using h⟩

/-- Every step covers an address of its window once, and no other step covers it. -/
theorem coverage_windows {base m t lo hi j i : ℕ} (hj : j < m) (hi' : i < t) (ht : hi ≤ t) :
    coverage (windows base m t lo hi) (base + (j * t + i)) = if lo ≤ i ∧ i < hi then 1 else 0 := by
  have hiff : ∀ k, (base + (k * t + lo) ≤ base + (j * t + i) ∧
      base + (j * t + i) < base + (k * t + lo) + (hi - lo)) ↔ k = j ∧ lo ≤ i ∧ i < hi := by
    intro k
    refine ⟨fun hk => ?_, ?_⟩
    · obtain ⟨x, hx⟩ : ∃ x, j * t + i = k * t + (lo + x) :=
        ⟨j * t + i - (k * t + lo), by omega⟩
      obtain ⟨rfl, rfl⟩ := step_unique hi' (by omega) hx
      exact ⟨rfl, by omega, by omega⟩
    · rintro ⟨rfl, hlo, hhi⟩
      omega
  have hcount : coverage (windows base m t lo hi) (base + (j * t + i)) =
      (List.range m).countP fun k => decide (k = j ∧ lo ≤ i ∧ i < hi) := by
    unfold coverage windows
    rw [List.countP_map]
    refine List.countP_congr fun k _ => ?_
    simp only [Function.comp_apply, decide_eq_true_eq]
    exact hiff k
  rw [hcount]
  split
  · rename_i hin
    have heq : ((List.range m).countP fun k => decide (k = j ∧ lo ≤ i ∧ i < hi)) =
        (List.range m).count j := by
      unfold List.count
      refine List.countP_congr fun k _ => ?_
      simp [hin]
    rw [heq]
    rw [List.nodup_range.count, if_pos (List.mem_range.2 hj)]
  · rename_i hout
    refine List.countP_eq_zero.2 fun k _ => ?_
    simpa using fun _ hlo => Nat.le_of_not_lt fun hhi => hout ⟨hlo, hhi⟩

/-- Addresses in no step are in no window. -/
theorem coverage_windows_outside {base m t lo hi a : ℕ} (ht : hi ≤ t)
    (h : ∀ j < m, ∀ i < t, a ≠ base + (j * t + i)) : coverage (windows base m t lo hi) a = 0 := by
  refine coverage_eq_zero fun x hx hcov => ?_
  unfold windows at hx
  obtain ⟨j, hj, rfl⟩ := List.mem_map.1 hx
  exact h j (List.mem_range.1 hj) (a - (base + j * t)) (by omega) (by omega)

end Theory
end HyLink
