import Mathlib.Data.Bool.Basic
import Mathlib.Logic.Function.Basic
import Mathlib.Data.Nat.Notation

/-!
# Publishing in order what is done out of order

The items `0, …, n - 1` are done in any order.  A counter goes through them in order; what is done
beyond the counter is parked until the counter gets there.

* `prefixLength` — how many items are done from the start without a gap.
* `Tracks` — the counter and the parked flags follow what is done.
* `Tracks.mark`, `Tracks.take`, `Tracks.direct` — an item is parked, the counter takes it, or passes
  an item that was never parked.
* `Tracks.prefixLength_eq` — a counter at rest is at the first gap.
-/

namespace HyLink
namespace Theory

/-- The length of the longest gapless start of `0, …, n - 1` that is done. -/
def prefixLength : ℕ → (ℕ → Bool) → ℕ
  | 0, _ => 0
  | n + 1, done => if prefixLength n done = n ∧ done n = true then n + 1 else prefixLength n done

variable {n c i k : ℕ} {done done' parked : ℕ → Bool}

theorem prefixLength_le : prefixLength n done ≤ n := by
  induction n with
  | zero => exact Nat.le_refl 0
  | succ n ih =>
    unfold prefixLength
    split <;> omega

theorem le_prefixLength_iff : k ≤ prefixLength n done ↔ k ≤ n ∧ ∀ i < k, done i = true := by
  induction n generalizing k with
  | zero =>
    constructor
    · intro hk
      obtain rfl : k = 0 := Nat.le_zero.1 hk
      exact ⟨Nat.le_refl 0, fun i hi => absurd hi (Nat.not_lt_zero i)⟩
    · exact fun h => h.1
  | succ n ih =>
    unfold prefixLength
    split
    · rename_i hall
      refine ⟨fun hk => ⟨hk, ?_⟩, fun h => h.1⟩
      intro i hi
      rcases Nat.lt_succ_iff_lt_or_eq.1 (Nat.lt_of_lt_of_le hi hk) with hlt | rfl
      · exact (ih.1 (Nat.le_of_eq hall.1.symm)).2 i hlt
      · exact hall.2
    · rename_i hgap
      rw [ih]
      refine ⟨fun h => ⟨Nat.le_succ_of_le h.1, h.2⟩, fun h => ⟨?_, h.2⟩⟩
      by_contra hk
      obtain rfl : k = n + 1 := by omega
      have hle := ih.2 ⟨Nat.le_refl n, fun i hi => h.2 i (Nat.lt_succ_of_lt hi)⟩
      exact hgap ⟨Nat.le_antisymm prefixLength_le hle, h.2 n (Nat.lt_succ_self n)⟩

theorem prefixLength_mono (h : ∀ i < n, done i = true → done' i = true) :
    prefixLength n done ≤ prefixLength n done' := by
  obtain ⟨hle, hall⟩ := le_prefixLength_iff.1 (Nat.le_refl (prefixLength n done))
  exact le_prefixLength_iff.2 ⟨hle, fun i hi => h i (Nat.lt_of_lt_of_le hi hle) (hall i hi)⟩

theorem prefixLength_all (h : ∀ i < n, done i = true) : prefixLength n done = n :=
  Nat.le_antisymm prefixLength_le (le_prefixLength_iff.2 ⟨Nat.le_refl n, h⟩)

/-- An item that is not done ends it. -/
theorem prefixLength_le_of_gap (h : done k = false) : prefixLength n done ≤ k := by
  by_contra hlt
  have hdone := (le_prefixLength_iff.1 (Nat.le_of_not_le hlt)).2
  by_cases hk : k < prefixLength n done
  · rw [(le_prefixLength_iff.1 (Nat.le_refl _)).2 k hk] at h
    cases h
  · omega

/-- **The counter and the parked flags follow what is done.** -/
structure Tracks (n : ℕ) (done parked : ℕ → Bool) (c : ℕ) : Prop where
  le : c ≤ n
  below : ∀ i < c, done i = true
  parked : ∀ i < n, parked i = (done i && decide (c ≤ i))

theorem Tracks.start : Tracks n (fun _ => false) (fun _ => false) 0 :=
  ⟨Nat.zero_le n, fun i hi => absurd hi (Nat.not_lt_zero i), fun _ _ => rfl⟩

/-- **An item is parked.** -/
theorem Tracks.mark (h : Tracks n done parked c) (hi : c ≤ i) :
    Tracks n (Function.update done i true) (Function.update parked i true) c := by
  refine ⟨h.le, ?_, ?_⟩
  · intro j hj
    rw [Function.update_of_ne (by omega)]
    exact h.below j hj
  · intro j hj
    by_cases hji : j = i
    · subst hji
      rw [Function.update_self, Function.update_self, decide_eq_true hi]
      rfl
    · rw [Function.update_of_ne hji, Function.update_of_ne hji]
      exact h.parked j hj

/-- **The counter takes a parked item.** -/
theorem Tracks.take (h : Tracks n done parked c) (hc : c < n) (hparked : parked c = true) :
    Tracks n done (Function.update parked c false) (c + 1) := by
  have hdone : done c = true := by
    rw [h.parked c hc] at hparked
    exact (Bool.and_eq_true_iff.1 hparked).1
  refine ⟨hc, ?_, ?_⟩
  · intro j hj
    rcases Nat.lt_succ_iff_lt_or_eq.1 hj with hlt | rfl
    · exact h.below j hlt
    · exact hdone
  · intro j hj
    by_cases hjc : j = c
    · subst hjc
      rw [Function.update_self, decide_eq_false (by omega), Bool.and_false]
    · have hiff : c + 1 ≤ j ↔ c ≤ j := by omega
      rw [Function.update_of_ne hjc, h.parked j hj, decide_eq_decide.2 hiff]

/-- **The counter passes an item** that is done at once. -/
theorem Tracks.direct (h : Tracks n done parked c) (hc : c < n) (hgap : done c = false) :
    Tracks n (Function.update done c true) parked (c + 1) := by
  refine ⟨hc, ?_, ?_⟩
  · intro j hj
    by_cases hjc : j = c
    · rw [hjc, Function.update_self]
    · rw [Function.update_of_ne hjc]
      exact h.below j (by omega)
  · intro j hj
    by_cases hjc : j = c
    · subst hjc
      rw [h.parked j hj, hgap, Bool.false_and, decide_eq_false (by omega), Bool.and_false]
    · have hiff : c + 1 ≤ j ↔ c ≤ j := by omega
      rw [Function.update_of_ne hjc, h.parked j hj, decide_eq_decide.2 hiff]

/-- **A counter at rest** is at the first gap. -/
theorem Tracks.prefixLength_eq (h : Tracks n done parked c) (hrest : c < n → parked c = false) :
    prefixLength n done = c := by
  refine Nat.le_antisymm ?_ (le_prefixLength_iff.2 ⟨h.le, h.below⟩)
  by_cases hc : c < n
  · apply prefixLength_le_of_gap
    have hparked := hrest hc
    rw [h.parked c hc, decide_eq_true (Nat.le_refl c), Bool.and_true] at hparked
    exact hparked
  · exact Nat.le_trans prefixLength_le (Nat.le_of_not_lt hc)

end Theory
end HyLink
