import Mathlib.Algebra.Order.Archimedean.Basic
import Mathlib.Algebra.Order.Field.Basic
import Mathlib.Dynamics.FixedPoints.Basic
import Mathlib.Tactic.Ring
import Mathlib.Data.Nat.Notation

/-!
# Sequences that settle

A sequence is driven by a map or by steps that shrink a distance.

* `exists_of_shrinks`, `eventually_of_shrinks` — a distance that shrinks by a factor gets small.
* `constant_of_fixed`, `alternates_of_swap` — a sequence that a map drives, from a fixed point on or
  from one of two points that the map exchanges.
-/

namespace HyLink
namespace Theory

section Shrinking

variable {K : Type} [Field K] [LinearOrder K] [IsStrictOrderedRing K] [Archimedean K]
variable {P : ℕ → Prop} {d : ℕ → K} {q ε : K}

/-- Until something holds a distance shrinks by a factor, and where the distance is small it holds:
then it comes to hold. -/
theorem exists_of_shrinks (hq0 : 0 ≤ q) (hq1 : q < 1) (hε : 0 < ε)
    (hstep : ∀ n, ¬ P n → P (n + 1) ∨ d (n + 1) ≤ q * d n) (hclose : ∀ n, d n < ε → P n) :
    ∃ n, P n := by
  by_contra hnever
  have hnot : ∀ n, ¬ P n := fun n hn => hnever ⟨n, hn⟩
  have hpow : ∀ n, d n ≤ q ^ n * d 0 := by
    intro n
    induction n with
    | zero => simp
    | succ n ih =>
      have hshrink : d (n + 1) ≤ q * d n := (hstep n (hnot n)).resolve_left (hnot (n + 1))
      calc d (n + 1) ≤ q * d n := hshrink
        _ ≤ q * (q ^ n * d 0) := mul_le_mul_of_nonneg_left ih hq0
        _ = q ^ (n + 1) * d 0 := by ring
  have hpos : 0 < d 0 := hε.trans_le (not_lt.1 fun h => hnot 0 (hclose 0 h))
  obtain ⟨n, hn⟩ := exists_pow_lt_of_lt_one (div_pos hε hpos) hq1
  have hsmall : q ^ n * d 0 < ε := (lt_div_iff₀ hpos).1 hn
  exact hnot n (hclose n ((hpow n).trans_lt hsmall))

/-- If it then stays, it holds forever. -/
theorem eventually_of_shrinks (hq0 : 0 ≤ q) (hq1 : q < 1) (hε : 0 < ε)
    (hstay : ∀ n, P n → P (n + 1)) (hstep : ∀ n, ¬ P n → P (n + 1) ∨ d (n + 1) ≤ q * d n)
    (hclose : ∀ n, d n < ε → P n) : ∃ N, ∀ n, N ≤ n → P n := by
  obtain ⟨N, hN⟩ := exists_of_shrinks hq0 hq1 hε hstep hclose
  refine ⟨N, fun n hn => ?_⟩
  induction n, hn using Nat.le_induction with
  | base => exact hN
  | succ n _ ih => exact hstay n ih

end Shrinking

section Driven

variable {α : Type} {f : α → α} {x : ℕ → α} {m : ℕ}

theorem iterate_of_driven (hx : ∀ n, m ≤ n → x (n + 1) = f (x n)) (k : ℕ) :
    x (m + k) = f^[k] (x m) := by
  induction k with
  | zero => rfl
  | succ k ih => rw [← Nat.add_assoc, hx _ (Nat.le_add_right m k), ih, Function.iterate_succ_apply']

/-- A sequence stays at a fixed point. -/
theorem constant_of_fixed (hx : ∀ n, m ≤ n → x (n + 1) = f (x n)) {N : ℕ} (hN : m ≤ N)
    (hfix : Function.IsFixedPt f (x N)) (n : ℕ) (hn : N ≤ n) : x n = x N := by
  induction n, hn using Nat.le_induction with
  | base => rfl
  | succ n hn ih =>
    rw [hx n (hN.trans hn), ih]
    exact hfix

/-- A sequence goes back and forth between two points that are exchanged. -/
theorem alternates_of_swap (hx : ∀ n, m ≤ n → x (n + 1) = f (x n)) {a b : α} (ha : x m = a)
    (hab : f a = b) (hba : f b = a) (k : ℕ) : x (m + 2 * k) = a ∧ x (m + 2 * k + 1) = b := by
  induction k with
  | zero =>
    refine ⟨ha, ?_⟩
    show x (m + 1) = b
    rw [hx m le_rfl, ha, hab]
  | succ k ih =>
    have hnext : x (m + 2 * (k + 1)) = a := by
      show x (m + 2 * k + 1 + 1) = a
      rw [hx _ (by omega), ih.2, hba]
    exact ⟨hnext, by rw [hx _ (by omega), hnext, hab]⟩

end Driven

end Theory
end HyLink
