import Mathlib.Data.List.Range
import Mathlib.Data.List.Perm.Basic
import Mathlib.Data.Nat.Notation

/-!
# Sharing work out

Units of work `0 … n - 1` that are cut into shares of `per` units, and writers whose steps commute.

* `flatMap_share` — the shares together are the units, in order.
* `run_perm` — in whatever order the units are worked on, the result is the same.
-/

namespace HyLink
namespace Theory

/-- The units of share `i`, of `n` units cut into shares of `per`. -/
def share (n per i : ℕ) : List ℕ := List.range' (i * per) (min per (n - i * per))

theorem mem_share {n per i x : ℕ} :
    x ∈ share n per i ↔ i * per ≤ x ∧ x < i * per + per ∧ x < n := by
  unfold share
  rw [List.mem_range'_1]
  omega

/-- A unit is in one share. -/
theorem share_disjoint {n per i j x : ℕ} (hi : x ∈ share n per i) (hj : x ∈ share n per j) :
    i = j := by
  obtain ⟨hi1, hi2, -⟩ := mem_share.1 hi
  obtain ⟨hj1, hj2, -⟩ := mem_share.1 hj
  have hlt : i * per < (j + 1) * per := by
    rw [Nat.succ_mul]
    omega
  have hgt : j * per < (i + 1) * per := by
    rw [Nat.succ_mul]
    omega
  have h1 := Nat.lt_of_mul_lt_mul_right hlt
  have h2 := Nat.lt_of_mul_lt_mul_right hgt
  omega

/-- **The shares together** are the units, where there is a share for each of them. -/
theorem flatMap_share (n per k : ℕ) :
    (List.range k).flatMap (share n per) = List.range (min (k * per) n) := by
  induction k with
  | zero => simp
  | succ k ih =>
    rw [List.range_succ, List.flatMap_append, List.flatMap_singleton, ih, share]
    rcases Nat.le_total (k * per) n with hle | hge
    · rw [Nat.min_eq_left hle, List.range_eq_range', List.range_eq_range',
        show min ((k + 1) * per) n = k * per + min per (n - k * per) by
          rw [Nat.succ_mul]
          omega]
      have happend := List.range'_append_1 (s := 0) (m := k * per) (n := min per (n - k * per))
      rwa [Nat.zero_add] at happend
    · rw [Nat.min_eq_right hge, show n - k * per = 0 by omega, Nat.min_zero, List.range'_zero,
        List.append_nil, Nat.min_eq_right (by rw [Nat.succ_mul]; omega)]

/-- Shares of the rounded-up quotient reach the last unit. -/
theorem le_mul_divUp {n k : ℕ} (hk : 0 < k) : n ≤ k * ((n + k - 1) / k) := by
  have h := Nat.div_add_mod (n + k - 1) k
  have hlt := Nat.mod_lt (n + k - 1) hk
  omega

/-- **The order of work** does not matter where the steps commute. -/
theorem run_perm {S : Type} {step : S → ℕ → S} {n : ℕ} {l : List ℕ} (hperm : l.Perm (List.range n))
    (hcomm : ∀ x < n, ∀ y < n, x ≠ y → ∀ s, step (step s x) y = step (step s y) x) (s : S) :
    l.foldl step s = (List.range n).foldl step s := by
  refine hperm.foldl_eq' ?_ s
  intro x hx y hy s
  have hx' := List.mem_range.1 (hperm.mem_iff.1 hx)
  have hy' := List.mem_range.1 (hperm.mem_iff.1 hy)
  by_cases hxy : x = y
  · rw [hxy]
  · exact hcomm x hx' y hy' hxy s

end Theory
end HyLink
