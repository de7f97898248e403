import Mathlib.Data.List.Range
import Mathlib.Data.Nat.Notation
import Mathlib.Algebra.GroupWithZero.Nat

/-!
# Counting the members of a party list

How many of the parties `0, …, n - 1` satisfy a predicate, when the predicate
changes at one party.

* `countP_range_congr` — parties beyond `n` do not count.
* `countP_range_set` — one party starts to count.
* `countP_range_eq` — all count exactly when every party does.
* `countP_set_add`, `count_set_add` — one entry of a list changes.
-/

namespace HyLink
namespace Theory

variable {n p : ℕ} {f g : ℕ → Bool}

theorem countP_range_congr (h : ∀ q < n, f q = g q) :
    (List.range n).countP f = (List.range n).countP g := by
  apply List.countP_congr
  intro q hq
  rw [h q (List.mem_range.1 hq)]

/-- **One party starts to count.** -/
theorem countP_range_set (hp : p < n) (hoff : f p = false) (hon : g p = true)
    (hother : ∀ q, q ≠ p → g q = f q) :
    (List.range n).countP g = (List.range n).countP f + 1 := by
  induction n with
  | zero => exact absurd hp (Nat.not_lt_zero p)
  | succ n ih =>
    rw [List.range_succ, List.countP_append, List.countP_append]
    rcases Nat.lt_succ_iff_lt_or_eq.1 hp with hlt | rfl
    · have hn : g n = f n := hother n hlt.ne'
      rw [ih hlt, List.countP_singleton, List.countP_singleton, hn]
      omega
    · have hrest : (List.range p).countP g = (List.range p).countP f :=
        countP_range_congr fun q hq => hother q hq.ne
      rw [hrest, List.countP_singleton, List.countP_singleton, hoff, hon]
      rfl

/-- All count exactly when every party does. -/
theorem countP_range_eq : (List.range n).countP f = n ↔ ∀ q < n, f q = true := by
  have h := List.countP_eq_length (p := f) (l := List.range n)
  rw [List.length_range] at h
  rw [h]
  exact ⟨fun hall q hq => hall q (List.mem_range.2 hq), fun hall q hq => hall q (List.mem_range.1 hq)⟩

theorem countP_range_le : (List.range n).countP f ≤ n := by
  have h := List.countP_le_length (p := f) (l := List.range n)
  rwa [List.length_range] at h

/-! ## The entries of a list -/

section Entries

variable {α : Type} {l : List α} {i : ℕ} {a b : α} {P : α → Bool}

/-- **One entry changes.** -/
theorem countP_set_add (hi : l[i]? = some a) :
    (l.set i b).countP P + (if P a then 1 else 0) = l.countP P + (if P b then 1 else 0) := by
  obtain ⟨hlt, rfl⟩ := List.getElem?_eq_some_iff.1 hi
  have hle : (if P l[i] then 1 else 0) ≤ l.countP P := by
    split
    · exact List.countP_pos_iff.2 ⟨l[i], List.getElem_mem hlt, by assumption⟩
    · exact Nat.zero_le _
  rw [List.countP_set hlt]
  omega

theorem count_set_add [DecidableEq α] (hi : l[i]? = some a) (x : α) :
    (l.set i b).count x + (if a = x then 1 else 0) = l.count x + (if b = x then 1 else 0) := by
  simpa [List.count] using countP_set_add (b := b) (P := (· == x)) hi

theorem sum_map_set_add (f : α → ℕ) (hi : l[i]? = some a) :
    ((l.set i b).map f).sum + f a = (l.map f).sum + f b := by
  induction l generalizing i with
  | nil => cases hi
  | cons c l ih =>
    cases i with
    | zero =>
      cases hi
      simp only [List.set_cons_zero, List.map_cons, List.sum_cons]
      omega
    | succ i =>
      have hrest := ih hi
      simp only [List.set_cons_succ, List.map_cons, List.sum_cons]
      omega

end Entries

end Theory
end HyLink
