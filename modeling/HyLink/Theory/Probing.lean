import Mathlib.Data.Nat.Notation
import Mathlib.Logic.Function.Basic

/-!
# Open addressing without removal

A table of cells, each of which is free or holds a key.  A key has a row of probes; it goes into
the first cell of its row that is free, unless it meets itself before.

* `Passed` — the first probes of a key met cells of other keys.
* `Sound` — every key in the table was put there by its probes.
* `Sound.unique` — a key is in one cell.
* `Sound.put` — a probe that finds a free cell may take it.
-/

namespace HyLink
namespace Theory
namespace Probing

variable {H I : Type} [DecidableEq I] (probe : H → ℕ → I)

/-- The first `k` probes of the key met cells of other keys. -/
def Passed (cell : I → Option H) (h : H) (k : ℕ) : Prop :=
  ∀ j < k, ∃ g, cell (probe h j) = some g ∧ g ≠ h

/-- The cell takes the key. -/
def put (cell : I → Option H) (i : I) (h : H) : I → Option H := Function.update cell i (some h)

/-- A key is where its probes first found a free cell. -/
def Sound (cell : I → Option H) : Prop :=
  ∀ i h, cell i = some h → ∃ k, probe h k = i ∧ Passed probe cell h k

variable {probe} {cell : I → Option H} {h g : H} {i j : I} {k : ℕ}

theorem put_eq_some (hput : put cell i h j = some g) : j = i ∧ g = h ∨ cell j = some g := by
  unfold put at hput
  by_cases hj : j = i
  · subst hj
    rw [Function.update_self, Option.some.injEq] at hput
    exact .inl ⟨rfl, hput.symm⟩
  · rw [Function.update_of_ne hj] at hput
    exact .inr hput

/-- A cell that holds a key keeps it when a free one is taken. -/
theorem put_of_some (hfree : cell i = none) (hj : cell j = some g) : put cell i h j = some g := by
  have hne : j ≠ i := by
    rintro rfl
    rw [hfree] at hj
    cases hj
  unfold put
  rw [Function.update_of_ne hne]
  exact hj

theorem Passed.put (hp : Passed probe cell g k) (hfree : cell i = none) :
    Passed probe (Probing.put cell i h) g k := by
  intro j hj
  obtain ⟨x, hx, hne⟩ := hp j hj
  exact ⟨x, put_of_some hfree hx, hne⟩

omit [DecidableEq I] in
/-- The next probe met another key. -/
theorem Passed.succ (hp : Passed probe cell h k) (hcell : cell (probe h k) = some g)
    (hne : g ≠ h) : Passed probe cell h (k + 1) := by
  intro j hj
  rcases Nat.lt_succ_iff_lt_or_eq.1 hj with hlt | rfl
  · exact hp j hlt
  · exact ⟨g, hcell, hne⟩

omit [DecidableEq I] in
/-- **A key is in one cell**: of two rows of probes the longer one passed over the end of the
shorter one. -/
theorem Sound.unique (hs : Sound probe cell) (hi : cell i = some h) (hj : cell j = some h) :
    i = j := by
  obtain ⟨k, rfl, hk⟩ := hs i h hi
  obtain ⟨l, rfl, hl⟩ := hs j h hj
  rcases Nat.lt_trichotomy k l with hlt | rfl | hlt
  · obtain ⟨x, hx, hne⟩ := hl k hlt
    exact absurd (Option.some.inj (hx.symm.trans hi)) hne
  · rfl
  · obtain ⟨x, hx, hne⟩ := hk l hlt
    exact absurd (Option.some.inj (hx.symm.trans hj)) hne

theorem Sound.put (hs : Sound probe cell) (hp : Passed probe cell h k)
    (hfree : cell (probe h k) = none) : Sound probe (Probing.put cell (probe h k) h) := by
  intro j g hj
  rcases put_eq_some hj with ⟨rfl, rfl⟩ | hj
  · exact ⟨k, rfl, hp.put hfree⟩
  · obtain ⟨l, hl, hpassed⟩ := hs j g hj
    exact ⟨l, hl, hpassed.put hfree⟩

end Probing
end Theory
end HyLink
