import Mathlib.Data.List.Basic

/-!
# A state of separate cells

Calls on a state that has a cell for every index, each call with an index of its own: it leaves the
other cells as they are, and what it does to its own and what it returns is decided by its own.

* `Separate` — what is asked of the calls.
* `Separate.runs_filter` — a cell, and the results of the calls on it, are those of a run of these
  calls alone.
-/

namespace HyLink
namespace Theory

section Runs

variable {S C R I V : Type} (step : S → C → R × S)

/-- The calls with their results, and the state after them. -/
def runs (s : S) : List C → List (C × R) × S
  | [] => ([], s)
  | c :: cs =>
    let (r, t) := step s c
    let (log, u) := runs t cs
    ((c, r) :: log, u)

@[simp] theorem runs_nil (s : S) : runs step s [] = ([], s) := rfl

@[simp] theorem runs_cons (s : S) (c : C) (cs : List C) :
    runs step s (c :: cs) =
      ((c, (step s c).1) :: (runs step (step s c).2 cs).1, (runs step (step s c).2 cs).2) := rfl

theorem runs_snoc (s : S) (cs : List C) (c : C) :
    runs step s (cs ++ [c]) =
      ((runs step s cs).1 ++ [(c, (step (runs step s cs).2 c).1)],
        (step (runs step s cs).2 c).2) := by
  induction cs generalizing s with
  | nil => rfl
  | cons d ds ih => simp [ih]

/-- Every call is about the cell of its own index. -/
structure Separate (owner : C → I) (cell : I → S → V) : Prop where
  /-- The other cells stay as they are. -/
  frame : ∀ s c i, owner c ≠ i → cell i (step s c).2 = cell i s
  /-- What becomes of the cell is decided by it. -/
  own : ∀ s s' c, cell (owner c) s = cell (owner c) s' →
    cell (owner c) (step s c).2 = cell (owner c) (step s' c).2
  result : ∀ s s' c, cell (owner c) s = cell (owner c) s' → (step s c).1 = (step s' c).1

variable {step} [DecidableEq I] {owner : C → I} {cell : I → S → V}

/-- **A cell is what its own calls make of it.** -/
theorem Separate.runs_filter (h : Separate step owner cell) (i : I) {s s' : S} (cs : List C)
    (hs : cell i s = cell i s') :
    cell i (runs step s cs).2 = cell i (runs step s' (cs.filter fun c => decide (owner c = i))).2 ∧
      (runs step s cs).1.filter (fun e => decide (owner e.1 = i)) =
        (runs step s' (cs.filter fun c => decide (owner c = i))).1 := by
  induction cs generalizing s s' with
  | nil => exact ⟨hs, rfl⟩
  | cons c cs ih =>
    by_cases hc : owner c = i
    · subst hc
      obtain ⟨hcell, hlog⟩ := ih (h.own s s' c hs)
      rw [List.filter_cons_of_pos (by simp), runs_cons, runs_cons,
        List.filter_cons_of_pos (by simp)]
      exact ⟨hcell, by rw [hlog, h.result s s' c hs]⟩
    · obtain ⟨hcell, hlog⟩ := ih ((h.frame s c i hc).trans hs)
      rw [List.filter_cons_of_neg (by simpa using hc), runs_cons,
        List.filter_cons_of_neg (by simpa using hc)]
      exact ⟨hcell, hlog⟩

end Runs

end Theory
end HyLink
