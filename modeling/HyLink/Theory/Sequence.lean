import Mathlib.Data.List.Basic
import Mathlib.Data.Nat.Notation

/-!
# A sequence that is worked through in order

A sequence of jobs only grows, and a counter tells how many of them are finished.
Facts about the order of two jobs in the sequence say which of them is finished when.

* `Precedes.mem_take` — what comes before the first `x` is finished when `x` starts.
* `NeverAfter.not_mem_drop` — when `y` is finished, no `x` that never comes after `y` is
  still to be done.
-/

namespace HyLink
namespace Theory

variable {α : Type} {l l' : List α} {x y : α} {d : ℕ}

theorem mem_take_succ : x ∈ l.take (d + 1) ↔ x ∈ l.take d ∨ l[d]? = some x := by
  rw [List.take_add_one, List.mem_append, Option.mem_toList]

theorem mem_take_append (h : x ∈ l.take d) : x ∈ (l ++ l').take d := by
  rw [List.take_append]
  exact List.mem_append_left _ h

theorem mem_take_of_le {d' : ℕ} (hd : d ≤ d') (h : x ∈ l.take d) : x ∈ l.take d' :=
  (List.take_subset_take_left l hd) h

/-- A prefix does not see what is appended behind it. -/
theorem take_append_of_le (hd : d ≤ l.length) : (l ++ l').take d = l.take d :=
  List.take_append_of_le_length hd

/-- There is a `y` before the first `x`. -/
def Precedes (l : List α) (y x : α) : Prop :=
  ∃ l₁ l₂, l = l₁ ++ x :: l₂ ∧ x ∉ l₁ ∧ y ∈ l₁

theorem Precedes.append (h : Precedes l y x) : Precedes (l ++ l') y x := by
  obtain ⟨l₁, l₂, rfl, hx, hy⟩ := h
  exact ⟨l₁, l₂ ++ l', by simp, hx, hy⟩

theorem Precedes.concat (hy : y ∈ l) (hx : x ∉ l) : Precedes (l ++ [x]) y x :=
  ⟨l, [], rfl, hx, hy⟩

theorem Precedes.mem_take (h : Precedes l y x) (hx : x ∈ l.take (d + 1)) : y ∈ l.take d := by
  obtain ⟨l₁, l₂, rfl, hx₁, hy⟩ := h
  have hlen : l₁.length ≤ d := by
    by_contra hlt
    rw [List.take_append_of_le_length (by omega)] at hx
    exact hx₁ (List.mem_of_mem_take hx)
  rw [List.take_append]
  refine List.mem_append_left _ ?_
  rw [List.take_of_length_le hlen]
  exact hy

/-- No `x` comes after a `y`. -/
def NeverAfter (l : List α) (x y : α) : Prop := l.Pairwise fun a b => a = y → b ≠ x

theorem NeverAfter.append (h : NeverAfter l x y) (hx : x ∉ l') : NeverAfter (l ++ l') x y := by
  have hne : ∀ b ∈ l', b ≠ x := by
    rintro b hb rfl
    exact hx hb
  refine List.pairwise_append.2 ⟨h, ?_, fun a _ b hb _ => hne b hb⟩
  exact List.Pairwise.imp_of_mem (fun _ hb _ _ => hne _ hb) (List.pairwise_of_forall fun _ _ => trivial)

/-- The first `y` that is appended. -/
theorem NeverAfter.concat (hy : y ∉ l) : NeverAfter (l ++ [y]) x y := by
  have hne : ∀ a ∈ l, a ≠ y := by
    rintro a ha rfl
    exact hy ha
  refine List.pairwise_append.2 ⟨?_, List.pairwise_singleton _ _, fun a ha _ _ h => absurd h (hne a ha)⟩
  exact List.Pairwise.imp_of_mem (fun ha _ _ h => absurd h (hne _ ha))
    (List.pairwise_of_forall fun _ _ => trivial)

theorem NeverAfter.not_mem_drop (h : NeverAfter l x y) (hy : y ∈ l.take d) : x ∉ l.drop d := by
  rw [NeverAfter, ← List.take_append_drop d l, List.pairwise_append] at h
  exact fun hx => h.2.2 y hy x hx rfl rfl

end Theory
end HyLink
