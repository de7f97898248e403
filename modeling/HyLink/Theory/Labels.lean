import Mathlib.Data.List.Basic
import Mathlib.Data.Set.Function

/-!
# Numbering values in the order they appear

A list is read from left to right; a value that was not there before gets the next number.

* `labels` — the numbers.
* `labels_eq_iff` — two elements get one number just if they are equal.
* `labels_congr` — the numbers depend on nothing but which elements are equal.
-/

namespace HyLink
namespace Theory

variable {α β : Type*} [DecidableEq α] [DecidableEq β]

/-- The values that have a number, after one more. -/
def extend (seen : List α) (x : α) : List α := if x ∈ seen then seen else seen ++ [x]

def labelsFrom : List α → List α → List ℕ
  | _, [] => []
  | seen, x :: xs => (extend seen x).idxOf x :: labelsFrom (extend seen x) xs

def labels (xs : List α) : List ℕ := labelsFrom [] xs

/-- The values that have a number in the end. -/
def seenFrom (seen : List α) (xs : List α) : List α := xs.foldl extend seen

theorem mem_extend {seen : List α} {x y : α} : y ∈ extend seen x ↔ y ∈ seen ∨ y = x := by
  unfold extend
  split
  case isTrue h =>
    refine ⟨.inl, ?_⟩
    rintro (hy | rfl)
    · exact hy
    · exact h
  case isFalse => simp

theorem idxOf_extend {seen : List α} {x y : α} (hy : y ∈ seen) :
    (extend seen x).idxOf y = seen.idxOf y := by
  unfold extend
  split
  · rfl
  · exact List.idxOf_append_of_mem hy

theorem mem_seenFrom_of_mem {seen : List α} {y : α} (hy : y ∈ seen) (xs : List α) :
    y ∈ seenFrom seen xs ∧ (seenFrom seen xs).idxOf y = seen.idxOf y := by
  induction xs generalizing seen with
  | nil => exact ⟨hy, rfl⟩
  | cons x xs ih =>
    obtain ⟨h1, h2⟩ := ih (mem_extend.2 (.inl hy) : y ∈ extend seen x)
    exact ⟨h1, h2.trans (idxOf_extend hy)⟩

/-- A number that was given stays. -/
theorem labelsFrom_eq_map (seen xs : List α) :
    labelsFrom seen xs = xs.map (seenFrom seen xs).idxOf := by
  induction xs generalizing seen with
  | nil => rfl
  | cons x xs ih =>
    have hx : x ∈ extend seen x := mem_extend.2 (.inr rfl)
    rw [labelsFrom, List.map_cons, ih]
    show _ = (seenFrom (extend seen x) xs).idxOf x :: _
    rw [(mem_seenFrom_of_mem hx xs).2]
    rfl

theorem mem_seenFrom {seen xs : List α} {y : α} (hy : y ∈ xs) : y ∈ seenFrom seen xs := by
  induction xs generalizing seen with
  | nil => cases hy
  | cons x xs ih =>
    rcases List.mem_cons.1 hy with rfl | hy
    · exact (mem_seenFrom_of_mem (mem_extend.2 (.inr rfl)) xs).1
    · exact ih hy

@[simp] theorem length_labels (xs : List α) : (labels xs).length = xs.length := by
  rw [labels, labelsFrom_eq_map, List.length_map]

/-- **Two elements get one number just if they are equal.** -/
theorem labels_eq_iff {xs : List α} {i j : ℕ} (hi : i < xs.length) (hj : j < xs.length) :
    (labels xs)[i]? = (labels xs)[j]? ↔ xs[i]? = xs[j]? := by
  rw [labels, labelsFrom_eq_map]
  simp only [List.getElem?_map, List.getElem?_eq_getElem hi, List.getElem?_eq_getElem hj,
    Option.map_some, Option.some.injEq]
  exact List.idxOf_inj (mem_seenFrom (List.getElem_mem hi))

theorem idxOf_map_of_injOn {f : α → β} {l : List α} {x : α}
    (hf : Set.InjOn f {y | y ∈ l ∨ y = x}) : (l.map f).idxOf (f x) = l.idxOf x := by
  induction l with
  | nil => rfl
  | cons y l ih =>
    have hrest := ih (hf.mono fun z hz => hz.imp_left (List.mem_cons_of_mem y))
    by_cases hyx : y = x
    · subst hyx
      simp
    · have hne : f y ≠ f x := fun h => hyx (hf (.inl List.mem_cons_self) (.inr rfl) h)
      rw [List.map_cons, List.idxOf_cons_ne _ hne, List.idxOf_cons_ne _ hyx, hrest]

theorem extend_map {f : α → β} {seen : List α} {x : α}
    (hf : Set.InjOn f {y | y ∈ seen ∨ y = x}) :
    extend (seen.map f) (f x) = (extend seen x).map f := by
  unfold extend
  by_cases hx : x ∈ seen
  · rw [if_pos hx, if_pos (List.mem_map_of_mem hx)]
  · rw [if_neg hx, if_neg, List.map_append, List.map_singleton]
    intro h
    obtain ⟨y, hy, hyx⟩ := List.mem_map.1 h
    exact hx (hf (.inl hy) (.inr rfl) hyx ▸ hy)

theorem labelsFrom_map {f : α → β} (seen xs : List α)
    (hf : Set.InjOn f {y | y ∈ seen ∨ y ∈ xs}) :
    labelsFrom (seen.map f) (xs.map f) = labelsFrom seen xs := by
  induction xs generalizing seen with
  | nil => rfl
  | cons x xs ih =>
    have hx : Set.InjOn f {y | y ∈ seen ∨ y = x} := hf.mono (by
      rintro y (hy | rfl)
      · exact .inl hy
      · exact .inr List.mem_cons_self)
    have hext : Set.InjOn f {y | y ∈ extend seen x ∨ y = x} := hx.mono (by
      rintro y (hy | rfl)
      · exact mem_extend.1 hy
      · exact .inr rfl)
    rw [List.map_cons, labelsFrom, labelsFrom, extend_map hx, idxOf_map_of_injOn hext, ih]
    refine hf.mono ?_
    rintro y (hy | hy)
    · rcases mem_extend.1 hy with hy | rfl
      · exact .inl hy
      · exact .inr List.mem_cons_self
    · exact .inr (List.mem_cons_of_mem x hy)

/-- **The numbers depend on nothing but which elements are equal.** -/
theorem labels_congr {xs : List α} {ys : List β} (hlen : xs.length = ys.length)
    (heq : ∀ i j, i < xs.length → j < xs.length → (xs[i]? = xs[j]? ↔ ys[i]? = ys[j]?)) :
    labels xs = labels ys := by
  cases ys with
  | nil => rw [List.length_eq_zero_iff.1 hlen]; rfl
  | cons y ys =>
    set zs := y :: ys
    -- the other list is the image of this one, element by element
    have hmap : xs.map (fun x => zs.getD (xs.idxOf x) y) = zs := by
      apply List.ext_getElem?
      intro i
      by_cases hi : i < xs.length
      · have hmem := List.getElem_mem hi
        have hidx : xs.idxOf xs[i] < xs.length := List.idxOf_lt_length_of_mem hmem
        have hsame : zs[xs.idxOf xs[i]]? = zs[i]? := by
          apply (heq _ _ hidx hi).1
          rw [List.getElem?_eq_getElem hidx, List.getElem?_eq_getElem hi, List.getElem_idxOf]
        rw [List.getElem?_map, List.getElem?_eq_getElem hi, Option.map_some, List.getD, hsame,
          List.getElem?_eq_getElem (hlen ▸ hi), Option.getD_some]
      · rw [List.getElem?_eq_none (by simpa using hi), List.getElem?_eq_none (by omega)]
    rw [← hmap]
    refine (labelsFrom_map [] xs ?_).symm
    intro a ha b hb hab
    have hai := List.idxOf_lt_length_of_mem (ha.resolve_left List.not_mem_nil)
    have hbi := List.idxOf_lt_length_of_mem (hb.resolve_left List.not_mem_nil)
    have hsame : zs[xs.idxOf a]? = zs[xs.idxOf b]? := by
      simp only [List.getD, List.getElem?_eq_getElem (hlen ▸ hai),
        List.getElem?_eq_getElem (hlen ▸ hbi), Option.getD_some] at hab
      rw [List.getElem?_eq_getElem (hlen ▸ hai), List.getElem?_eq_getElem (hlen ▸ hbi), hab]
    have := (heq _ _ hai hbi).2 hsame
    rwa [List.getElem?_eq_getElem hai, List.getElem?_eq_getElem hbi, List.getElem_idxOf,
      List.getElem_idxOf, Option.some.injEq] at this

end Theory
end HyLink
