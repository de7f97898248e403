import Mathlib.Data.List.Basic

/-!
# Cutting a list where an element clashes

A list is cut into blocks from left to right: an element joins the block before it unless it
clashes with a member, and else begins the next block.

* `cut` — the blocks.
* `Blocks` — what the blocks of a list look like.
* `cut_eq_iff` — no other blocks look like that.
* `blockOf` — the number of the block an element is in.
-/

namespace HyLink
namespace Theory

variable {α : Type*} (clash : α → α → Bool)

/-- The blocks, while the first of them is being filled. -/
def cutFrom : List α → List α → List (List α)
  | block, [] => [block]
  | block, x :: xs =>
    if block.any (clash · x) then block :: cutFrom [x] xs else cutFrom (block ++ [x]) xs

def cut : List α → List (List α)
  | [] => []
  | x :: xs => cutFrom clash [x] xs

/-- **Blocks as a cut makes them:** none is empty, the members of a block do not clash, and the
first element after a block clashes with a member of it. -/
def Blocks : List (List α) → Prop
  | [] => True
  | block :: rest => block ≠ [] ∧ block.Pairwise (fun a x => clash a x = false) ∧
      (∀ x, rest.flatten.head? = some x → block.any (clash · x) = true) ∧ Blocks rest

/-- The number of the block that holds the element with index `i`. -/
def blockOf : List (List α) → ℕ → ℕ
  | [], _ => 0
  | block :: rest, i => if i < block.length then 0 else blockOf rest (i - block.length) + 1

variable {clash} {block : List α}

theorem flatten_cutFrom (block xs : List α) : (cutFrom clash block xs).flatten = block ++ xs := by
  induction xs generalizing block with
  | nil => simp [cutFrom]
  | cons x xs ih =>
    unfold cutFrom
    split
    · rw [List.flatten_cons, ih, List.singleton_append]
    · rw [ih, List.append_assoc, List.singleton_append]

theorem flatten_cut (l : List α) : (cut clash l).flatten = l := by
  cases l with
  | nil => rfl
  | cons x xs => exact flatten_cutFrom [x] xs

theorem pairwise_snoc {x : α} (h : block.Pairwise fun a x => clash a x = false)
    (hx : block.any (clash · x) = false) :
    (block ++ [x]).Pairwise fun a x => clash a x = false := by
  rw [List.pairwise_append]
  refine ⟨h, List.pairwise_singleton _ _, fun a ha y hy => ?_⟩
  rw [List.mem_singleton] at hy
  subst hy
  exact Bool.eq_false_iff.2 (List.any_eq_false.1 hx a ha)

theorem blocks_cutFrom (xs : List α) (hne : block ≠ [])
    (h : block.Pairwise fun a x => clash a x = false) : Blocks clash (cutFrom clash block xs) := by
  induction xs generalizing block with
  | nil => exact ⟨hne, h, nofun, trivial⟩
  | cons x xs ih =>
    unfold cutFrom
    split
    · next hclash =>
      refine ⟨hne, h, fun y hy => ?_, ih (List.cons_ne_nil x []) (List.pairwise_singleton _ x)⟩
      rw [flatten_cutFrom] at hy
      obtain rfl : x = y := Option.some.inj hy
      exact hclash
    · next hclash =>
      exact ih (List.append_ne_nil_of_right_ne_nil _ (List.cons_ne_nil x []))
        (pairwise_snoc h (Bool.eq_false_iff.2 hclash))

theorem blocks_cut (l : List α) : Blocks clash (cut clash l) := by
  cases l with
  | nil => trivial
  | cons x xs => exact blocks_cutFrom xs (List.cons_ne_nil x []) (List.pairwise_singleton _ x)

/-- A block that the rest of the list does not continue is cut off. -/
theorem cutFrom_block (ys rest : List α)
    (h : (block ++ ys).Pairwise fun a x => clash a x = false)
    (hend : ∀ x, rest.head? = some x → (block ++ ys).any (clash · x) = true) :
    cutFrom clash block (ys ++ rest) = (block ++ ys) :: cut clash rest := by
  induction ys generalizing block with
  | nil =>
    rw [List.append_nil] at hend
    rw [List.nil_append, List.append_nil]
    cases rest with
    | nil => rfl
    | cons x xs =>
      rw [cutFrom, if_pos (hend x rfl)]
      rfl
  | cons y ys ih =>
    have hjoin : ¬block.any (clash · y) = true := by
      rw [List.any_eq_true]
      rintro ⟨a, ha, hclash⟩
      have hfree := (List.pairwise_append.1 h).2.2 a ha y List.mem_cons_self
      rw [hfree] at hclash
      cases hclash
    rw [List.append_cons] at h hend
    rw [List.cons_append, cutFrom, if_neg hjoin, ih h hend, ← List.append_cons]

theorem cut_flatten {bs : List (List α)} (h : Blocks clash bs) : cut clash bs.flatten = bs := by
  induction bs with
  | nil => rfl
  | cons block rest ih =>
    obtain ⟨hne, hfree, hend, hrest⟩ := h
    obtain ⟨x, xs, rfl⟩ := List.exists_cons_of_ne_nil hne
    rw [List.flatten_cons, List.cons_append, cut, cutFrom_block xs rest.flatten hfree hend, ih hrest]
    rfl

/-- **The cut is the only way** to make such blocks of a list. -/
theorem cut_eq_iff {l : List α} {bs : List (List α)} :
    cut clash l = bs ↔ bs.flatten = l ∧ Blocks clash bs := by
  constructor
  · rintro rfl
    exact ⟨flatten_cut l, blocks_cut l⟩
  · rintro ⟨rfl, h⟩
    exact cut_flatten h

/-- A block has an element, and no two that clash. -/
theorem Blocks.of_mem {bs : List (List α)} (h : Blocks clash bs) {block : List α}
    (hmem : block ∈ bs) : block ≠ [] ∧ block.Pairwise fun a x => clash a x = false := by
  induction bs with
  | nil => cases hmem
  | cons b bs ih =>
    rcases List.mem_cons.1 hmem with rfl | hmem
    · exact ⟨h.1, h.2.1⟩
    · exact ih h.2.2.2 hmem

theorem ne_nil_of_mem_cut {l block : List α} (h : block ∈ cut clash l) : block ≠ [] :=
  ((blocks_cut l).of_mem h).1

theorem pairwise_of_mem_cut {l block : List α} (h : block ∈ cut clash l) :
    block.Pairwise fun a x => clash a x = false :=
  ((blocks_cut l).of_mem h).2

end Theory
end HyLink
