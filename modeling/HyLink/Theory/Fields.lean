import Mathlib.Data.List.Basic
import Mathlib.Data.Nat.Notation

/-!
# Texts made of fields

Fields joined by a separator that is in none of them, and a text filled up with an element that is
not in it: either can be read back.

* `joined_inj`, `padded_inj` — what is read back.
-/

namespace HyLink
namespace Theory

variable {α : Type}

/-- What is before the first separator, and what is after it. -/
theorem append_sep_inj {sep : α} {x y v w : List α} (hx : sep ∉ x) (hy : sep ∉ y)
    (h : x ++ sep :: v = y ++ sep :: w) : x = y ∧ v = w := by
  induction x generalizing y with
  | nil =>
    cases y with
    | nil => exact ⟨rfl, (List.cons.inj h).2⟩
    | cons b y => exact absurd ((List.cons.inj h).1 ▸ List.mem_cons_self) hy
  | cons a x ih =>
    cases y with
    | nil => exact absurd ((List.cons.inj h).1 ▸ List.mem_cons_self) hx
    | cons b y =>
      obtain ⟨rfl, hrest⟩ := List.cons.inj h
      obtain ⟨rfl, rfl⟩ := ih (fun hm => hx (List.mem_cons_of_mem _ hm))
        (fun hm => hy (List.mem_cons_of_mem _ hm)) hrest
      exact ⟨rfl, rfl⟩

/-- The fields with a separator between two. -/
def joined (sep : α) : List (List α) → List α
  | [] => []
  | [x] => x
  | x :: y :: rest => x ++ sep :: joined sep (y :: rest)

/-- **The fields of a text** are determined by it. -/
theorem joined_inj {sep : α} {fields fields' : List (List α)}
    (hlength : fields.length = fields'.length) (hsep : ∀ x ∈ fields, sep ∉ x)
    (hsep' : ∀ x ∈ fields', sep ∉ x) (h : joined sep fields = joined sep fields') :
    fields = fields' := by
  induction fields generalizing fields' with
  | nil => exact (List.length_eq_zero_iff.1 hlength.symm).symm
  | cons x rest ih =>
    match fields', rest, hlength with
    | [x'], [], _ =>
      have hx : x = x' := h
      rw [hx]
    | x' :: y' :: rest', y :: rest, hlength =>
      obtain ⟨rfl, htail⟩ := append_sep_inj (hsep x List.mem_cons_self)
        (hsep' x' List.mem_cons_self) h
      have hrest := ih (Nat.succ.inj hlength) (fun z hz => hsep z (List.mem_cons_of_mem _ hz))
        (fun z hz => hsep' z (List.mem_cons_of_mem _ hz)) htail
      rw [hrest]

theorem mem_joined {sep c : α} {fields : List (List α)} (h : c ∈ joined sep fields) :
    c = sep ∨ ∃ field ∈ fields, c ∈ field := by
  induction fields with
  | nil => cases h
  | cons x rest ih =>
    cases rest with
    | nil => exact .inr ⟨x, List.mem_cons_self, h⟩
    | cons y rest =>
      rcases List.mem_append.1 h with hx | hrest
      · exact .inr ⟨x, List.mem_cons_self, hx⟩
      · rcases List.mem_cons.1 hrest with rfl | hrest
        · exact .inl rfl
        · rcases ih hrest with hsep | ⟨field, hfield, hc⟩
          · exact .inl hsep
          · exact .inr ⟨field, List.mem_cons_of_mem _ hfield, hc⟩

/-- A text in a block of `n` elements. -/
def padded (n : ℕ) (fill : α) (text : List α) : List α :=
  text ++ List.replicate (n - text.length) fill

/-- **The text in a block** that leaves room for one more element. -/
theorem padded_inj {n : ℕ} {fill : α} {text text' : List α} (hlt : text.length < n)
    (hlt' : text'.length < n) (hfill : fill ∉ text) (hfill' : fill ∉ text')
    (h : padded n fill text = padded n fill text') : text = text' := by
  have hroom : n - text.length = n - text.length - 1 + 1 := by omega
  have hroom' : n - text'.length = n - text'.length - 1 + 1 := by omega
  unfold padded at h
  rw [hroom, hroom', List.replicate_succ, List.replicate_succ] at h
  exact (append_sep_inj hfill hfill' h).1

end Theory
end HyLink
