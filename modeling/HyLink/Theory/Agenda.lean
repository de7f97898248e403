import Mathlib.Data.List.Infix

/-!
# Lists worked off from the front

A worker that does the operations of a fixed list one by one has a suffix of
the list still to do.  Where one operation `x` of the list separates the
operations before it from those after it, the head of the suffix is known to be
on one side or the other.

* `mem_of_suffix_cons` — `x` is still to come: the head is before it.
* `mem_post_of_suffix_cons` — `x` is done: the head is after it.
* `suffix_of_suffix_cons` — `x` is the head: what follows is after it.
-/

namespace HyLink
namespace Theory

variable {α : Type}

/-- In front of the only `x` of a list there is the part before `x`. -/
theorem mem_of_suffix_cons {p q rest : List α} {a x : α} (hx : x ∉ q)
    (h : a :: rest <:+ p ++ x :: q) (hmem : x ∈ rest) : a ∈ p := by
  induction p with
  | nil =>
    rcases List.suffix_cons_iff.1 h with heq | hsuf
    · cases heq; exact absurd hmem hx
    · exact absurd (hsuf.subset (List.mem_cons_of_mem _ hmem)) hx
  | cons b p ih =>
    rcases List.suffix_cons_iff.1 h with heq | hsuf
    · cases heq; exact List.mem_cons_self
    · exact List.mem_cons_of_mem _ (ih hsuf)

/-- Behind the last `x` of a list there is the part after `x`. -/
theorem mem_post_of_suffix_cons {p q rest : List α} {a x : α}
    (h : a :: rest <:+ p ++ x :: q) (hmem : x ∉ a :: rest) : a ∈ q := by
  induction p with
  | nil =>
    rcases List.suffix_cons_iff.1 h with heq | hsuf
    · cases heq; exact absurd List.mem_cons_self hmem
    · exact hsuf.subset List.mem_cons_self
  | cons b p ih =>
    rcases List.suffix_cons_iff.1 h with heq | hsuf
    · cases heq; exact absurd (by simp) hmem
    · exact ih hsuf

/-- Behind the first `x` of a list there is at most the part after `x`. -/
theorem suffix_of_suffix_cons {p q rest : List α} {x : α} (hx : x ∉ p)
    (h : x :: rest <:+ p ++ x :: q) : rest <:+ q := by
  induction p with
  | nil =>
    rcases List.suffix_cons_iff.1 h with heq | hsuf
    · cases heq; exact List.suffix_rfl
    · exact (List.suffix_cons x rest).trans hsuf
  | cons b p ih =>
    rcases List.suffix_cons_iff.1 h with heq | hsuf
    · cases heq; exact absurd List.mem_cons_self hx
    · exact ih (fun hm => hx (List.mem_cons_of_mem _ hm)) hsuf

end Theory
end HyLink
