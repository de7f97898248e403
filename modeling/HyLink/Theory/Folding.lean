import Mathlib.Data.List.Perm.Basic
import Mathlib.Data.List.Range

/-!
# Folding a commutative operation from any seed

An associative and commutative operation without a neutral element reduces a
non-empty list.  Which member the reduction starts from does not matter, nor
does the order of the others.

* `foldl_eq_of_perm` — two seeds with the same members behind them.
* `foldl_filter_range` — the members of a range folded from any of them.
-/

namespace HyLink
namespace Theory

variable {V : Type} {op : V → V → V}

theorem some_foldl (a : V) (l : List V) :
    some (l.foldl op a) = (l.map some).foldl (Option.merge op) (some a) := by
  induction l generalizing a with
  | nil => rfl
  | cons b l ih => exact ih (op a b)

variable [Std.Commutative op] [Std.Associative op]

/-- **The seed does not matter.** -/
theorem foldl_eq_of_perm {a b : V} {l l' : List V} (h : (a :: l).Perm (b :: l')) :
    l.foldl op a = l'.foldl op b := by
  apply Option.some.inj
  rw [some_foldl, some_foldl]
  have hperm : ((a :: l).map some).Perm ((b :: l').map some) := h.map some
  have hfold : ((a :: l).map some).foldl (Option.merge op) none =
      ((b :: l').map some).foldl (Option.merge op) none := hperm.foldl_op_eq
  simpa [Option.merge] using hfold

/-- Folding a range from one of its members, leaving that member out. -/
theorem foldl_filter_range {n k : ℕ} (f : ℕ → V) (hk : k < n) :
    (((List.range n).filter fun s => s != k).map f).foldl op (f k) =
      ((List.range (n - 1)).map fun s => f (s + 1)).foldl op (f 0) := by
  have hmem : k ∈ List.range n := List.mem_range.2 hk
  have hfilter : ((List.range n).filter fun s => s != k) = (List.range n).erase k :=
    (List.nodup_range.erase_eq_filter k).symm
  have hrange : List.range n = 0 :: (List.range (n - 1)).map Nat.succ := by
    obtain ⟨m, rfl⟩ : ∃ m, n = m + 1 := ⟨n - 1, by omega⟩
    exact List.range_succ_eq_map
  apply foldl_eq_of_perm
  have hperm : (k :: (List.range n).erase k).Perm (0 :: (List.range (n - 1)).map Nat.succ) :=
    hrange ▸ (List.perm_cons_erase hmem).symm
  simpa [hfilter, Function.comp_def] using hperm.map f

end Theory
end HyLink
