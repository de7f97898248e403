import Mathlib.Data.List.Nodup
import Mathlib.Data.List.Sort
import Mathlib.Data.List.NodupEquivFin
import Mathlib.Data.Nat.Notation

/-!
# Numbering the members of a list

A list is sorted, of equal members one is kept, and a table gives each of them its place.

* `mem_sortUnique`, `sortUnique_pairwise` — each member once, in order.
* `getElem?_numbered` — what the table holds; `countP_numbered` — how many members have a place.
* `slot_injective`, `exists_slot` — the places are those from 0 on, each given once.
-/

namespace HyLink
namespace Theory

section Unique

variable {α : Type} [LinearOrder α]

/-- Of equal neighbours the last is kept. -/
def unique : List α → List α
  | [] => []
  | [a] => [a]
  | a :: b :: l => if a = b then unique (b :: l) else a :: unique (b :: l)

theorem mem_unique {x : α} {l : List α} : x ∈ unique l ↔ x ∈ l := by
  induction l with
  | nil => rfl
  | cons a l ih =>
    cases l with
    | nil => rfl
    | cons b l =>
      unfold unique
      split
      · rename_i heq
        rw [ih, heq]
        simp
      · rw [List.mem_cons, ih, ← List.mem_cons]

theorem unique_pairwise {l : List α} (h : l.Pairwise (· ≤ ·)) :
    (unique l).Pairwise (· < ·) := by
  induction l with
  | nil => exact .nil
  | cons a l ih =>
    obtain ⟨ha, hl⟩ := List.pairwise_cons.1 h
    cases l with
    | nil => exact List.pairwise_singleton _ _
    | cons b l =>
      unfold unique
      split
      · exact ih hl
      · rename_i hne
        refine List.pairwise_cons.2 ⟨fun x hx => ?_, ih hl⟩
        have hab : a < b := lt_of_le_of_ne (ha b (List.mem_cons_self ..)) hne
        rcases List.mem_cons.1 (mem_unique.1 hx) with rfl | hx
        · exact hab
        · exact hab.trans_le ((List.pairwise_cons.1 hl).1 x hx)

/-- The members of a list, in order and each once. -/
def sortUnique (l : List α) : List α := unique (l.insertionSort (· ≤ ·))

theorem mem_sortUnique {x : α} {l : List α} : x ∈ sortUnique l ↔ x ∈ l :=
  mem_unique.trans (List.mem_insertionSort _)

theorem sortUnique_pairwise (l : List α) : (sortUnique l).Pairwise (· < ·) :=
  unique_pairwise (List.pairwise_insertionSort _ l)

theorem sortUnique_nodup (l : List α) : (sortUnique l).Nodup :=
  (sortUnique_pairwise l).imp ne_of_lt

end Unique

/-! ## The table -/

/-- The table with the place of each key from `slot` on. -/
def numberFrom (slot : ℕ) (table : List ℤ) : List ℕ → List ℤ
  | [] => table
  | key :: keys => numberFrom (slot + 1) (table.set key slot) keys

/-- A table of this size with the place of each key, and -1 elsewhere. -/
def numbered (size : ℕ) (keys : List ℕ) : List ℤ :=
  numberFrom 0 (List.replicate size (-1)) keys

variable {size slot c c' : ℕ} {table : List ℤ} {keys : List ℕ}

@[simp] theorem length_numberFrom : (numberFrom slot table keys).length = table.length := by
  induction keys generalizing slot table with
  | nil => rfl
  | cons key keys ih => rw [numberFrom, ih, List.length_set]

@[simp] theorem length_numbered : (numbered size keys).length = size := by
  unfold numbered
  simp

/-- A key has its place, and another index what it had. -/
theorem getElem?_numberFrom (hnodup : keys.Nodup) (hc : c < table.length) :
    (numberFrom slot table keys)[c]? =
      if c ∈ keys then some ((slot + keys.idxOf c : ℕ) : ℤ) else table[c]? := by
  induction keys generalizing slot table with
  | nil => simp [numberFrom]
  | cons key keys ih =>
    obtain ⟨hkey, hrest⟩ := List.nodup_cons.1 hnodup
    rw [numberFrom, ih hrest (by rwa [List.length_set])]
    by_cases heq : c = key
    · subst heq
      rw [if_neg hkey, if_pos (List.mem_cons_self ..), List.idxOf_cons_self, Nat.add_zero,
        List.getElem?_set_self hc]
    · have hmem : c ∈ key :: keys ↔ c ∈ keys := by simp [heq]
      simp only [hmem, List.getElem?_set_ne (Ne.symm heq)]
      split
      · rw [List.idxOf_cons_ne _ (Ne.symm heq)]
        congr 2
        omega
      · rfl

theorem getElem?_numbered (hnodup : keys.Nodup) (hc : c < size) :
    (numbered size keys)[c]? = some (if c ∈ keys then (keys.idxOf c : ℤ) else -1) := by
  unfold numbered
  rw [getElem?_numberFrom hnodup (by simpa using hc), List.getElem?_replicate, if_pos hc,
    Nat.zero_add]
  split <;> rfl

/-- The entry of an index is a place just if the index is a key. -/
theorem slot_iff (hnodup : keys.Nodup) (hc : c < size) :
    (∃ n : ℕ, (numbered size keys)[c]? = some (n : ℤ)) ↔ c ∈ keys := by
  rw [getElem?_numbered hnodup hc]
  split
  · rename_i hmem
    exact iff_of_true ⟨_, rfl⟩ hmem
  · rename_i hnot
    refine iff_of_false ?_ hnot
    rintro ⟨n, hn⟩
    have := Option.some.inj hn
    omega

/-- **Two keys have two places.** -/
theorem slot_injective (hnodup : keys.Nodup) (hc : c < size) (hc' : c' < size) {n : ℕ}
    (h : (numbered size keys)[c]? = some (n : ℤ)) (h' : (numbered size keys)[c']? = some (n : ℤ)) :
    c = c' := by
  have hmem := (slot_iff hnodup hc).1 ⟨n, h⟩
  have hmem' := (slot_iff hnodup hc').1 ⟨n, h'⟩
  rw [getElem?_numbered hnodup hc, if_pos hmem, Option.some_inj, Int.natCast_inj] at h
  rw [getElem?_numbered hnodup hc', if_pos hmem', Option.some_inj, Int.natCast_inj] at h'
  exact (List.idxOf_inj hmem).1 (h.trans h'.symm)

theorem slot_lt (hnodup : keys.Nodup) (hc : c < size) {n : ℕ}
    (h : (numbered size keys)[c]? = some (n : ℤ)) : n < keys.length := by
  have hmem := (slot_iff hnodup hc).1 ⟨n, h⟩
  rw [getElem?_numbered hnodup hc, if_pos hmem, Option.some_inj, Int.natCast_inj] at h
  exact h ▸ List.idxOf_lt_length_iff.2 hmem

/-- **Every place up to the number of keys is given.** -/
theorem exists_slot (hnodup : keys.Nodup) (hkeys : ∀ key ∈ keys, key < size) {n : ℕ}
    (hn : n < keys.length) : ∃ c < size, (numbered size keys)[c]? = some (n : ℤ) := by
  have hmem : keys[n] ∈ keys := List.getElem_mem hn
  refine ⟨keys[n], hkeys _ hmem, ?_⟩
  rw [getElem?_numbered hnodup (hkeys _ hmem), if_pos hmem, hnodup.idxOf_getElem n hn]

/-- As many entries are places as there are keys. -/
theorem countP_numbered (hnodup : keys.Nodup) (hkeys : ∀ key ∈ keys, key < size) :
    (numbered size keys).countP (fun n => decide (0 ≤ n)) = keys.length := by
  have htable : numbered size keys =
      (List.range size).map fun c => if c ∈ keys then (keys.idxOf c : ℤ) else -1 := by
    refine List.ext_getElem? fun c => ?_
    by_cases hc : c < size
    · rw [getElem?_numbered hnodup hc, List.getElem?_map, List.getElem?_range hc]
      rfl
    · rw [List.getElem?_eq_none (by simpa using hc), List.getElem?_eq_none (by simpa using hc)]
  have hplace : ∀ c, decide (0 ≤ if c ∈ keys then (keys.idxOf c : ℤ) else -1) =
      decide (c ∈ keys) := by
    intro c
    split
    · rename_i hmem
      simp [hmem]
    · rename_i hnot
      simp [hnot]
  rw [htable, List.countP_map, List.countP_eq_length_filter]
  refine List.Perm.length_eq ?_
  refine (List.perm_ext_iff_of_nodup (List.nodup_range.filter _) hnodup).2 fun c => ?_
  rw [List.mem_filter, List.mem_range, Function.comp_apply, hplace, decide_eq_true_eq]
  exact ⟨fun h => h.2, fun h => ⟨hkeys c h, h⟩⟩

end Theory
end HyLink
