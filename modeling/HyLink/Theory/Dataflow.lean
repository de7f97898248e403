import Mathlib.Data.List.Basic
import Mathlib.Logic.Function.Basic

/-!
# Instructions that each write one place

An instruction writes one place, or none, with something that it makes of the contents of all
places.  Executed in a list, each write of a place gives it its next *version*; which version an
instruction finds in a place is a matter of the order of the list.

* `run_upTo` — a place has a version's contents until its next write.
* `Respects` — an order in which every instruction finds the versions that it needs.
* `Respects.find` — what an instruction needs has been written that often before it.
* `run_rel` — two meanings of the instructions that agree on each of them agree on every list, also
  under other names for the places.
-/

namespace HyLink
namespace Theory
namespace Dataflow

variable {I L V W : Type} [DecidableEq L] (writes : I → Option L) (value : I → (L → V) → V)

/-! ## Lists of instructions -/

/-- One instruction. -/
def execute (m : L → V) (i : I) : L → V :=
  match writes i with
  | none => m
  | some l => Function.update m l (value i m)

/-- Instructions one after the other. -/
def run (m : L → V) (is : List I) : L → V := is.foldl (execute writes value) m

/-- How often instructions write a place. -/
def count (is : List I) (l : L) : ℕ := is.countP fun i => decide (writes i = some l)

/-- The instructions up to the one that writes a place for the `v`-th time. -/
def upTo (l : L) : ℕ → List I → List I
  | 0, _ => []
  | _ + 1, [] => []
  | v + 1, i :: is => i :: upTo l (if writes i = some l then v else v + 1) is

variable {writes value} {m : L → V} {i : I} {l : L}

@[simp] theorem run_nil : run writes value m [] = m := rfl

@[simp] theorem run_cons (is : List I) :
    run writes value m (i :: is) = run writes value (execute writes value m i) is := rfl

@[simp] theorem run_append (is js : List I) :
    run writes value m (is ++ js) = run writes value (run writes value m is) js :=
  List.foldl_append

theorem execute_self (h : writes i = some l) : execute writes value m i l = value i m := by
  simp only [execute, h, Function.update_self]

theorem execute_other (h : writes i ≠ some l) : execute writes value m i l = m l := by
  cases hw : writes i with
  | none => simp only [execute, hw]
  | some l' =>
    have hne : l ≠ l' := fun heq => h (by rw [hw, heq])
    simp only [execute, hw, Function.update_of_ne hne]

@[simp] theorem count_nil : count writes [] l = 0 := rfl

theorem count_cons (is : List I) :
    count writes (i :: is) l = count writes is l + if writes i = some l then 1 else 0 := by
  simp [count, List.countP_cons]

@[simp] theorem count_append (is js : List I) :
    count writes (is ++ js) l = count writes is l + count writes js l :=
  List.countP_append

theorem count_perm {is js : List I} (h : is.Perm js) : count writes is l = count writes js l :=
  h.countP_eq _

theorem count_reverse (is : List I) : count writes is.reverse l = count writes is l :=
  count_perm is.reverse_perm

/-- A place that is not written stays. -/
theorem run_of_unwritten {is : List I} (h : count writes is l = 0) :
    run writes value m is l = m l := by
  induction is generalizing m with
  | nil => rfl
  | cons i is ih =>
    rw [count_cons] at h
    have hno : writes i ≠ some l := fun hw => by
      rw [if_pos hw] at h
      omega
    rw [run_cons, ih (by omega), execute_other hno]

/-- **A place has a version's contents until its next write.** -/
theorem run_upTo (pre post : List I) :
    run writes value m (upTo writes l (count writes pre l) (pre ++ post)) l =
      run writes value m pre l := by
  induction pre generalizing m with
  | nil => simp [upTo]
  | cons i pre ih =>
    rw [count_cons, run_cons, List.cons_append]
    by_cases hw : writes i = some l
    · rw [if_pos hw, upTo, if_pos hw, run_cons, ih]
    · rw [if_neg hw, Nat.add_zero]
      cases hv : count writes pre l with
      | zero => rw [upTo, run_of_unwritten hv, execute_other hw, run_nil]
      | succ v => rw [upTo, if_neg hw, run_cons, ← hv, ih]

/-- An instruction's own write is the next version. -/
theorem upTo_self {pre post : List I} (h : writes i = some l) :
    upTo writes l (count writes pre l + 1) (pre ++ i :: post) = pre ++ [i] := by
  induction pre with
  | nil => simp [upTo, h]
  | cons j pre ih =>
    rw [count_cons, List.cons_append, upTo]
    by_cases hw : writes j = some l
    · rw [if_pos hw, if_pos hw, ih, List.cons_append]
    · rw [if_neg hw, if_neg hw, Nat.add_zero, ih, List.cons_append]

/-- Of two places in a list, the later one has at least the writes of the earlier one before it. -/
theorem count_le_of_length {pre pre' post post' : List I} (h : pre ++ post = pre' ++ post')
    (hle : pre.length ≤ pre'.length) : count writes pre l ≤ count writes pre' l := by
  obtain ⟨rest, rfl⟩ := List.prefix_of_prefix_length_le ⟨post, rfl⟩ ⟨post', h.symm⟩ hle
  rw [count_append]
  exact Nat.le_add_right _ _

/-- What is written at the earlier place is written before the later one. -/
theorem count_lt_of_length {pre pre' post post' : List I} (h : pre ++ i :: post = pre' ++ post')
    (hlt : pre.length < pre'.length) (hw : writes i = some l) :
    count writes pre l < count writes pre' l := by
  have hle : (pre ++ [i]).length ≤ pre'.length := by
    rw [List.length_append, List.length_singleton]
    exact hlt
  have hcount : count writes (pre ++ [i]) l ≤ count writes pre' l :=
    count_le_of_length (by rwa [List.append_assoc]) hle
  rw [count_append, count_cons, if_pos hw] at hcount
  exact Nat.lt_of_succ_le hcount

/-! ## Orders -/

variable (writes) in
/-- After the instructions `done`, the last one first, every instruction of the list finds the
versions it needs. -/
def Respects (needs : I → List (L × ℕ)) : List I → List I → Prop
  | _, [] => True
  | done, i :: is => (∀ p ∈ needs i, count writes done p.1 = p.2) ∧ Respects needs (i :: done) is

instance Respects.decidable (needs : I → List (L × ℕ)) :
    ∀ done is, Decidable (Respects writes needs done is)
  | _, [] => inferInstanceAs (Decidable True)
  | done, i :: is =>
      @instDecidableAnd _ _ inferInstance (Respects.decidable needs (i :: done) is)

variable {needs : I → List (L × ℕ)}

theorem respects_append {done is js : List I} : Respects writes needs done (is ++ js) ↔
    Respects writes needs done is ∧ Respects writes needs (is.reverse ++ done) js := by
  induction is generalizing done with
  | nil => simp [Respects]
  | cons i is ih => simp [Respects, ih, and_assoc]

theorem respects_of_needs_nil {done is : List I} (h : ∀ i ∈ is, needs i = []) :
    Respects writes needs done is := by
  induction is generalizing done with
  | nil => trivial
  | cons i is ih =>
    refine ⟨?_, ih fun j hj => h j (List.mem_cons_of_mem _ hj)⟩
    rw [h i List.mem_cons_self]
    exact fun p hp => absurd hp List.not_mem_nil

theorem Respects.snoc {is : List I} (h : Respects writes needs [] is)
    (hi : ∀ p ∈ needs i, count writes is p.1 = p.2) : Respects writes needs [] (is ++ [i]) :=
  respects_append.2 ⟨h, fun p hp => by rw [List.append_nil, count_reverse, hi p hp], trivial⟩

/-- **What an instruction needs has been written that often before it.** -/
theorem Respects.find {pre post : List I} (h : Respects writes needs [] (pre ++ i :: post)) :
    ∀ p ∈ needs i, count writes pre p.1 = p.2 := by
  have hi := (respects_append.1 h).2.1
  rw [List.append_nil] at hi
  intro p hp
  rw [← hi p hp, count_reverse]

/-! ## Other names for the places -/

section

variable {L' : Type} [DecidableEq L'] {name : L → L'} (hname : Function.Injective name)
  {writes' : I → Option L'} (hwrites : ∀ i, writes' i = (writes i).map name)

include hname hwrites

omit [DecidableEq L] [DecidableEq L'] in
theorem writes_name_iff : writes' i = some (name l) ↔ writes i = some l := by
  rw [hwrites, Option.map_eq_some_iff]
  exact ⟨fun ⟨l', hl, heq⟩ => by rw [hl, hname heq], fun h => ⟨l, h, rfl⟩⟩

theorem count_name (is : List I) : count writes' is (name l) = count writes is l := by
  unfold count
  congr 1
  funext i
  exact decide_eq_decide.2 (writes_name_iff hname hwrites)

/-- Orders do not depend on the names. -/
theorem Respects.of_names {needs' : I → List (L' × ℕ)} {done is : List I}
    (hneeds : ∀ i ∈ is, needs' i = (needs i).map fun p => (name p.1, p.2))
    (h : Respects writes' needs' done is) : Respects writes needs done is := by
  induction is generalizing done with
  | nil => trivial
  | cons i is ih =>
    refine ⟨fun p hp => ?_, ih (fun j hj => hneeds j (List.mem_cons_of_mem _ hj)) h.2⟩
    have hp' : (name p.1, p.2) ∈ needs' i := by
      rw [hneeds i List.mem_cons_self]
      exact List.mem_map_of_mem hp
    rw [← count_name hname hwrites]
    exact h.1 _ hp'

/-- **Meanings that agree on each instruction agree on every list of them**, also under other names
for the places. -/
theorem run_rel {value' : I → (L' → W) → W} {R : L → V → W → Prop} {is : List I}
    (hvalue : ∀ i ∈ is, ∀ m n, (∀ l, R l (m l) (n (name l))) →
      ∀ l, writes i = some l → R l (value i m) (value' i n))
    {n : L' → W} (h : ∀ l, R l (m l) (n (name l))) :
    ∀ l, R l (run writes value m is l) (run writes' value' n is (name l)) := by
  induction is generalizing m n with
  | nil => exact h
  | cons i is ih =>
    rw [run_cons, run_cons]
    refine ih (fun j hj => hvalue j (List.mem_cons_of_mem _ hj)) fun l => ?_
    by_cases hw : writes i = some l
    · rw [execute_self hw, execute_self ((writes_name_iff hname hwrites).2 hw)]
      exact hvalue i List.mem_cons_self m n h l hw
    · rw [execute_other hw, execute_other fun hw' => hw ((writes_name_iff hname hwrites).1 hw')]
      exact h l

end

end Dataflow
end Theory
end HyLink
