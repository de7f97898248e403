import Mathlib.Algebra.GroupWithZero.Nat
import Mathlib.Algebra.Order.BigOperators.Group.Finset
import HyLink.Theory.Machine

/-!
# Machines that come to rest

A step that lowers a measure can be taken only so often.  What such steps lead to is a state in
which none of them is left, and from there the other steps have to go on.

* `Machine.exists_halted` — if the steps a guard admits lower a measure, the machine comes to a
  state in which the guard admits none.
* `Machine.exists_reached` — if every state short of a goal leads on to a state that is nearer to
  it, it leads to the goal.
* `Machine.runFrom_upgrade` — a run whose steps meet a stronger guard is a run under it.
* `lex_sum` — a measure of many parts goes down with that of one part.
-/

namespace HyLink
namespace Theory

namespace Machine

variable {S L : Type} (M : Machine S L)

/-- One run after another. -/
theorem runFrom_trans {P : S → L → Bool} {s t u : S} {ls ls' : List L}
    (h : M.runFrom P s ls = some t) (h' : M.runFrom P t ls' = some u) :
    M.runFrom P s (ls ++ ls') = some u := by
  rw [runFrom_append, h, Option.bind_some, h']

/-- **Falling measures come to rest.** -/
theorem exists_halted {A : Type} {lt : A → A → Prop} (hwf : WellFounded lt) (measure : S → A)
    {P : S → L → Bool} {I : S → Prop}
    (hstep : ∀ s l s', I s → P s l = true → M.step s l = some s' →
      I s' ∧ lt (measure s') (measure s)) {s : S} (h0 : I s) :
    ∃ ls t, M.runFrom P s ls = some t ∧ I t ∧ ∀ l, P t l = true → M.step t l = none := by
  induction hm : measure s using hwf.induction generalizing s with
  | _ a ih =>
    by_cases hrest : ∀ l, P s l = true → M.step s l = none
    · exact ⟨[], s, rfl, h0, hrest⟩
    · push Not at hrest
      obtain ⟨l, hP, hne⟩ := hrest
      obtain ⟨s', hs'⟩ := Option.ne_none_iff_exists'.1 hne
      obtain ⟨hI, hlt⟩ := hstep s l s' h0 hP hs'
      obtain ⟨ls, t, hrun, ht⟩ := ih _ (hm ▸ hlt) hI rfl
      exact ⟨l :: ls, t, M.runFrom_cons_eq_some.2 ⟨hP, s', hs', hrun⟩, ht⟩

/-- **Whatever is always nearer is reached.** -/
theorem exists_reached {P : S → L → Bool} {I Goal : S → Prop} (measure : S → ℕ)
    (hgo : ∀ s, I s → ¬ Goal s → ∃ ls t, M.runFrom P s ls = some t ∧ I t ∧ measure t < measure s)
    {s : S} (h0 : I s) : ∃ ls t, M.runFrom P s ls = some t ∧ I t ∧ Goal t := by
  induction hm : measure s using Nat.strong_induction_on generalizing s with
  | _ k ih =>
    by_cases hgoal : Goal s
    · exact ⟨[], s, rfl, h0, hgoal⟩
    · obtain ⟨ls, t, hrun, ht, hlt⟩ := hgo s h0 hgoal
      obtain ⟨ls', u, hrun', hu⟩ := ih _ (hm ▸ hlt) ht rfl
      exact ⟨ls ++ ls', u, M.runFrom_trans hrun hrun', hu⟩

/-- A run whose steps meet a stronger guard. -/
theorem runFrom_upgrade {P Q : S → L → Bool} {I : S → Prop} {s t : S} {ls : List L}
    (hstep : ∀ s l s', l ∈ ls → I s → P s l = true → M.step s l = some s' → Q s l = true ∧ I s')
    (h0 : I s) (hrun : M.runFrom P s ls = some t) : M.runFrom Q s ls = some t ∧ I t := by
  induction ls generalizing s with
  | nil => cases hrun; exact ⟨rfl, h0⟩
  | cons l ls ih =>
    obtain ⟨hP, s', hs', hrest⟩ := M.runFrom_cons_eq_some.1 hrun
    obtain ⟨hQ, hI⟩ := hstep s l s' List.mem_cons_self h0 hP hs'
    obtain ⟨hrun', ht⟩ := ih (fun s l s' hl => hstep s l s' (List.mem_cons_of_mem _ hl)) hI hrest
    exact ⟨M.runFrom_cons_eq_some.2 ⟨hQ, s', hs', hrun'⟩, ht⟩

end Machine

/-! ## Measures of many parts -/

/-- Three numbers, the first of which weighs most. -/
abbrev Lex3 : ℕ × ℕ × ℕ → ℕ × ℕ × ℕ → Prop :=
  Prod.Lex (· < ·) (Prod.Lex (· < ·) (· < ·))

theorem lex3_wf : WellFounded Lex3 :=
  WellFounded.prod_lex wellFounded_lt (WellFounded.prod_lex wellFounded_lt wellFounded_lt)

theorem lex3_iff {a b : ℕ × ℕ × ℕ} : Lex3 a b ↔
    a.1 < b.1 ∨ a.1 = b.1 ∧ (a.2.1 < b.2.1 ∨ a.2.1 = b.2.1 ∧ a.2.2 < b.2.2) := by
  simp only [Lex3, Prod.lex_def]

/-- The sum over the parts. -/
def sum3 (n : ℕ) (f : ℕ → ℕ × ℕ × ℕ) : ℕ × ℕ × ℕ :=
  (∑ i ∈ Finset.range n, (f i).1, ∑ i ∈ Finset.range n, (f i).2.1,
    ∑ i ∈ Finset.range n, (f i).2.2)

/-- **One part goes down, and the whole with it.** -/
theorem lex_sum {n k : ℕ} {f g : ℕ → ℕ × ℕ × ℕ} (hk : k < n) (hother : ∀ i, i ≠ k → g i = f i)
    (h : Lex3 (g k) (f k)) : Lex3 (sum3 n g) (sum3 n f) := by
  have hmem : k ∈ Finset.range n := Finset.mem_range.2 hk
  have hsum : ∀ p : ℕ × ℕ × ℕ → ℕ,
      ∑ i ∈ Finset.range n, p (g i) + p (f k) =
        ∑ i ∈ Finset.range n, p (f i) + p (g k) := fun p => by
    rw [← Finset.add_sum_erase _ _ hmem, ← Finset.add_sum_erase _ (fun i => p (f i)) hmem,
      Finset.sum_congr rfl fun i hi => by rw [hother i (Finset.ne_of_mem_erase hi)]]
    omega
  have h1 := hsum fun x => x.1
  have h2 := hsum fun x => x.2.1
  have h3 := hsum fun x => x.2.2
  rw [lex3_iff] at h ⊢
  simp only [sum3]
  omega

/-- Changing an entry of a list changes the sum by what the entry changes. -/
theorem sum_map_modify {A : Type} (weight : A → ℕ) (f : A → A) {l : List A} {j : ℕ} {a : A}
    (h : l[j]? = some a) :
    ((l.modify j f).map weight).sum + weight a = (l.map weight).sum + weight (f a) := by
  induction l generalizing j with
  | nil => simp at h
  | cons b l ih =>
    cases j with
    | zero =>
      simp only [List.getElem?_cons_zero, Option.some.injEq] at h
      subst h
      simp only [List.modify_zero_cons, List.map_cons, List.sum_cons]
      omega
    | succ j =>
      have := ih (by simpa using h)
      simp only [List.modify_succ_cons, List.map_cons, List.sum_cons]
      omega

end Theory
end HyLink
