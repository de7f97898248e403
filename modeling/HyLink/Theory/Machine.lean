import Mathlib.Data.List.Basic
import Mathlib.Logic.Relation
import Mathlib.Order.WellFoundedSet

/-!
# Labelled machines and their guarded runs

A **machine** is a partial step function on states, driven by labels: a label
that is not enabled in a state has no step.  A *guarded run* is a list of
labels executed from a start state where, besides being enabled, every step has
to satisfy a condition on the state it is taken in.  The trivial guard gives
the machine's ordinary runs.

* `Machine.runFrom_append` — runs compose.
* `Machine.invariant` — what holds at the start and is preserved by every
  guarded step holds after every guarded run.
* `Machine.invariantTrace` — the same for a state together with the effects
  the run has had so far.
* `Machine.runFrom_mono` — a weaker guard admits at least the same runs.
* `Machine.throughout_iff` — where a step that fails a condition breaks a property, and one that
  meets it keeps it, the property holds throughout a run just if all its steps meet the condition.
* `Machine.countP_le_of_measure` — a measure that pays for steps of a kind bounds their number.
* `finished_of_transGen` — if a started job has all its direct prerequisites
  finished, it has all its transitive prerequisites finished.
* `exists_minimal_pending` — among finitely many jobs with an acyclic wait
  relation, a non-empty set of pending ones has a member waiting for none of
  them.
-/

namespace HyLink
namespace Theory

/-- A partial step function driven by labels. -/
structure Machine (S L : Type) where
  /-- The state after the label, if the label is enabled. -/
  step : S → L → Option S

namespace Machine

variable {S L A : Type} (M : Machine S L)

/-- The guard that admits every step. -/
def anyStep : S → L → Bool := fun _ _ => true

/-- Execute a list of labels from a state; the run is abandoned as soon as a
label is not enabled or the guard `P` rejects the step. -/
def runFrom (P : S → L → Bool) (s : S) : List L → Option S
  | [] => some s
  | l :: ls => if P s l then (M.step s l).bind fun s' => runFrom P s' ls else none

/-- The effects of a run, in order: `E s l` is what the step labelled `l` does
in state `s`. -/
def trace (E : S → L → List A) (s : S) : List L → List A
  | [] => []
  | l :: ls => E s l ++ ((M.step s l).map fun s' => trace E s' ls).getD []

@[simp] theorem runFrom_nil (P : S → L → Bool) (s : S) : M.runFrom P s [] = some s := rfl

theorem runFrom_cons_eq_some {P : S → L → Bool} {s s' : S} {l : L} {ls : List L} :
    M.runFrom P s (l :: ls) = some s' ↔
      P s l = true ∧ ∃ t, M.step s l = some t ∧ M.runFrom P t ls = some s' := by
  by_cases h : P s l = true <;> simp [runFrom, h, Option.bind_eq_some_iff]

theorem runFrom_append (P : S → L → Bool) (s : S) (ls ls' : List L) :
    M.runFrom P s (ls ++ ls') = (M.runFrom P s ls).bind fun t => M.runFrom P t ls' := by
  induction ls generalizing s with
  | nil => simp
  | cons l ls ih =>
    by_cases h : P s l = true
    · cases hs : M.step s l <;> simp [runFrom, h, hs, ih]
    · simp [runFrom, h]

/-- What the start state satisfies and every guarded step preserves holds after
every guarded run. -/
theorem invariant {P : S → L → Bool} {I : S → Prop}
    (hstep : ∀ s l s', I s → P s l = true → M.step s l = some s' → I s')
    {s s' : S} {ls : List L} (h0 : I s) (hrun : M.runFrom P s ls = some s') : I s' := by
  induction ls generalizing s with
  | nil => cases hrun; exact h0
  | cons l ls ih =>
    obtain ⟨hP, t, ht, hrest⟩ := M.runFrom_cons_eq_some.1 hrun
    exact ih (hstep s l t h0 hP ht) hrest

/-- The invariant rule for a state together with the effects so far. -/
theorem invariantTrace {P : S → L → Bool} {E : S → L → List A} {I : List A → S → Prop}
    (hstep : ∀ tr s l s', I tr s → P s l = true → M.step s l = some s' → I (tr ++ E s l) s')
    {tr : List A} {s s' : S} {ls : List L} (h0 : I tr s)
    (hrun : M.runFrom P s ls = some s') : I (tr ++ M.trace E s ls) s' := by
  induction ls generalizing s tr with
  | nil => cases hrun; simpa [trace] using h0
  | cons l ls ih =>
    obtain ⟨hP, t, ht, hrest⟩ := M.runFrom_cons_eq_some.1 hrun
    have := ih (hstep tr s l t h0 hP ht) hrest
    simpa [trace, ht] using this

theorem invariantTrace_init {P : S → L → Bool} {E : S → L → List A} {I : List A → S → Prop}
    (hstep : ∀ tr s l s', I tr s → P s l = true → M.step s l = some s' → I (tr ++ E s l) s')
    {s s' : S} {ls : List L} (h0 : I [] s) (hrun : M.runFrom P s ls = some s') :
    I (M.trace E s ls) s' := by
  simpa using M.invariantTrace hstep h0 hrun

/-- A run under a guard is a run under every weaker guard. -/
theorem runFrom_mono {P Q : S → L → Bool} (hPQ : ∀ s l, P s l = true → Q s l = true)
    {s s' : S} {ls : List L} (hrun : M.runFrom P s ls = some s') :
    M.runFrom Q s ls = some s' := by
  induction ls generalizing s with
  | nil => exact hrun
  | cons l ls ih =>
    obtain ⟨hP, t, ht, hrest⟩ := M.runFrom_cons_eq_some.1 hrun
    exact M.runFrom_cons_eq_some.2 ⟨hPQ s l hP, t, ht, ih hrest⟩

/-- **A measure pays for the steps of a kind**, and no step raises it. -/
theorem countP_le_of_measure {P : S → L → Bool} {I : S → Prop} (measure : S → ℕ) (kind : L → Bool)
    (hstep : ∀ s l s', I s → P s l = true → M.step s l = some s' →
      I s' ∧ measure s' + (if kind l then 1 else 0) ≤ measure s)
    {s s' : S} {ls : List L} (h0 : I s) (hrun : M.runFrom P s ls = some s') :
    ls.countP kind + measure s' ≤ measure s := by
  induction ls generalizing s with
  | nil =>
    cases hrun
    exact Nat.le_of_eq (Nat.zero_add _)
  | cons l ls ih =>
    obtain ⟨hP, t, ht, hrest⟩ := M.runFrom_cons_eq_some.1 hrun
    obtain ⟨ht', hle⟩ := hstep s l t h0 hP ht
    have hcount := ih ht' hrest
    rw [List.countP_cons]
    omega

/-- **A condition is exact.**  Where the steps that meet the condition `Q` keep an invariant with
the property `Good`, and a step that does not meet it ends outside `Good`, all states of a run are
`Good` just if all its steps meet `Q`. -/
theorem throughout_iff {P Q : S → L → Bool} {I Good : S → Prop}
    (hstep : ∀ s l s', I s → P s l = true → Q s l = true → M.step s l = some s' → I s')
    (hgood : ∀ s, I s → Good s)
    (hbad : ∀ s l s', I s → P s l = true → M.step s l = some s' → Good s' → Q s l = true)
    {s s' : S} {ls : List L} (h0 : I s) (hrun : M.runFrom P s ls = some s') :
    (∀ pre, pre <+: ls → ∀ t, M.runFrom P s pre = some t → Good t) ↔
      M.runFrom (fun s l => P s l && Q s l) s ls = some s' := by
  constructor
  · intro hall
    induction ls generalizing s with
    | nil => exact hrun
    | cons l ls ih =>
      obtain ⟨hP, t, ht, hrest⟩ := M.runFrom_cons_eq_some.1 hrun
      have hfirst : M.runFrom P s [l] = some t := M.runFrom_cons_eq_some.2 ⟨hP, t, ht, rfl⟩
      have hQ := hbad s l t h0 hP ht (hall [l] (List.prefix_cons_inj l |>.2 List.nil_prefix) t hfirst)
      refine M.runFrom_cons_eq_some.2 ⟨by simp [hP, hQ], t, ht, ?_⟩
      refine ih (hstep s l t h0 hP hQ ht) hrest ?_
      intro pre hpre u hu
      exact hall (l :: pre) ((List.prefix_cons_inj l).2 hpre) u
        (M.runFrom_cons_eq_some.2 ⟨hP, t, ht, hu⟩)
  · rintro hboth pre ⟨rest, rfl⟩ t ht
    rw [runFrom_append] at hboth
    obtain ⟨u, hu, -⟩ := Option.bind_eq_some_iff.1 hboth
    have hsame := M.runFrom_mono (Q := P) (fun s l h => (Bool.and_eq_true _ _ ▸ h).1) hu
    obtain rfl : u = t := Option.some.inj (hsame.symm.trans ht)
    refine hgood u (M.invariant (fun s l s' hi h hst => ?_) h0 hu)
    obtain ⟨hP, hQ⟩ := Bool.and_eq_true_iff.1 h
    exact hstep s l s' hi hP hQ hst

end Machine

/-! ## Waiting for jobs -/

section Precedence

variable {S J : Type} {started finished : S → J → Prop} {waits : J → J → Prop}

/-- **Prerequisites are transitive.**  If in state `s` a finished job has
started, and a started job has the jobs it waits for finished, then a started
job has every job finished that it waits for through any chain. -/
theorem finished_of_transGen {s : S} (hstarted : ∀ j, finished s j → started s j)
    (hwaits : ∀ b a, waits b a → started s b → finished s a) {b a : J}
    (h : Relation.TransGen waits b a) (hb : started s b) : finished s a := by
  induction h with
  | single hba => exact hwaits _ _ hba hb
  | tail _ hca ih => exact hwaits _ _ hca (hstarted _ ih)

/-- **An acyclic wait relation has an unblocked member.**  If no pending job
waits for itself through a chain, some pending job waits for no pending one. -/
theorem exists_minimal_pending {α : Type} {pending : Set α} {wait : α → α → Prop}
    (hfin : pending.Finite) (hne : pending.Nonempty)
    (hacyclic : ∀ a, ¬ Relation.TransGen wait a a) :
    ∃ m ∈ pending, ∀ a ∈ pending, ¬ wait m a := by
  let r : α → α → Prop := fun a b => Relation.TransGen wait b a
  have : IsStrictOrder α r :=
    { irrefl := hacyclic, trans := fun _ _ _ hab hbc => Relation.TransGen.trans hbc hab }
  have hwf : WellFounded (Subrel r (· ∈ pending)) := Set.Finite.wellFoundedOn (r := r) hfin
  obtain ⟨m, -, hmin⟩ := hwf.has_min Set.univ ⟨⟨_, hne.choose_spec⟩, trivial⟩
  exact ⟨m, m.2, fun a ha hma => hmin ⟨a, ha⟩ trivial (Relation.TransGen.single hma)⟩

end Precedence

end Theory
end HyLink
