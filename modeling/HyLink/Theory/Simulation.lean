import HyLink.Theory.Machine

/-!
# One machine in view of another

A machine refines another one if what is seen of each of its steps is a step of the other, or
nothing at all.

* `Machine.runFrom_view` — then what is seen of a run is a run.
-/

namespace HyLink
namespace Theory
namespace Machine

variable {S T L A : Type} (M : Machine S L) (N : Machine T A)

theorem runFrom_singleton (t : T) (a : A) : N.runFrom anyStep t [a] = N.step t a := by
  simp only [runFrom, anyStep, if_true, Option.bind_fun_some]

/-- **What is seen of a run is a run.** -/
theorem runFrom_view {P : S → L → Bool} {R : S → T → Prop} (view : L → Option A)
    (hstep : ∀ s l s' t, R s t → M.step s l = some s' →
      ∃ t', N.runFrom anyStep t (view l).toList = some t' ∧ R s' t')
    {s s' : S} {t : T} {ls : List L} (hsim : R s t) (hrun : M.runFrom P s ls = some s') :
    ∃ t', N.runFrom anyStep t (ls.filterMap view) = some t' ∧ R s' t' := by
  induction ls generalizing s t with
  | nil =>
    cases hrun
    exact ⟨t, rfl, hsim⟩
  | cons l ls ih =>
    obtain ⟨-, m, hm, hrest⟩ := M.runFrom_cons_eq_some.1 hrun
    obtain ⟨t₁, hview, hsim₁⟩ := hstep s l m t hsim hm
    obtain ⟨t', hrun', hsim'⟩ := ih hsim₁ hrest
    have hcons : (l :: ls).filterMap view = (view l).toList ++ ls.filterMap view := by
      cases hl : view l <;> simp [hl]
    refine ⟨t', ?_, hsim'⟩
    rw [hcons, runFrom_append, hview, Option.bind_some, hrun']

end Machine
end Theory
end HyLink
