import HyLink.Theory.Machine
import Mathlib.Algebra.Order.BigOperators.Group.Finset

/-!
# Infinite runs and what they lead to

A behaviour is an infinite run of a machine.  One predicate leads to another when, wherever the one
holds, the other holds then or later.

* `Behaviour.invariant` — what holds at the start and is kept holds throughout.
* `Behaviour.leadsTo_of_fair` — a step that is helpful comes in the end, and until then nothing is
  lost.
* `Behaviour.leadsTo_of_measure` — a measure that goes down again and again comes to an end.
* `Behaviour.leadsTo_of_work` — agents that each have work left, which no step adds to, get it done
  where all of them go on.
-/

namespace HyLink
namespace Theory

variable {S L : Type} {M : Machine S L}

/-- An infinite run. -/
structure Behaviour (M : Machine S L) where
  state : ℕ → S
  label : ℕ → L
  step : ∀ i, M.step (state i) (label i) = some (state (i + 1))

namespace Behaviour

variable (b : Behaviour M)

/-- Wherever `P` holds, `Q` holds then or later. -/
def LeadsTo (P Q : S → Prop) : Prop := ∀ i, P (b.state i) → ∃ j, i ≤ j ∧ Q (b.state j)

variable {b} {P Q : S → Prop}

theorem invariant {I : S → Prop} (hstep : ∀ s l s', I s → M.step s l = some s' → I s')
    (h0 : I (b.state 0)) : ∀ i, I (b.state i) := by
  intro i
  induction i with
  | zero => exact h0
  | succ i ih => exact hstep _ _ _ ih (b.step i)

/-- What is kept by every step from some time on is kept. -/
theorem stable {I : S → Prop} {i j : ℕ} (hij : i ≤ j)
    (hstep : ∀ k, i ≤ k → I (b.state k) → I (b.state (k + 1))) (hi : I (b.state i)) :
    I (b.state j) := by
  induction j, hij using Nat.le_induction with
  | base => exact hi
  | succ k hk ih => exact hstep k hk ih

/-- **A helpful step comes in the end.**  Every step keeps `P` or arrives at `Q`, and a helpful one
arrives. -/
theorem leadsTo_of_fair (helpful : L → Prop)
    (hkeep : ∀ i, P (b.state i) → P (b.state (i + 1)) ∨ Q (b.state (i + 1)))
    (hhelp : ∀ i, P (b.state i) → helpful (b.label i) → Q (b.state (i + 1)))
    (hfair : ∀ i, P (b.state i) → ∃ j, i ≤ j ∧ helpful (b.label j)) : b.LeadsTo P Q := by
  intro i hi
  obtain ⟨j, hij, hj⟩ := hfair i hi
  -- until the helpful step, `P` holds or the run has arrived
  have huntil : ∀ k, i ≤ k → k ≤ j → P (b.state k) ∨ ∃ m, i ≤ m ∧ Q (b.state m) := by
    intro k hk
    induction k, hk using Nat.le_induction with
    | base => exact fun _ => .inl hi
    | succ k hk ih =>
      intro hkj
      rcases ih (Nat.le_of_succ_le hkj) with hP | hdone
      · rcases hkeep k hP with hP' | hQ
        · exact .inl hP'
        · exact .inr ⟨k + 1, Nat.le_succ_of_le hk, hQ⟩
      · exact .inr hdone
  rcases huntil j hij le_rfl with hP | hdone
  · exact ⟨j + 1, Nat.le_succ_of_le hij, hhelp j hP hj⟩
  · exact hdone

/-- **A measure comes to an end.**  It goes down as long as the run does not arrive. -/
theorem leadsTo_of_measure (measure : S → ℕ)
    (h : ∀ v, b.LeadsTo (fun s => P s ∧ measure s = v) fun s => Q s ∨ P s ∧ measure s < v) :
    b.LeadsTo P Q := by
  have hall : ∀ v i, P (b.state i) → measure (b.state i) = v → ∃ j, i ≤ j ∧ Q (b.state j) := by
    intro v
    induction v using Nat.strong_induction_on with
    | _ v ih =>
      intro i hi hv
      obtain ⟨j, hij, hQ | ⟨hP, hlt⟩⟩ := h v i ⟨hi, hv⟩
      · exact ⟨j, hij, hQ⟩
      · obtain ⟨k, hjk, hk⟩ := ih _ hlt j hP rfl
        exact ⟨k, hij.trans hjk, hk⟩
  exact fun i hi => hall _ i hi rfl

/-- **Work that nobody adds to gets done.**  Agents `0, …, n - 1` have work left until the run
arrives; an agent with work lowers it when it goes on, and in the end it goes on. -/
theorem leadsTo_of_work (n : ℕ) (work : S → ℕ → ℕ) (go : ℕ → L)
    (hkeep : ∀ s l s', P s → M.step s l = some s' →
      Q s' ∨ P s' ∧ ∀ a < n, work s' a ≤ work s a)
    (hgo : ∀ s a s', P s → a < n → 0 < work s a → M.step s (go a) = some s' →
      Q s' ∨ work s' a < work s a)
    (hleft : ∀ s, P s → ∃ a < n, 0 < work s a)
    (hfair : ∀ i, P (b.state i) → ∀ a < n, 0 < work (b.state i) a →
      ∃ j, i ≤ j ∧ b.label j = go a) : b.LeadsTo P Q := by
  refine leadsTo_of_measure (fun s => ∑ a ∈ Finset.range n, work s a) fun v i ⟨hi, hv⟩ => ?_
  obtain ⟨a, ha, hpos⟩ := hleft _ hi
  -- nobody has gone on so far as to lower the work of an agent
  have hstill : b.LeadsTo (fun s => P s ∧ ∀ a < n, work s a = work (b.state i) a)
      fun s => Q s ∨ P s ∧ ∑ a ∈ Finset.range n, work s a < v := by
    refine leadsTo_of_fair (fun l => l = go a) (fun k ⟨hk, hwork⟩ => ?_)
      (fun k ⟨hk, hwork⟩ hlabel => ?_) fun k ⟨hk, hwork⟩ => ?_
    · rcases hkeep _ _ _ hk (b.step k) with hQ | ⟨hP, hle⟩
      · exact .inr (.inl hQ)
      · by_cases hsame : ∀ a < n, work (b.state (k + 1)) a = work (b.state i) a
        · exact .inl ⟨hP, hsame⟩
        · push Not at hsame
          obtain ⟨c, hc, hne⟩ := hsame
          refine .inr (.inr ⟨hP, ?_⟩)
          rw [← hv]
          refine Finset.sum_lt_sum (fun d hd => ?_) ⟨c, Finset.mem_range.2 hc, ?_⟩
          · exact (hle d (Finset.mem_range.1 hd)).trans (hwork d (Finset.mem_range.1 hd)).le
          · exact lt_of_le_of_ne ((hle c hc).trans (hwork c hc).le) hne
    · have hstep := b.step k
      rw [hlabel] at hstep
      rcases hkeep _ _ _ hk hstep with hQ | ⟨hP, hle⟩
      · exact .inl hQ
      · rcases hgo _ a _ hk ha (by rw [hwork a ha]; exact hpos) hstep with hQ | hlt
        · exact .inl hQ
        · refine .inr ⟨hP, ?_⟩
          rw [← hv]
          refine Finset.sum_lt_sum (fun d hd => ?_) ⟨a, Finset.mem_range.2 ha, ?_⟩
          · exact (hle d (Finset.mem_range.1 hd)).trans (hwork d (Finset.mem_range.1 hd)).le
          · exact hlt.trans_le (hwork a ha).le
    · exact hfair k hk a ha (by rw [hwork a ha]; exact hpos)
  exact hstill i ⟨hi, fun _ _ => rfl⟩

end Behaviour

end Theory
end HyLink
