import Mathlib.Data.List.Basic
import Mathlib.Logic.Function.Basic

/-!
# Queues that are served in order

A family of queues and the history of what has been served.  An operation can *need* others: then
they are in front of it on its queue, or have been served.

* `Ordered` — every operation has what it needs in front of it.
* `Ordered.enqueue`, `Ordered.serve` — an operation is put on a queue, or served.
* `Ordered.served` — an operation that is served has all it needs served.
-/

namespace HyLink
namespace Theory

/-- The operations that wait on each queue, and those that were served on any. -/
structure Fifo (κ α : Type) where
  waiting : κ → List α
  ran : List α

namespace Fifo

variable {κ α : Type} [DecidableEq κ]

def enqueue (f : Fifo κ α) (k : κ) (op : α) : Fifo κ α :=
  { f with waiting := Function.update f.waiting k (f.waiting k ++ [op]) }

/-- The first operation of a queue is served. -/
def serve (f : Fifo κ α) (k : κ) : Option (α × Fifo κ α) :=
  match f.waiting k with
  | [] => none
  | op :: rest =>
    some (op, { waiting := Function.update f.waiting k rest, ran := f.ran ++ [op] })

/-- The operation was served, or waits on the queue. -/
def Issued (f : Fifo κ α) (k : κ) (op : α) : Prop := op ∈ f.ran ∨ op ∈ f.waiting k

variable {f f' : Fifo κ α} {k k' : κ} {op op' : α}

@[simp] theorem enqueue_ran : (f.enqueue k op).ran = f.ran := rfl

@[simp] theorem enqueue_waiting_self : (f.enqueue k op).waiting k = f.waiting k ++ [op] :=
  Function.update_self _ _ _

theorem enqueue_waiting_ne (h : k' ≠ k) : (f.enqueue k op).waiting k' = f.waiting k' :=
  Function.update_of_ne h _ _

theorem mem_enqueue_waiting :
    op' ∈ (f.enqueue k op).waiting k' ↔ op' ∈ f.waiting k' ∨ k' = k ∧ op' = op := by
  by_cases h : k' = k
  · subst h
    simp
  · rw [enqueue_waiting_ne h]
    simp [h]

theorem Issued.enqueue (h : f.Issued k' op') : (f.enqueue k op).Issued k' op' :=
  h.imp_right fun h => mem_enqueue_waiting.2 (.inl h)

theorem issued_enqueue : (f.enqueue k op).Issued k op :=
  .inr (mem_enqueue_waiting.2 (.inr ⟨rfl, rfl⟩))

/-- What an operation that is served was, and what it leaves. -/
theorem serve_cases (h : f.serve k = some (op, f')) :
    ∃ rest, f.waiting k = op :: rest ∧ f'.waiting = Function.update f.waiting k rest ∧
      f'.ran = f.ran ++ [op] := by
  unfold serve at h
  cases hw : f.waiting k with
  | nil =>
    rw [hw] at h
    cases h
  | cons x rest =>
    rw [hw] at h
    cases h
    exact ⟨rest, rfl, rfl, rfl⟩

theorem mem_ran_serve (h : f.serve k = some (op, f')) :
    op' ∈ f'.ran ↔ op' ∈ f.ran ∨ op' = op := by
  obtain ⟨rest, -, -, hran⟩ := serve_cases h
  rw [hran]
  simp

theorem mem_waiting_of_serve (h : f.serve k = some (op, f')) (hmem : op' ∈ f'.waiting k') :
    op' ∈ f.waiting k' := by
  obtain ⟨rest, hw, hwait, -⟩ := serve_cases h
  rw [hwait] at hmem
  by_cases hk : k' = k
  · subst hk
    rw [Function.update_self] at hmem
    rw [hw]
    exact List.mem_cons_of_mem _ hmem
  · rwa [Function.update_of_ne hk] at hmem

theorem mem_waiting_serve (h : f.serve k = some (op, f')) : op ∈ f.waiting k := by
  obtain ⟨rest, hw, -, -⟩ := serve_cases h
  rw [hw]
  exact List.mem_cons_self

theorem Issued.serve (h : f.serve k = some (op, f')) (hop : f.Issued k' op') :
    f'.Issued k' op' := by
  obtain ⟨rest, hw, hwait, hran⟩ := serve_cases h
  rcases hop with hop | hop
  · exact .inl ((mem_ran_serve h).2 (.inl hop))
  · by_cases hk : k' = k
    · subst hk
      rw [hw, List.mem_cons] at hop
      rcases hop with rfl | hop
      · exact .inl ((mem_ran_serve h).2 (.inr rfl))
      · refine .inr ?_
        rw [hwait, Function.update_self]
        exact hop
    · refine .inr ?_
      rw [hwait, Function.update_of_ne hk]
      exact hop

/-- Serving a queue moves an operation from it to the history. -/
theorem count_serve [DecidableEq α] (h : f.serve k = some (op, f')) (hk : op' = op → k' = k) :
    f'.ran.count op' + (f'.waiting k').count op' = f.ran.count op' + (f.waiting k').count op' := by
  obtain ⟨rest, hw, hwait, hran⟩ := serve_cases h
  rw [hran, hwait, List.count_append]
  by_cases hk' : k' = k
  · subst hk'
    rw [Function.update_self, hw, List.count_cons, List.count_cons, List.count_nil]
    omega
  · have hne : op ≠ op' := fun h => hk' (hk h.symm)
    rw [Function.update_of_ne hk', List.count_singleton]
    simp [hne]

/-! ## Needs -/

/-- What an operation needs is in front of it on its queue, or was served. -/
structure Ordered (needs : α → α → Prop) (f : Fifo κ α) : Prop where
  waiting : ∀ k front op rest, f.waiting k = front ++ op :: rest →
    ∀ p, needs op p → p ∈ f.ran ∨ p ∈ front
  ran : ∀ op ∈ f.ran, ∀ p, needs op p → p ∈ f.ran

variable {needs : α → α → Prop}

omit [DecidableEq κ] in
theorem Ordered.start : Ordered needs (⟨fun _ => [], []⟩ : Fifo κ α) where
  waiting := by simp
  ran := by simp

/-- **An operation that is put on a queue** has what it needs on this queue, or served. -/
theorem Ordered.enqueue (h : Ordered needs f) (hop : ∀ p, needs op p → f.Issued k p) :
    Ordered needs (f.enqueue k op) := by
  refine ⟨?_, h.ran⟩
  intro k' front x rest hw p hp
  by_cases hk : k' = k
  · subst hk
    rw [enqueue_waiting_self] at hw
    rcases List.append_eq_append_iff.1 hw with ⟨c, hfront, hc⟩ | ⟨c, hold, hc⟩
    · -- the operation is the new one
      have hlast : c = [] ∧ op = x := by
        cases c with
        | nil => exact ⟨rfl, (List.cons.inj hc).1⟩
        | cons y c => simp at hc
      obtain ⟨rfl, rfl⟩ := hlast
      rw [List.append_nil] at hfront
      rw [hfront]
      exact hop p hp
    · cases c with
      | nil =>
        rw [List.append_nil] at hold
        obtain rfl : x = op := by simpa using (List.cons.inj hc).1
        rw [← hold]
        exact hop p hp
      | cons y c =>
        obtain ⟨rfl, -⟩ := List.cons.inj hc
        exact h.waiting k' front x c hold p hp
  · rw [enqueue_waiting_ne hk] at hw
    exact h.waiting k' front x rest hw p hp

/-- **An operation that is served** has all it needs served. -/
theorem Ordered.served (h : Ordered needs f) (hs : f.serve k = some (op, f')) {p : α}
    (hp : needs op p) : p ∈ f.ran := by
  obtain ⟨rest, hw, -, -⟩ := serve_cases hs
  exact (h.waiting k [] op rest hw p hp).resolve_right List.not_mem_nil

theorem Ordered.serve (h : Ordered needs f) (hs : f.serve k = some (op, f')) :
    Ordered needs f' := by
  obtain ⟨rest, hw, hwait, hran⟩ := serve_cases hs
  refine ⟨?_, ?_⟩
  · intro k' front x tail hx p hp
    rw [hwait] at hx
    rw [hran, List.mem_append, List.mem_singleton]
    by_cases hk : k' = k
    · subst hk
      rw [Function.update_self] at hx
      rw [hx] at hw
      rcases h.waiting k' (op :: front) x tail hw p hp with hp | hp
      · exact .inl (.inl hp)
      · rcases List.mem_cons.1 hp with rfl | hp
        · exact .inl (.inr rfl)
        · exact .inr hp
    · rw [Function.update_of_ne hk] at hx
      exact (h.waiting k' front x tail hx p hp).imp_left .inl
  · intro x hx p hp
    rw [hran, List.mem_append, List.mem_singleton] at hx ⊢
    rcases hx with hx | rfl
    · exact .inl (h.ran x hx p hp)
    · exact .inl (h.served hs hp)

end Fifo

end Theory
end HyLink
