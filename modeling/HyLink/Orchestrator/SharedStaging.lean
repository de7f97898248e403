import HyLink.Orchestrator.StreamOrder

/-!
# The staging buffer that all collectives share

Where the fast library has no V-collective, a hybrid collective packs its fast part: into
`pcie_recvbuf` of the domain if it fits there, otherwise into a buffer of its own.  All accesses to
it are operations on the user's stream, or a copy in a callback of that stream; nothing makes one
stream wait for the packed data of another one.

* `Shared.step` — the streams, with the collectives that have taken `pcie_recvbuf`; no collective
  allocates or frees it.
* `Shared.Exclusive` — nobody writes there between the first write and the last read of a
  collective.
* `Shared.ordered` — the condition on a call.
* `of_script` — a collective touches its own packed data only.
-/

namespace HyLink
namespace Orchestrator
namespace Streams

/-! ## The buffer and who uses it -/

/-- `pcie_recvbuf`, as `InitPCIeForDomain` has allocated it. -/
structure Recvbuf where
  buffer : ℕ
  size : ℕ
  deriving DecidableEq, Repr

/-- The streams of a domain and its staging buffer. -/
structure Shared where
  streams : State
  recvbuf : Option Recvbuf
  /-- The collectives that stage in `pcie_recvbuf`, each with the allocation it took; the last one
  comes first. -/
  users : List (Call × ℕ)

section

variable (cfg : Config) (nranks : ℕ)

/-- The packed bytes of all ranks fit: `pack_bytes <= domain->pcie_recvbuf_size()`. -/
def fits (recvbuf : Option Recvbuf) (plan : Plan) : Bool :=
  recvbuf.any fun b => nranks * plan.fastBytes ≤ b.size

/-- The branch of a collective that looks for a staging buffer. -/
def stages (call : Call) : Bool :=
  usesPcie cfg call && hybrid call && !cfg.hasV call.kind && decide (call.kind ≠ .allReduce)

/-- The collective that a call adds, if it stages in `pcie_recvbuf`. -/
def Shared.newUsers (st : Shared) (call : Call) : List (Call × ℕ) :=
  if stages cfg call && fits nranks st.recvbuf call.plan then
    (st.recvbuf.map fun b => (call, b.buffer)).toList
  else []

def Shared.step (st : Shared) (l : Label) : Option Shared :=
  match l with
  | .call s kind plan outcome =>
    let call := st.streams.newCall s kind plan outcome
    -- no allocation can fail where the shared buffer is taken
    if stages cfg call && fits nranks st.recvbuf plan && !outcome.staging then none
    else
      (Streams.step cfg st.streams l).map fun next =>
        { st with streams := next, users := st.newUsers cfg nranks call ++ st.users }
  | _ => (Streams.step cfg st.streams l).map fun next => { st with streams := next }

def sharedMachine : Theory.Machine Shared Label := ⟨Shared.step cfg nranks⟩

end

def Shared.start (recvbuf : Option Recvbuf) : Shared := ⟨Streams.start, recvbuf, []⟩

/-! ## The accesses -/

/-- The operation of a staged collective on the user's stream, counted from 0, writes to the
staging buffer: the copies that pack the data, or the fast call that gathers there. -/
def Call.writesStaging (call : Call) (k : ℕ) : Bool :=
  match call.kind with
  | .allReduce => false
  | .allGather => call.outcome.fast && decide (k = 0)
  | .reduceScatter => decide (k = 0)
  | .allToAll => true

/-- It reads there: the fast call, or the copies that merge. -/
def Call.readsStaging (call : Call) (k : ℕ) : Bool :=
  match call.kind with
  | .allReduce => false
  | .allGather => !call.outcome.fast || decide (k = 1)
  | .reduceScatter | .allToAll => decide (k = 1)

/-- How many operations of the collective come before a position of its stream. -/
def State.turn (st : State) (call : Call) (p : ℕ) : ℕ :=
  ((st.ops (.user call.s)).take p).count (.fast call.c)

/-- The collective has begun to write. -/
def State.Written (st : State) (call : Call) : Prop :=
  ∃ p, (p < st.done (.user call.s) ∨
      p = st.done (.user call.s) ∧ st.running (.user call.s) = true) ∧
    (st.ops (.user call.s))[p]? = some (.fast call.c) ∧
    call.writesStaging (st.turn call p) = true

/-- A write of the collective is running. -/
def State.Writing (st : State) (call : Call) : Prop :=
  st.running (.user call.s) = true ∧
    (st.ops (.user call.s))[st.done (.user call.s)]? = some (.fast call.c) ∧
    call.writesStaging (st.turn call (st.done (.user call.s))) = true

/-- The call of the collective has not returned, and puts a reading operation on its stream, or
registers a merge. -/
def Thread.ToRead (st : State) (call : Call) (t : Thread) : Prop :=
  t.call.c = call.c ∧
    ((∃ i, t.rest[i]? = some (.enqueue (.user call.s) (.fast call.c)) ∧
        call.readsStaging (st.turn call (st.ops (.user call.s)).length +
          (t.rest.take i).count (.enqueue (.user call.s) (.fast call.c))) = true) ∨
      ∃ p launched, .complete p launched ∈ t.rest ∧ p.merges = true)

/-- A read of the collective has still to finish: on its stream, by a callback, or after what its
call has still to do. -/
def State.ToRead (st : State) (call : Call) : Prop :=
  (∃ p, st.done (.user call.s) ≤ p ∧ (st.ops (.user call.s))[p]? = some (.fast call.c) ∧
      call.readsStaging (st.turn call p) = true) ∨
    (∃ i p, st.taken call.s ≤ i ∧ (st.registered call.s)[i]? = some p ∧ p.call = call.c ∧
      p.merges = true) ∨
    ∃ t, st.thread call.s = some t ∧ t.ToRead st call

/-- **Exclusive use.**  Nobody else writes to the staging buffer between the first write and the
last read of a collective. -/
def Shared.Exclusive (st : Shared) : Prop :=
  ∀ u ∈ st.users, ∀ v ∈ st.users, u.1.c ≠ v.1.c →
    st.streams.Written u.1 → st.streams.ToRead u.1 → ¬ st.streams.Writing v.1

/-! ## The condition -/

/-- A pending collective is merged by its callback. -/
def Pending.mergeOf (c : ℕ) (p : Pending) : Bool := decide (p.call = c) && p.merges

/-- The collective is through with the staging buffer. -/
def State.through (st : State) (call : Call) : Bool :=
  ((st.thread call.s).all fun t => t.call.c ≠ call.c) &&
    (((st.ops (.user call.s)).drop (st.done (.user call.s))).all fun op => op ≠ .fast call.c) &&
    ((st.registered call.s).drop (st.taken call.s)).all fun p => !p.mergeOf call.c

/-- All that the collective does there is on stream `s` already, with the callback that merges. -/
def State.ahead (st : State) (call : Call) (s : ℕ) : Bool :=
  decide (call.s = s) &&
    ((st.registered s).drop (callbacks (st.ops (.user s)))).all fun p => !p.mergeOf call.c

/-- A collective that takes the shared buffer is called on the stream of those that are not through
with it. -/
def Shared.ordered (cfg : Config) (nranks : ℕ) (st : Shared) : Label → Bool
  | .call s kind plan outcome =>
    let call := st.streams.newCall s kind plan outcome
    !(stages cfg call && fits nranks st.recvbuf plan) ||
      st.users.all fun u => st.streams.through u.1 || st.streams.ahead u.1 s
  | _ => true

variable {cfg : Config} {call : Call}

/-! ## Whose actions -/

/-- What a call of the host may do to the packed data: only its own collective's. -/
def Action.Of (call : Call) : Action → Prop
  | .enqueue q op => op ≠ .callback ∧ ∀ c, op = .fast c → q = .user call.s ∧ c = call.c
  | .complete p _ => p.call = call.c
  | .synchronize _ => True

theorem ofAll_append {l l' : List Action} (h : ∀ a ∈ l, a.Of call) (h' : ∀ a ∈ l', a.Of call) :
    ∀ a ∈ l ++ l', a.Of call := fun a ha =>
  (List.mem_append.1 ha).elim (h a) (h' a)

theorem of_enqueueFast : ∀ a ∈ enqueueFast call, a.Of call := by
  unfold enqueueFast
  split <;> simp [Action.Of]

theorem of_copies : ∀ a ∈ copies call, a.Of call := by
  simp [copies, Action.Of]

theorem of_inputDependency : ∀ a ∈ (inputDependency cfg call).1, a.Of call := by
  unfold inputDependency
  simp only
  repeat' split
  all_goals simp [Action.Of]

theorem of_completionDependency : ∀ a ∈ completionDependency cfg call, a.Of call := by
  unfold completionDependency
  simp only
  repeat' split
  all_goals simp [Action.Of]

theorem of_syncBeforeCallback : ∀ a ∈ syncBeforeCallback cfg call, a.Of call := by
  unfold syncBeforeCallback
  split <;> simp [Action.Of]

theorem of_enqueuePcie : ∀ a ∈ enqueuePcie cfg call, a.Of call := by
  unfold enqueuePcie
  repeat' split
  all_goals simp [Action.Of]

theorem of_complete (usedPcie : Bool) : (complete cfg call usedPcie).Of call := rfl

theorem of_pcieAndCompletion {merge : List Action} (h : ∀ a ∈ merge, a.Of call) :
    ∀ a ∈ pcieAndCompletion cfg call merge, a.Of call := by
  unfold pcieAndCompletion
  refine ofAll_append (ofAll_append (ofAll_append (ofAll_append of_enqueuePcie
    of_completionDependency) of_syncBeforeCallback) h) fun a ha => ?_
  rw [List.mem_singleton.1 ha]
  exact of_complete true

theorem of_fastOnly (callback : Bool) : ∀ a ∈ fastOnly cfg call callback, a.Of call := by
  unfold fastOnly
  refine ofAll_append of_enqueueFast fun a ha => ?_
  split at ha
  · rw [List.mem_singleton.1 ha]
    exact of_complete false
  · cases ha

theorem of_afterInput {rest : List Action} (h : ∀ a ∈ rest, a.Of call) :
    ∀ a ∈ afterInput cfg call rest, a.Of call := by
  unfold afterInput
  refine ofAll_append of_inputDependency fun a ha => ?_
  split at ha
  · exact h a ha
  · cases ha

/-- **A collective's script** touches its own packed data only. -/
theorem of_script : ∀ a ∈ script cfg call, a.Of call := by
  have hnone : ∀ a ∈ ([] : List Action), a.Of call := nofun
  have hfast : ∀ a ∈ enqueueFast call, a.Of call := of_enqueueFast
  have hcopies : ∀ a ∈ copies call, a.Of call := of_copies
  unfold script
  split
  · unfold allReduceScript
    split
    · refine of_afterInput (ofAll_append ?_ (of_pcieAndCompletion hnone))
      split
      · exact hfast
      · exact hnone
    · exact of_fastOnly _
  · unfold allGatherScript
    repeat' split
    · exact of_afterInput (ofAll_append hfast (of_pcieAndCompletion hnone))
    · exact of_afterInput (ofAll_append hfast (of_pcieAndCompletion hcopies))
    · exact of_fastOnly _
    · exact of_afterInput (of_pcieAndCompletion hnone)
    · exact of_fastOnly _
  · unfold reduceScatterScript
    repeat' split
    · exact of_afterInput (ofAll_append hfast (of_pcieAndCompletion hnone))
    · exact of_afterInput (ofAll_append (ofAll_append hcopies hfast) (of_pcieAndCompletion hnone))
    · exact of_fastOnly _
    · exact of_afterInput (of_pcieAndCompletion hnone)
    · exact of_fastOnly _
  · unfold allToAllScript
    repeat' split
    · exact ofAll_append hfast (of_pcieAndCompletion hnone)
    · exact ofAll_append (ofAll_append hcopies hfast) (of_pcieAndCompletion hnone)
    · exact of_fastOnly _
    · exact of_pcieAndCompletion hnone
    · exact of_fastOnly _

end Streams
end Orchestrator
end HyLink
