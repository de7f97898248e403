import HyLink.Theory.Machine
import HyLink.Orchestrator.Planner
import Mathlib.Logic.Function.Basic

/-!
# The streams of a collective

A collective is a row of calls by which the host puts operations on the user's stream
and on the PCIe stream of the domain.  A device works through every stream in order; a
wait holds its stream until the token or the event it waits for is there.

* `Streams.script` — the calls of a collective, for every branch of the source and every
  outcome of the calls that can fail.
* `Streams.step` — one call, or the start or the end of an operation on a stream.
-/

namespace HyLink
namespace Orchestrator
namespace Streams

inductive Kind
  | allReduce
  | allGather
  | reduceScatter
  | allToAll
  deriving DecidableEq, Repr

/-- `kTimerBackend`. -/
inductive TimerBackend
  | off
  | cuda
  | acl
  deriving DecidableEq, Repr

structure Config where
  backend : TimerBackend
  /-- `domain->pcie_stream()` is not null. -/
  pcieStream : Bool
  /-- `domain->controller` is not null. -/
  controller : Bool
  feedback : Bool
  fastOnlyBwLog : Bool
  syncBeforeCallback : Bool
  /-- The fast library has the V-collective. -/
  hasV : Kind → Bool

/-- Which of the calls of one collective succeed. -/
structure Outcome where
  /-- There is a token of the value synchronisation. -/
  ticket : Bool
  inputReady : Bool
  inputWait : Bool
  syncUser : Bool
  /-- There is a staging buffer. -/
  staging : Bool
  fast : Bool
  pcie : Bool
  /-- The two events of the PCIe timer were created. -/
  events : Bool
  startRecorded : Bool
  endRecorded : Bool
  completionWrite : Bool
  completionWait : Bool
  eventWait : Bool
  syncPcie : Bool
  callback : Bool
  deriving DecidableEq, Repr

inductive Queue
  | user (s : ℕ)
  | pcie
  deriving DecidableEq, Repr

/-- The two tokens of a ticket. -/
inductive Token
  | inputReady
  | completion
  deriving DecidableEq, Repr

inductive Op
  /-- Work of the user's. -/
  | work
  /-- Work of the fast path of collective `c`: its call, or copies before or after it. -/
  | fast (c : ℕ)
  /-- The PCIe transfer of collective `c`. -/
  | pcie (c : ℕ)
  /-- `aclrtValueWrite` of the token of stream `s`. -/
  | write (t : Token) (s seq : ℕ)
  /-- `aclrtValueWait`. -/
  | wait (t : Token) (s seq : ℕ)
  /-- The end event of the PCIe timer of collective `c`. -/
  | record (c : ℕ)
  | waitEvent (c : ℕ)
  /-- `HostCompletionFn`. -/
  | callback
  deriving DecidableEq, Repr

/-- What `OnStreamSynchronized` does for a collective.  The fast timer, for which it also
waits, is recorded on the callback's own stream. -/
structure Pending where
  call : ℕ
  /-- It copies the packed result to the user's buffer. -/
  merges : Bool
  /-- It waits for the PCIe timer. -/
  waits : Bool
  deriving DecidableEq, Repr

/-- A call of the host. -/
inductive Action
  | enqueue (q : Queue) (op : Op)
  | synchronize (q : Queue)
  /-- `RegisterStreamPending`, and the launch of the callback where it succeeds. -/
  | complete (p : Pending) (launched : Bool)
  deriving DecidableEq, Repr

/-! ## The calls of a collective -/

/-- A collective that is called: its number, its stream and its ticket.  Stream 0 is the
null handle. -/
structure Call where
  c : ℕ
  s : ℕ
  seq : ℕ
  kind : Kind
  plan : Plan
  outcome : Outcome
  deriving DecidableEq, Repr

section Script

variable (cfg : Config) (call : Call)

/-- The branches that start a PCIe transfer. -/
def usesPcie : Bool :=
  call.plan.usePcie && decide (call.plan.pcieBytes ≠ 0) && cfg.pcieStream

def hybrid : Bool := decide (call.plan.fastBytes ≠ 0)

/-- `BeginValueSyncSubmission` is not null. -/
def valueSync : Bool :=
  decide (cfg.backend = .acl) && decide (call.s ≠ 0) && cfg.pcieStream && call.outcome.ticket

/-- `CanUseRecordedEvents` of the PCIe timer. -/
def timerUsable : Bool :=
  decide (cfg.backend ≠ .off) && call.outcome.events && call.outcome.startRecorded &&
    call.outcome.endRecorded

/-- The staged branch: no V-collective, but a staging buffer. -/
def staged : Bool := hybrid call && !cfg.hasV call.kind && call.outcome.staging

/-- `PcieWaitForUserInputIfNeeded`, and what it returns. -/
def inputDependency : List Action × Bool :=
  let o := call.outcome
  if call.s = 0 then ([], false)
  else
    let write := Action.enqueue (.user call.s) (.write .inputReady call.s call.seq)
    let wait := Action.enqueue .pcie (.wait .inputReady call.s call.seq)
    let sync := if o.syncUser then [Action.synchronize (.user call.s)] else []
    if valueSync cfg call && o.inputReady then
      if o.inputWait then ([write, wait], true) else (write :: sync, o.syncUser)
    else (sync, o.syncUser)

/-- `PcieCompleteOnUserStreamIfNeeded`. -/
def completionDependency : List Action :=
  let o := call.outcome
  if call.s = 0 then []
  else
    let write := Action.enqueue .pcie (.write .completion call.s call.seq)
    let wait := Action.enqueue (.user call.s) (.wait .completion call.s call.seq)
    let event :=
      if timerUsable cfg call && o.eventWait then
        [Action.enqueue (.user call.s) (.waitEvent call.c)]
      else []
    if valueSync cfg call && o.completionWrite then
      if o.completionWait then [write, wait] else write :: event
    else event

/-- `SyncPCIeStreamBeforeCallbackIfEnabled`. -/
def syncBeforeCallback : List Action :=
  if cfg.syncBeforeCallback && call.outcome.syncPcie then [.synchronize .pcie] else []

def enqueueFast : List Action :=
  if call.outcome.fast then [.enqueue (.user call.s) (.fast call.c)] else []

/-- The PCIe call between the start and the stop of its timer. -/
def enqueuePcie : List Action :=
  (if call.outcome.pcie then [.enqueue .pcie (.pcie call.c)] else []) ++
    if decide (cfg.backend ≠ .off) && call.outcome.events && call.outcome.endRecorded then
      [.enqueue .pcie (.record call.c)]
    else []

/-- `EnqueueCollectiveCompletionCallback` launches the callback. -/
def launches : Bool :=
  decide (call.s ≠ 0) && decide (cfg.backend ≠ .off) && call.outcome.callback

/-- The callback of a staged AllToAll copies its result. -/
def callbackMerges : Bool := cfg.controller && decide (call.kind = .allToAll) && staged cfg call

def complete (usedPcie : Bool) : Action :=
  .complete
    ⟨call.c, usedPcie && callbackMerges cfg call,
      usedPcie && cfg.controller && cfg.feedback && timerUsable cfg call⟩
    (launches cfg call)

/-- The copies of the staged branches on the user's stream. -/
def copies : List Action := [.enqueue (.user call.s) (.fast call.c)]

/-- The PCIe part and what comes after it. -/
def pcieAndCompletion (merge : List Action) : List Action :=
  enqueuePcie cfg call ++ completionDependency cfg call ++ syncBeforeCallback cfg call ++ merge ++
    [complete cfg call true]

/-- The fast library alone. -/
def fastOnly (callback : Bool) : List Action :=
  enqueueFast call ++ if callback then [complete cfg call false] else []

/-- After the input dependency, where there is one. -/
def afterInput (rest : List Action) : List Action :=
  (inputDependency cfg call).1 ++ if (inputDependency cfg call).2 then rest else []

/-- `VirtualCollective::AllReduce`. -/
def allReduceScript : List Action :=
  if usesPcie cfg call then
    afterInput cfg call
      ((if hybrid call then enqueueFast call else []) ++ pcieAndCompletion cfg call [])
  else fastOnly cfg call cfg.fastOnlyBwLog

/-- `VirtualCollective::AllGather`. -/
def allGatherScript : List Action :=
  if usesPcie cfg call then
    if hybrid call then
      if cfg.hasV .allGather then
        afterInput cfg call (enqueueFast call ++ pcieAndCompletion cfg call [])
      else if call.outcome.staging then
        afterInput cfg call (enqueueFast call ++ pcieAndCompletion cfg call (copies call))
      else fastOnly cfg call true
    else afterInput cfg call (pcieAndCompletion cfg call [])
  else fastOnly cfg call cfg.fastOnlyBwLog

/-- `VirtualCollective::ReduceScatter`. -/
def reduceScatterScript : List Action :=
  if usesPcie cfg call then
    if hybrid call then
      if cfg.hasV .reduceScatter then
        afterInput cfg call (enqueueFast call ++ pcieAndCompletion cfg call [])
      else if call.outcome.staging then
        afterInput cfg call (copies call ++ enqueueFast call ++ pcieAndCompletion cfg call [])
      else fastOnly cfg call true
    else afterInput cfg call (pcieAndCompletion cfg call [])
  else fastOnly cfg call cfg.fastOnlyBwLog

/-- `VirtualCollective::AllToAll`, which has no input dependency. -/
def allToAllScript : List Action :=
  if usesPcie cfg call then
    if hybrid call then
      if cfg.hasV .allToAll then enqueueFast call ++ pcieAndCompletion cfg call []
      else if call.outcome.staging then
        copies call ++ enqueueFast call ++ pcieAndCompletion cfg call []
      else fastOnly cfg call true
    else pcieAndCompletion cfg call []
  else fastOnly cfg call cfg.fastOnlyBwLog

/-- The branches that begin a submission of the value synchronisation. -/
def begins : Bool :=
  usesPcie cfg call && (decide (call.kind = .allReduce) || !hybrid call || cfg.hasV call.kind ||
    call.outcome.staging)

/-- The collective takes a sequence number. -/
def takesTicket : Bool := begins cfg call && valueSync cfg call

def script : List Action :=
  match call.kind with
  | .allReduce => allReduceScript cfg call
  | .allGather => allGatherScript cfg call
  | .reduceScatter => reduceScatterScript cfg call
  | .allToAll => allToAllScript cfg call

end Script

/-! ## The machine -/

/-- `ValueSyncContext::kRingSize`. -/
def kRingSize : ℕ := 64

/-- A thread of the user's in the middle of a collective. -/
structure Thread where
  call : Call
  rest : List Action
  /-- The operations of the stream it synchronises with that have to be finished. -/
  awaiting : Option ℕ
  /-- The operations that were on the user's stream when the collective was called. -/
  before : ℕ

structure State where
  /-- All operations a stream was ever given. -/
  ops : Queue → List Op
  /-- How many of them are finished. -/
  done : Queue → ℕ
  /-- The next one has started. -/
  running : Queue → Bool
  /-- `tokens_` of a stream. -/
  tokens : Token → ℕ → ℕ → ℕ
  /-- `next_sequence_` of a stream. -/
  nextSequence : ℕ → ℕ
  /-- The end event of a collective's PCIe timer is complete. -/
  event : ℕ → Bool
  /-- All that was ever in `stream_to_pending_` of a stream. -/
  registered : ℕ → List Pending
  /-- How many of these were taken. -/
  taken : ℕ → ℕ
  thread : ℕ → Option Thread
  /-- The collectives called so far. -/
  calls : ℕ
  /-- The collectives that have returned, each with the operations that were on its stream
  when it was called and when it returned. -/
  returned : List (Call × ℕ × ℕ)

inductive Label
  /-- The user puts work on stream `s`. -/
  | work (s : ℕ)
  | call (s : ℕ) (kind : Kind) (plan : Plan) (outcome : Outcome)
  /-- The next call of the host for stream `s`. -/
  | host (s : ℕ)
  /-- The next operation of a stream starts, or it finishes. -/
  | device (q : Queue)
  deriving DecidableEq, Repr

variable (cfg : Config) (st : State)

def State.enqueue (q : Queue) (op : Op) : State :=
  { st with ops := Function.update st.ops q (st.ops q ++ [op]) }

def State.setThread (s : ℕ) (t : Option Thread) : State :=
  { st with thread := Function.update st.thread s t }

/-- The operation may finish: what it waits for is there. -/
def State.ready (q : Queue) : Op → Bool
  | .wait t s seq => decide (seq ≤ st.tokens t s (seq % kRingSize))
  | .waitEvent c => st.event c
  | .callback =>
    match q with
    | .user s =>
      match (st.registered s)[st.taken s]? with
      | some p => !p.waits || st.event p.call
      | none => true
    | .pcie => true
  | _ => true

/-- What an operation does when it finishes. -/
def State.effect (q : Queue) : Op → State
  | .write t s seq =>
    { st with
      tokens := fun t' s' slot =>
        if t' = t ∧ s' = s ∧ slot = seq % kRingSize then seq else st.tokens t' s' slot }
  | .record c => { st with event := Function.update st.event c true }
  | .callback =>
    match q with
    | .user s =>
      if st.taken s < (st.registered s).length then
        { st with taken := Function.update st.taken s (st.taken s + 1) }
      else st
    | .pcie => st
  | _ => st

/-- The call whose number is next, on stream `s`. -/
def State.newCall (s : ℕ) (kind : Kind) (plan : Plan) (outcome : Outcome) : Call :=
  ⟨st.calls, s, st.nextSequence s, kind, plan, outcome⟩

def step : Label → Option State
  | .work s => if (st.thread s).isNone then some (st.enqueue (.user s) .work) else none
  | .call s kind plan outcome =>
    if (st.thread s).isNone then
      let call := st.newCall s kind plan outcome
      some { st with
        thread := Function.update st.thread s
          (some ⟨call, script cfg call, none, (st.ops (.user s)).length⟩)
        nextSequence :=
          if takesTicket cfg call then
            Function.update st.nextSequence s (st.nextSequence s + 1)
          else st.nextSequence
        calls := st.calls + 1 }
    else none
  | .host s =>
    match st.thread s with
    | none => none
    | some t =>
      match t.rest with
      | [] =>
        some { st.setThread s none with
          returned := (t.call, t.before, (st.ops (.user s)).length) :: st.returned }
      | .enqueue q op :: rest =>
        some ((st.enqueue q op).setThread s (some { t with rest := rest }))
      | .synchronize q :: rest =>
        match t.awaiting with
        | none => some (st.setThread s (some { t with awaiting := some (st.ops q).length }))
        | some n =>
          if n ≤ st.done q then
            some (st.setThread s (some { t with rest := rest, awaiting := none }))
          else none
      | .complete p launched :: rest =>
        let registered :=
          { st with registered := Function.update st.registered s (st.registered s ++ [p]) }
        let next := if launched then registered.enqueue (.user s) .callback else registered
        some (next.setThread s (some { t with rest := rest }))
  | .device q =>
    match (st.ops q)[st.done q]? with
    | none => none
    | some op =>
      if st.running q then
        if st.ready q op then
          some { st.effect q op with
            done := Function.update st.done q (st.done q + 1)
            running := Function.update st.running q false }
        else none
      else some { st with running := Function.update st.running q true }

def machine : Theory.Machine State Label := ⟨step cfg⟩

def start : State where
  ops := fun _ => []
  done := fun _ => 0
  running := fun _ => false
  tokens := fun _ _ _ => 0
  nextSequence := fun _ => 1
  event := fun _ => false
  registered := fun _ => []
  taken := fun _ => 0
  thread := fun _ => none
  calls := 0
  returned := []

end Streams
end Orchestrator
end HyLink
