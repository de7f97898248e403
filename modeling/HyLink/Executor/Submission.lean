import HyLink.Theory.Machine
import Mathlib.Data.Nat.Notation
import Mathlib.Logic.Function.Basic

/-!
# Submitting a collective

`GraphExecutor::submit` of one rank and the thread it hands the work to.  A submit
waits for room in the queue, takes the next work sequence number under the
executor's mutex, enqueues the completion wait on the user's stream by a row of
device calls, and pushes the work under the mutex again.  Every device call can
fail, and between two of these steps the thread may take, finish or fail works, or
end.

* `Submission.stepResult` — one step, and what a submit that returns in it returns.
* `Move` — all a step can do, one constructor for every branch of the source.
* `Submission.waits` — the completion waits the user's streams have been given.
-/

namespace HyLink
namespace Executor
namespace Submission

/-- The `pcclResult_t` values of the executor. -/
inductive Result
  | success
  | timeout
  | internalError
  | deviceError
  deriving DecidableEq, Repr

/-- What is fixed when the executor is constructed. -/
structure Config where
  /-- `queue_depth_`. -/
  queueDepth : ℕ
  queueDepth_pos : 0 < queueDepth
  /-- `completion_flag_` is not null. -/
  hasFlag : Bool
  /-- `CompletionFlag::initialized_`. -/
  initialized : Bool
  /-- `use_stream_mem_ops_`. -/
  useStreamMemOps : Bool
  /-- `cold_start_drain_`, zero by default. -/
  coldStartDrain : ℕ

/-- `WorkItem`: where a work is accounted for. -/
structure WorkItem where
  epoch : ℕ
  workSeq : ℕ
  slot : ℕ
  deriving DecidableEq, Repr

/-- The slot and the sequence number the user's stream waits for. -/
def WorkItem.wait (item : WorkItem) : ℕ × ℕ := (item.slot, item.workSeq)

/-- What `prepareUserWait` does one after the other. -/
inductive Call
  /-- The reset stream waits for `wait_done_event`. -/
  | waitReuse (slot : ℕ)
  /-- The host stores to `ready_seq_host` and `prepared_seq`; no device call. -/
  | clearReady (slot workSeq : ℕ)
  /-- A copy of zero to `dev_flag`, on the reset stream. -/
  | clearFlag (slot : ℕ)
  | recordReset (slot : ℕ)
  /-- The user's stream waits for `reset_event`. -/
  | waitReset (slot : ℕ)
  /-- `devStreamWriteValue64` on the user's stream. -/
  | writeReady (slot workSeq : ℕ)
  /-- `devStreamWaitValue64` on the user's stream. -/
  | waitComplete (slot workSeq : ℕ)
  /-- The kernel that publishes the ready sequence and waits for `dev_flag`. -/
  | launchKernel (slot workSeq : ℕ)
  | recordWaitDone (slot : ℕ)
  deriving DecidableEq, Repr

/-- Where the executor thread stands. -/
inductive Worker
  /-- Before `devSetDevice`. -/
  | starting
  /-- At the condition variable. -/
  | idle
  /-- In `runGraph`. -/
  | running
  /-- At `finishCurrentWork`. -/
  | finishing (result : Result)
  | ended
  deriving DecidableEq, Repr

/-- Where the submit that holds `submit_mutex_` stands. -/
inductive Submitting
  | nobody
  | waiting
  /-- It has taken its number. -/
  | reserved (item : WorkItem)
  | preparing (item : WorkItem) (calls : List Call)
  | prepared (item : WorkItem)
  /-- It has pushed its work and drains a cold start. -/
  | draining (item : WorkItem)
  deriving DecidableEq, Repr

structure State where
  workSeqCounter : ℕ
  queue : List WorkItem
  stop : Bool
  lastResult : Result
  /-- `current_epoch_`, `current_work_seq_`, `current_slot_`. -/
  current : WorkItem
  worker : Worker
  submitting : Submitting
  waitDoneRecorded : ℕ → Bool
  /-- The calls that have been made, in order. -/
  calls : List Call
  /-- The completions that have been stored, in order. -/
  signalled : List (ℕ × ℕ)
  /-- A record of every work that was ever queued. -/
  pushed : List WorkItem
  /-- The counter and that record when the present submit was called. -/
  atCall : ℕ × List WorkItem

/-- `busy_`. -/
def State.busy (st : State) : Bool :=
  match st.worker with
  | .running | .finishing _ => true
  | .starting | .idle | .ended => false

/-- The works a submit counts as active or queued. -/
def State.inflight (st : State) : List WorkItem :=
  if st.busy then st.current :: st.queue else st.queue

inductive Label
  | call
  /-- The wait for room is over. -/
  | enter
  | enterTimeout
  /-- The checks before the first device call. -/
  | checkFlag
  /-- The next call of `prepareUserWait`; a device call may fail. -/
  | device (ok : Bool)
  | push
  /-- `waitForIdle` of a cold start is over; the stream synchronisation may fail. -/
  | drained (syncOk : Bool)
  | drainTimeout
  /-- `devSetDevice` of the thread; after an error, the copies for the works in `failed`
  fail. -/
  | setDevice (ok : Bool) (failed : List ℕ)
  | take
  /-- `runGraph` stops with an error. -/
  | runFails (result : Result)
  /-- `runGraph` is through and signals; the copy of the flag may fail. -/
  | signal (ok : Bool)
  /-- `finishCurrentWork`; the copies for the works in `failed` fail. -/
  | finish (failed : List ℕ)
  /-- A `waitForIdle` of somebody else times out. -/
  | idleTimeout
  /-- The destructor stores `stop_`. -/
  | stop
  | threadEnds
  deriving DecidableEq, Repr

variable (cfg : Config)

/-- The work with number `workSeq`. -/
def itemOf (workSeq : ℕ) : WorkItem :=
  ⟨workSeq % 2, workSeq, (workSeq - 1) % cfg.queueDepth⟩

/-- `CompletionFlag::validSlot`, on a flag that is there. -/
def validSlot (slot : ℕ) : Bool :=
  cfg.hasFlag && cfg.initialized && decide (slot < cfg.queueDepth)

def prepareCalls (recorded : Bool) (item : WorkItem) : List Call :=
  (if recorded then [.waitReuse item.slot] else []) ++
  .clearReady item.slot item.workSeq ::
  if cfg.useStreamMemOps then
    [.recordReset item.slot, .waitReset item.slot, .writeReady item.slot item.workSeq,
      .waitComplete item.slot item.workSeq, .recordWaitDone item.slot]
  else
    [.clearFlag item.slot, .recordReset item.slot, .waitReset item.slot,
      .launchKernel item.slot item.workSeq, .recordWaitDone item.slot]

/-- `signalComplete` returns zero; `ok` is the outcome of the copy, where there is one. -/
def signalOk (item : WorkItem) (ok : Bool) : Bool :=
  validSlot cfg item.slot && (cfg.useStreamMemOps || ok)

/-- The works `finishCurrentWork` signals after an error. -/
def State.abandoned (st : State) : List WorkItem :=
  if st.current.workSeq = 0 then st.queue else st.current :: st.queue

/-- `finishCurrentWork`, up to what the thread does next. -/
def finishCurrentWork (st : State) (result : Result) (failed : List ℕ) : State :=
  if result = .success then { st with lastResult := result }
  else
    { st with
      lastResult := result
      signalled := st.signalled ++
        (st.abandoned.filter fun item =>
          signalOk cfg item (decide (item.workSeq ∉ failed))).map WorkItem.wait
      queue := [] }

/-- The call is a host store and cannot fail. -/
def Call.host : Call → Bool
  | .clearReady _ _ => true
  | _ => false

/-- The submit that waits for room may go on. -/
def State.ready (st : State) : Bool :=
  st.stop || decide (st.lastResult ≠ .success) || decide (st.inflight.length < cfg.queueDepth)

/-- The submit returns. -/
def State.leave (st : State) : State := { st with submitting := .nobody }

/-- One step, and the result of the submit that returns in it. -/
def stepResult (st : State) : Label → Option (State × Option Result)
  | .call =>
    match st.submitting with
    | .nobody =>
      some ({ st with submitting := .waiting, atCall := (st.workSeqCounter, st.pushed) }, none)
    | _ => none
  | .enter =>
    match st.submitting with
    | .waiting =>
      if st.ready cfg then
        if st.stop then some (st.leave, some .internalError)
        else if st.lastResult ≠ .success then some (st.leave, some st.lastResult)
        else
          some ({ st with
            workSeqCounter := st.workSeqCounter + 1
            submitting := .reserved (itemOf cfg (st.workSeqCounter + 1)) }, none)
      else none
    | _ => none
  | .enterTimeout =>
    match st.submitting with
    | .waiting =>
      if st.ready cfg then none
      else some ({ st.leave with lastResult := .timeout }, some .timeout)
    | _ => none
  | .checkFlag =>
    match st.submitting with
    | .reserved item =>
      if cfg.hasFlag = false then some (st.leave, some .internalError)
      else if validSlot cfg item.slot = false then some (st.leave, some .deviceError)
      else
        some ({ st with
          submitting :=
            .preparing item (prepareCalls cfg (st.waitDoneRecorded item.slot) item) }, none)
    | _ => none
  | .device ok =>
    match st.submitting with
    | .preparing item (c :: rest) =>
      if ok || c.host then
        some ({ st with
          calls := st.calls ++ [c]
          waitDoneRecorded :=
            if c = .recordWaitDone item.slot then Function.update st.waitDoneRecorded item.slot true
            else st.waitDoneRecorded
          submitting := if rest = [] then .prepared item else .preparing item rest }, none)
      else some (st.leave, some .deviceError)
    | _ => none
  | .push =>
    match st.submitting with
    | .prepared item =>
      let next := { st with queue := st.queue ++ [item], pushed := st.pushed ++ [item] }
      if item.workSeq ≤ cfg.coldStartDrain then some ({ next with submitting := .draining item }, none)
      else some (next.leave, some .success)
    | _ => none
  | .drained syncOk =>
    match st.submitting with
    | .draining _ =>
      if st.inflight = [] then
        some (st.leave,
          some (if st.lastResult ≠ .success then st.lastResult
            else if syncOk then .success else .deviceError))
      else none
    | _ => none
  | .drainTimeout =>
    match st.submitting with
    | .draining _ =>
      if st.inflight = [] then none
      else some ({ st.leave with lastResult := .timeout }, some .timeout)
    | _ => none
  | .setDevice ok failed =>
    if st.worker = .starting then
      if ok then some ({ st with worker := .idle }, none)
      else some ({ finishCurrentWork cfg st .deviceError failed with worker := .ended }, none)
    else none
  | .take =>
    match st.worker, st.queue with
    | .idle, item :: queue =>
      some ({ st with worker := .running, current := item, queue := queue }, none)
    | _, _ => none
  | .runFails result =>
    if st.worker = .running ∧ result ≠ .success then
      some ({ st with worker := .finishing result }, none)
    else none
  | .signal ok =>
    if st.worker = .running then
      if signalOk cfg st.current ok then
        some ({ st with
          signalled := st.signalled ++ [st.current.wait]
          worker := .finishing .success }, none)
      else some ({ st with worker := .finishing .deviceError }, none)
    else none
  | .finish failed =>
    match st.worker with
    | .finishing result =>
      some ({ finishCurrentWork cfg st result failed with worker := .idle }, none)
    | _ => none
  | .idleTimeout =>
    if st.inflight = [] then none else some ({ st with lastResult := .timeout }, none)
  | .stop => some ({ st with stop := true }, none)
  | .threadEnds =>
    if st.worker = .idle ∧ st.stop = true ∧ st.queue = [] then
      some ({ st with worker := .ended }, none)
    else none

def step (st : State) (l : Label) : Option State := (stepResult cfg st l).map Prod.fst

def machine : Theory.Machine State Label := ⟨step cfg⟩

/-- After construction; `lastResult` tells whether the device resources are there. -/
def start (lastResult : Result) : State where
  workSeqCounter := 0
  queue := []
  stop := false
  lastResult := lastResult
  current := ⟨0, 0, 0⟩
  worker := .starting
  submitting := .nobody
  waitDoneRecorded := fun _ => true
  calls := []
  signalled := []
  pushed := []
  atCall := (0, [])

/-! ## What a step can do -/

/-- The work whose number the present submit has taken and not queued yet. -/
def Submitting.held : Submitting → Option WorkItem
  | .reserved item | .preparing item _ | .prepared item => some item
  | .nobody | .waiting | .draining _ => none

/-- The work of the present submit. -/
def Submitting.item : Submitting → Option WorkItem
  | .reserved item | .preparing item _ | .prepared item | .draining item => some item
  | .nobody | .waiting => none

/-- All a step can do. -/
inductive Move (st : State) : Label → State → Option Result → Prop
  | call (h : st.submitting = .nobody) :
      Move st .call { st with submitting := .waiting, atCall := (st.workSeqCounter, st.pushed) }
        none
  | refuse {l : Label} {r : Result} (h : st.submitting = .waiting) (last : Result)
      (hr : r ≠ .success) :
      Move st l { st.leave with lastResult := last } (some r)
  | reserve (h : st.submitting = .waiting) (hroom : st.inflight.length < cfg.queueDepth) :
      Move st .enter
        { st with
          workSeqCounter := st.workSeqCounter + 1
          submitting := .reserved (itemOf cfg (st.workSeqCounter + 1)) } none
  | reject {item : WorkItem} {r : Result} (h : st.submitting = .reserved item)
      (hinvalid : validSlot cfg item.slot = false) (hr : r ≠ .success) :
      Move st .checkFlag st.leave (some r)
  | prepare {item : WorkItem} {recorded : Bool} (h : st.submitting = .reserved item)
      (hvalid : validSlot cfg item.slot = true) :
      Move st .checkFlag { st with submitting := .preparing item (prepareCalls cfg recorded item) }
        none
  | device {ok : Bool} {item : WorkItem} {c : Call} {rest : List Call} {recorded : ℕ → Bool}
      (h : st.submitting = .preparing item (c :: rest)) :
      Move st (.device ok)
        { st with
          calls := st.calls ++ [c]
          waitDoneRecorded := recorded
          submitting := if rest = [] then .prepared item else .preparing item rest } none
  | deviceFails {item : WorkItem} {c : Call} {rest : List Call}
      (h : st.submitting = .preparing item (c :: rest)) (hhost : c.host = false) :
      Move st (.device false) st.leave (some .deviceError)
  | push {item : WorkItem} (h : st.submitting = .prepared item) :
      Move st .push
        { st with
          queue := st.queue ++ [item]
          pushed := st.pushed ++ [item]
          submitting := .nobody } (some .success)
  | pushCold {item : WorkItem} (h : st.submitting = .prepared item) :
      Move st .push
        { st with
          queue := st.queue ++ [item]
          pushed := st.pushed ++ [item]
          submitting := .draining item } none
  | drained {ok : Bool} {item : WorkItem} (h : st.submitting = .draining item) :
      Move st (.drained ok) st.leave
        (some (if st.lastResult ≠ .success then st.lastResult
          else if ok then .success else .deviceError))
  | drainTimeout {item : WorkItem} (h : st.submitting = .draining item) :
      Move st .drainTimeout { st.leave with lastResult := .timeout } (some .timeout)
  | threadStarts {failed : List ℕ} (h : st.worker = .starting) :
      Move st (.setDevice true failed) { st with worker := .idle } none
  | threadFails {failed : List ℕ} (h : st.worker = .starting) :
      Move st (.setDevice false failed)
        { finishCurrentWork cfg st .deviceError failed with worker := .ended } none
  | take {item : WorkItem} {queue : List WorkItem} (h : st.worker = .idle)
      (hqueue : st.queue = item :: queue) :
      Move st .take { st with worker := .running, current := item, queue := queue } none
  | runFails {result : Result} (h : st.worker = .running) (hr : result ≠ .success) :
      Move st (.runFails result) { st with worker := .finishing result } none
  | signal {ok : Bool} (h : st.worker = .running) (hok : signalOk cfg st.current ok = true) :
      Move st (.signal ok)
        { st with
          signalled := st.signalled ++ [st.current.wait]
          worker := .finishing .success } none
  | signalFails {ok : Bool} (h : st.worker = .running)
      (hok : signalOk cfg st.current ok = false) :
      Move st (.signal ok) { st with worker := .finishing .deviceError } none
  | finish {result : Result} {failed : List ℕ} (h : st.worker = .finishing result) :
      Move st (.finish failed) { finishCurrentWork cfg st result failed with worker := .idle } none
  | idleTimeout : Move st .idleTimeout { st with lastResult := .timeout } none
  | stop : Move st .stop { st with stop := true } none
  | threadEnds (h : st.worker = .idle) (hqueue : st.queue = []) :
      Move st .threadEnds { st with worker := .ended } none

variable {cfg}

/-- **Every step is one of the moves.** -/
theorem Move.of_stepResult {st st' : State} {l : Label} {r : Option Result}
    (h : stepResult cfg st l = some (st', r)) : Move cfg st l st' r := by
  cases l with
  | call =>
    simp only [stepResult] at h
    split at h <;> cases h
    exact .call ‹_›
  | enter =>
    simp only [stepResult] at h
    split at h
    · rename_i hwaiting
      split at h
      · rename_i hready
        split at h
        · cases h
          exact .refuse hwaiting st.lastResult nofun
        · rename_i hstop
          split at h <;> cases h
          · exact .refuse hwaiting st.lastResult ‹_›
          · rename_i hlast
            refine .reserve hwaiting ?_
            simpa [State.ready, hstop, not_not.1 hlast] using hready
      · cases h
    · cases h
  | enterTimeout =>
    simp only [stepResult] at h
    split at h
    · rename_i hwaiting
      split at h <;> cases h
      exact .refuse hwaiting _ nofun
    · cases h
  | checkFlag =>
    simp only [stepResult] at h
    split at h
    · rename_i item hreserved
      split at h
      · rename_i hflag
        cases h
        exact .reject hreserved (by simp [validSlot, hflag]) nofun
      · split at h <;> cases h
        · exact .reject hreserved ‹_› nofun
        · exact .prepare hreserved (by simpa using ‹¬ validSlot cfg item.slot = false›)
    · cases h
  | device ok =>
    simp only [stepResult] at h
    split at h
    · rename_i item c rest hpreparing
      split at h <;> cases h
      · exact .device hpreparing
      · rename_i hok
        simp only [Bool.or_eq_true, not_or, Bool.not_eq_true] at hok
        obtain ⟨rfl, hhost⟩ := hok
        exact .deviceFails hpreparing hhost
    · cases h
  | push =>
    simp only [stepResult] at h
    split at h
    · split at h <;> cases h
      · exact .pushCold ‹_›
      · exact .push ‹_›
    · cases h
  | drained ok =>
    simp only [stepResult] at h
    split at h
    · rename_i hdraining
      split at h <;> cases h
      exact .drained hdraining
    · cases h
  | drainTimeout =>
    simp only [stepResult] at h
    split at h
    · rename_i hdraining
      split at h <;> cases h
      exact .drainTimeout hdraining
    · cases h
  | setDevice ok failed =>
    simp only [stepResult] at h
    split at h
    · cases ok <;> cases h
      · exact .threadFails ‹_›
      · exact .threadStarts ‹_›
    · cases h
  | take =>
    simp only [stepResult] at h
    split at h <;> cases h
    exact .take ‹_› ‹_›
  | runFails result =>
    simp only [stepResult] at h
    split at h <;> cases h
    rename_i hrun
    exact .runFails hrun.1 hrun.2
  | signal ok =>
    simp only [stepResult] at h
    split at h
    · rename_i hrun
      split at h <;> cases h
      · exact .signal hrun ‹_›
      · exact .signalFails hrun (by simpa using ‹¬ signalOk cfg st.current ok = true›)
    · cases h
  | finish failed =>
    simp only [stepResult] at h
    split at h <;> cases h
    exact .finish ‹_›
  | idleTimeout =>
    simp only [stepResult] at h
    split at h <;> cases h
    exact .idleTimeout
  | stop => cases h; exact .stop
  | threadEnds =>
    simp only [stepResult] at h
    split at h <;> cases h
    rename_i hend
    exact .threadEnds hend.1 hend.2.2

theorem move_of_step {st st' : State} {l : Label} (h : step cfg st l = some st') :
    ∃ r, stepResult cfg st l = some (st', r) ∧ Move cfg st l st' r := by
  obtain ⟨⟨s, r⟩, hres, rfl⟩ := Option.map_eq_some_iff.1 h
  exact ⟨r, hres, .of_stepResult hres⟩

/-! ## What is left alone -/

section

variable {st : State} {result : Result} {failed : List ℕ}

@[simp] theorem finishCurrentWork_workSeqCounter :
    (finishCurrentWork cfg st result failed).workSeqCounter = st.workSeqCounter := by
  unfold finishCurrentWork
  split <;> rfl

@[simp] theorem finishCurrentWork_submitting :
    (finishCurrentWork cfg st result failed).submitting = st.submitting := by
  unfold finishCurrentWork
  split <;> rfl

@[simp] theorem finishCurrentWork_pushed :
    (finishCurrentWork cfg st result failed).pushed = st.pushed := by
  unfold finishCurrentWork
  split <;> rfl

@[simp] theorem finishCurrentWork_atCall :
    (finishCurrentWork cfg st result failed).atCall = st.atCall := by
  unfold finishCurrentWork
  split <;> rfl

@[simp] theorem finishCurrentWork_calls :
    (finishCurrentWork cfg st result failed).calls = st.calls := by
  unfold finishCurrentWork
  split <;> rfl

/-- The queue is left as it is, or emptied. -/
theorem finishCurrentWork_queue :
    (finishCurrentWork cfg st result failed).queue = if result = .success then st.queue else [] := by
  unfold finishCurrentWork
  split <;> rfl

end

/-! ## Waits -/

/-- The completion a call makes the user's stream wait for. -/
def Call.wait? : Call → Option (ℕ × ℕ)
  | .waitComplete slot workSeq | .launchKernel slot workSeq => some (slot, workSeq)
  | _ => none

/-- The completion waits the user's streams have been given. -/
def State.waits (st : State) : List (ℕ × ℕ) := st.calls.filterMap Call.wait?

/-- Nobody submits, nothing is queued and the thread works on nothing. -/
def State.quiescent (st : State) : Bool := decide (st.submitting = .nobody ∧ st.inflight = [])

end Submission
end Executor
end HyLink
