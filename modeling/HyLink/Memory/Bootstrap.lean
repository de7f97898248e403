import HyLink.Memory.Barrier

/-!
# The processes of a node find one another

`ProcessState::initialize` with several processes: the constructor of
`SharedStateManager`, the constructor of `HostMemoryPool` with the bootstrap
segment and the socket of `ShmAllocator`, and the first barrier.  A process
takes one system call or one access to shared memory a step.

The creator unlinks a name, creates it, sizes the file and clears it in four
steps, and a joiner only asks whether the name is there.  What it opens may be
the segment of a run that crashed, or one without size and content.

* `Bootstrap.step` — the step of a process, the failure of a call, and the steps
  of the barrier in whatever state a process is attached to.
* `Bootstrap.State.Attached`, `Bootstrap.Orderly` — what is asked of a process
  that has succeeded, and of a step.
* `Bootstrap.joinsLate` — a joiner leaves its `shm_open` loop once the creator
  has cleared the segment of this run.
-/

namespace HyLink
namespace Memory
namespace Bootstrap

open Function (update)

/-- Whose segment it is. -/
inductive Run where
  /-- A run that crashed before. -/
  | earlier
  | this
  deriving DecidableEq, Repr

/-- What `state_` points to. -/
inductive Place where
  | segment (r : Run)
  /-- The private `new SharedState()` of a process. -/
  | heap (p : ℕ)
  deriving DecidableEq, Repr

/-- What the processes are configured with.  Process 0 is the creator. -/
structure Config where
  nranks : ℕ
  nranks_pos : 0 < nranks
  numNuma : ℕ
  /-- `pool_size`, as each process computes it. -/
  poolSize : ℕ → ℕ

/-- The next thing a process does. -/
inductive Pc where
  -- the creator, in `SharedStateManager`
  | unlinkState
  | createState
  | sizeState
  | mapState
  | clearState
  -- the creator, in `createBootstrap` and `HostMemoryPool`
  | unlinkBootstrap
  | createBootstrap
  | sizeBootstrap
  | mapBootstrap
  | clearBootstrap
  | allocate (numa : ℕ)
  | createFdServer
  | storeReady
  | serveFds (served : ℕ)
  -- a joiner
  | openState
  | attachState (r : Run)
  | openBootstrap
  | attachBootstrap (r : Run)
  | loadReady
  | connect
  | receiveFds
  | mapHost (numa : ℕ)
  -- both
  | barrier
  | succeeded
  | failed
  | aborted
  deriving DecidableEq, Repr

/-- A process. -/
structure Process where
  pc : Pc
  /-- `state_` -/
  place : Option Place
  /-- The bootstrap segment it has mapped. -/
  bootstrap : Option Run
  /-- The descriptors of the creator's allocations have reached it. -/
  received : Bool
  /-- For each NUMA node, the size with which it has mapped the creator's allocation. -/
  pool : ℕ → Option ℕ

/-- `BootstrapShm`, and whether the file has its size and content. -/
structure BootstrapShm where
  sized : Bool
  cleared : Bool
  ready : Bool
  joinedCount : ℕ
  expectedJoiners : ℕ
  hostSizes : ℕ → ℕ

/-- A state segment, the words of its first barrier apart. -/
structure StateShm where
  sized : Bool
  cleared : Bool
  deriving DecidableEq, Repr

structure State where
  /-- What `/pccl_<id>_state` names. -/
  stateName : Option Run
  /-- What `/pccl_<id>_bootstrap` names. -/
  bootstrapName : Option Run
  state : Run → StateShm
  /-- The barrier words of a state, and where the processes stand in its barrier. -/
  words : Place → Barrier.State
  bootstrap : Run → BootstrapShm
  /-- The connections waiting at the socket, if the creator listens. -/
  server : Option (List ℕ)
  process : ℕ → Process

/-- What a crashed run has left. -/
structure Leftover where
  stateName : Bool
  bootstrapName : Bool
  state : StateShm
  generation : ℕ
  count : ℕ
  bootstrap : BootstrapShm

/-- A clean system. -/
def Leftover.nothing : Leftover where
  stateName := false
  bootstrapName := false
  state := ⟨false, false⟩
  generation := 0
  count := 0
  bootstrap := ⟨false, false, false, 0, 0, fun _ => 0⟩

inductive Label where
  /-- The next step of a process succeeds. -/
  | run (p : ℕ)
  /-- The system call a process is at fails, or it gives up retrying. -/
  | fail (p : ℕ)
  /-- A step of the barrier, in the state the party is attached to. -/
  | barrier (l : Barrier.Label)
  deriving DecidableEq, Repr

namespace State

def init (left : Leftover) : State where
  stateName := if left.stateName then some .earlier else none
  bootstrapName := if left.bootstrapName then some .earlier else none
  state
    | .earlier => left.state
    | .this => ⟨false, false⟩
  words
    | .segment .earlier => ⟨left.generation, left.count, fun _ => .outside none⟩
    | _ => Barrier.State.init 0
  bootstrap
    | .earlier => left.bootstrap
    | .this => ⟨false, false, false, 0, 0, fun _ => 0⟩
  server := none
  process p := ⟨if p = 0 then .unlinkState else .openState, none, none, false, fun _ => none⟩

/-- A process goes on. -/
def goto (s : State) (p : ℕ) (pc : Pc) : State :=
  { s with process := update s.process p { s.process p with pc } }

def setProcess (s : State) (p : ℕ) (x : Process) : State :=
  { s with process := update s.process p x }

def setBootstrap (s : State) (r : Run) (b : BootstrapShm) : State :=
  { s with bootstrap := update s.bootstrap r b }

end State

variable (cfg : Config)

/-- The creator takes its next step. -/
def runCreator (s : State) : Option State :=
  let x := s.process 0
  let b := s.bootstrap .this
  match x.pc with
  | .unlinkState => some ({ s with stateName := none }.goto 0 .createState)
  | .createState =>
    -- `O_EXCL`
    if s.stateName = none then some ({ s with stateName := some .this }.goto 0 .sizeState)
    else none
  | .sizeState =>
    some ({ s with
      state := update s.state .this { s.state .this with sized := true } }.goto 0 .mapState)
  | .mapState =>
    some (s.setProcess 0 { x with pc := .clearState, place := some (.segment .this) })
  | .clearState =>
    some ({ s with
      state := update s.state .this { s.state .this with cleared := true }
      words := update s.words (.segment .this)
        { s.words (.segment .this) with generation := 0, count := 0 } }.goto 0 .unlinkBootstrap)
  | .unlinkBootstrap => some ({ s with bootstrapName := none }.goto 0 .createBootstrap)
  | .createBootstrap =>
    if s.bootstrapName = none then
      some ({ s with bootstrapName := some .this }.goto 0 .sizeBootstrap)
    else none
  | .sizeBootstrap => some ((s.setBootstrap .this { b with sized := true }).goto 0 .mapBootstrap)
  | .mapBootstrap =>
    some (s.setProcess 0 { x with pc := .clearBootstrap, bootstrap := some .this })
  | .clearBootstrap =>
    some ((s.setBootstrap .this
      ⟨b.sized, true, false, 0, cfg.nranks - 1, fun _ => 0⟩).goto 0 (.allocate 0))
  | .allocate numa =>
    if numa < cfg.numNuma then
      if 0 < cfg.poolSize 0 then
        some ((s.setBootstrap .this
          { b with hostSizes := update b.hostSizes numa (cfg.poolSize 0) }).setProcess 0
          { x with
            pc := .allocate (numa + 1)
            pool := update x.pool numa (some (cfg.poolSize 0)) })
      else none
    else some (s.goto 0 (if 0 < b.expectedJoiners then .createFdServer else .storeReady))
  | .createFdServer => some ({ s with server := some [] }.goto 0 .storeReady)
  | .storeReady =>
    some ((s.setBootstrap .this { b with ready := true }).goto 0
      (if 0 < b.expectedJoiners then .serveFds 0 else .barrier))
  | .serveFds served =>
    if served < b.expectedJoiners then
      match s.server with
      | some (p :: rest) =>
        some (({ s with server := some rest }.setProcess p
          { s.process p with received := true }).goto 0 (.serveFds (served + 1)))
      | _ => none
    else some ({ s with server := none }.goto 0 .barrier)
  | _ => none

/-- A joiner takes its next step.  A loop that finds nothing yet does not step. -/
def runJoiner (s : State) (p : ℕ) : Option State :=
  let x := s.process p
  match x.pc with
  | .openState => s.stateName.map fun r => s.goto p (.attachState r)
  | .attachState r =>
    some (s.setProcess p { x with pc := .openBootstrap, place := some (.segment r) })
  | .openBootstrap => s.bootstrapName.map fun r => s.goto p (.attachBootstrap r)
  | .attachBootstrap r => some (s.setProcess p { x with pc := .loadReady, bootstrap := some r })
  | .loadReady =>
    x.bootstrap.map fun r => s.goto p (if (s.bootstrap r).ready then .connect else .loadReady)
  | .connect =>
    s.server.map fun queue => { s with server := some (queue ++ [p]) }.goto p .receiveFds
  | .receiveFds => if x.received then some (s.goto p (.mapHost 0)) else none
  | .mapHost numa =>
    x.bootstrap.map fun r =>
      let b := s.bootstrap r
      if numa < cfg.numNuma then
        -- the creator's size, the joiner's own where there is none
        let remoteSize := if b.hostSizes numa = 0 then cfg.poolSize p else b.hostSizes numa
        s.setProcess p
          { x with pc := .mapHost (numa + 1), pool := update x.pool numa (some remoteSize) }
      else (s.setBootstrap r { b with joinedCount := b.joinedCount + 1 }).goto p .barrier
  | _ => none

/-- The call a process is at fails. -/
def fail (s : State) (p : ℕ) : Option State :=
  let x := s.process p
  match x.pc with
  -- the state falls back to the heap
  | .createState | .sizeState | .mapState =>
    some (s.setProcess p { x with pc := .unlinkBootstrap, place := some (.heap p) })
  | .openState | .attachState _ =>
    some (s.setProcess p { x with pc := .openBootstrap, place := some (.heap p) })
  -- `HostMemoryPool` returns without a buffer
  | .createBootstrap | .openBootstrap | .attachBootstrap _ => some (s.goto p .barrier)
  | .sizeBootstrap | .mapBootstrap => some ({ s with bootstrapName := none }.goto p .barrier)
  | .allocate _ | .createFdServer | .serveFds _ | .connect | .receiveFds | .mapHost _ =>
    some (s.goto p .aborted)
  | _ => none

/-- Who takes a step of the barrier. -/
def party : Barrier.Label → ℕ
  | .call p | .arrive p | .reset p | .raise p | .poll p | .spin p | .timeout p => p

/-- What a call of the barrier has returned. -/
def result (evs : List Barrier.Event) : Option Bool :=
  evs.findSome? fun
    | .returned _ _ ok => some ok
    | .entered _ _ => none

/-- Where `initialize` goes from the barrier. -/
def afterBarrier : Option Bool → Pc
  | none => .barrier
  | some true => .succeeded
  | some false => .failed

def step (s : State) : Label → Option State
  | .run p =>
    if p < cfg.nranks then if p = 0 then runCreator cfg s else runJoiner cfg s p else none
  | .fail p => if p < cfg.nranks then fail s p else none
  | .barrier l =>
    let p := party l
    if (s.process p).pc = .barrier then
      (s.process p).place.bind fun place =>
        (Barrier.step cfg.nranks (s.words place) l).map fun w =>
          { s with words := update s.words place w }.goto p
            (afterBarrier (result (Barrier.events (s.words place) l)))
    else none

def machine : Theory.Machine State Label := ⟨step cfg⟩

/-! ## What is asked of a run -/

/-- What a step reads as a joiner. -/
inductive Segment where
  | state (r : Run)
  | bootstrap (r : Run)
  deriving DecidableEq, Repr

/-- The segments a joiner's step reads. -/
def reads (s : State) : Label → List Segment
  | .run p =>
    if p = 0 then []
    else
      match (s.process p).pc with
      | .loadReady | .mapHost _ => ((s.process p).bootstrap.map .bootstrap).toList
      | _ => []
  | .fail _ => []
  | .barrier l =>
    if party l = 0 then []
    else
      match (s.process (party l)).place with
      | some (.segment r) => [.state r]
      | _ => []

/-- The segment has been sized and initialised. -/
def State.initialised (s : State) : Segment → Bool
  | .state r => (s.state r).sized && (s.state r).cleared
  | .bootstrap r => (s.bootstrap r).sized && (s.bootstrap r).cleared

/-- The process has arrived at its first barrier. -/
def State.arrived (s : State) (p : ℕ) : Bool :=
  match (s.process p).pc, (s.process p).place with
  | .barrier, some place =>
    match (s.words place).phase p with
    | .outside none | .loaded _ => false
    | _ => true
  | .succeeded, _ | .failed, _ => true
  | _, _ => false

/-- The process works on the state and the host buffers of this run's creator. -/
def State.Attached (s : State) (p : ℕ) : Prop :=
  ((s.process p).place = some (.segment .this) ∨ (s.process p).place = some (.heap 0)) ∧
    ∀ numa < cfg.numNuma, (s.process p).pool numa = some (cfg.poolSize 0)

/-- What a step may not do. -/
structure Orderly (s : State) (l : Label) : Prop where
  /-- A joiner reads no segment that has not been sized and initialised. -/
  reads : ∀ g ∈ reads s l, s.initialised g = true
  /-- The shared state is not initialised after somebody else has arrived. -/
  initialises : l = .run 0 → (s.process 0).pc = .clearState →
    ∀ p < cfg.nranks, p ≠ 0 → s.arrived p = false

/-- A joiner leaves the loop in which it looks for a segment only once the creator has cleared
the one of this run, and the creator gets its bootstrap segment. -/
def joinsLate (s : State) : Label → Bool
  | .run p =>
    match (s.process p).pc with
    | .openState => (s.state .this).cleared
    | .openBootstrap => (s.bootstrap .this).cleared
    | _ => true
  | .fail p =>
    match (s.process p).pc with
    | .openState => (s.state .this).cleared
    | .createBootstrap | .sizeBootstrap | .mapBootstrap => false
    | _ => true
  | .barrier _ => true

/-! ## What a step leaves alone -/

section Updates

variable (s : State) (p q : ℕ) (pc : Pc) (x : Process) (r : Run) (b : BootstrapShm)

@[simp] theorem process_setProcess :
    (s.setProcess p x).process q = if q = p then x else s.process q := by
  simp [State.setProcess, Function.update_apply]

@[simp] theorem stateName_setProcess : (s.setProcess p x).stateName = s.stateName := rfl
@[simp] theorem bootstrapName_setProcess : (s.setProcess p x).bootstrapName = s.bootstrapName := rfl
@[simp] theorem state_setProcess : (s.setProcess p x).state = s.state := rfl
@[simp] theorem words_setProcess : (s.setProcess p x).words = s.words := rfl
@[simp] theorem bootstrap_setProcess : (s.setProcess p x).bootstrap = s.bootstrap := rfl
@[simp] theorem server_setProcess : (s.setProcess p x).server = s.server := rfl

@[simp] theorem process_goto :
    (s.goto p pc).process q = if q = p then { s.process p with pc } else s.process q := by
  simp [State.goto, Function.update_apply]

@[simp] theorem stateName_goto : (s.goto p pc).stateName = s.stateName := rfl
@[simp] theorem bootstrapName_goto : (s.goto p pc).bootstrapName = s.bootstrapName := rfl
@[simp] theorem state_goto : (s.goto p pc).state = s.state := rfl
@[simp] theorem words_goto : (s.goto p pc).words = s.words := rfl
@[simp] theorem bootstrap_goto : (s.goto p pc).bootstrap = s.bootstrap := rfl
@[simp] theorem server_goto : (s.goto p pc).server = s.server := rfl

@[simp] theorem process_setBootstrap : (s.setBootstrap r b).process = s.process := rfl
@[simp] theorem stateName_setBootstrap : (s.setBootstrap r b).stateName = s.stateName := rfl
@[simp] theorem bootstrapName_setBootstrap :
    (s.setBootstrap r b).bootstrapName = s.bootstrapName := rfl
@[simp] theorem state_setBootstrap : (s.setBootstrap r b).state = s.state := rfl
@[simp] theorem words_setBootstrap : (s.setBootstrap r b).words = s.words := rfl
@[simp] theorem server_setBootstrap : (s.setBootstrap r b).server = s.server := rfl

@[simp] theorem bootstrap_setBootstrap (r' : Run) :
    (s.setBootstrap r b).bootstrap r' = if r' = r then b else s.bootstrap r' := by
  simp [State.setBootstrap, Function.update_apply]

end Updates

end Bootstrap
end Memory
end HyLink
