import Mathlib.Data.List.Basic
import Mathlib.Algebra.GroupWithZero.Nat
import Mathlib.Logic.Function.Basic
import HyLink.Theory.Machine

/-!
# What is in flight when an item is reported finished

`GraphExecutor::runGraph` with its error paths, for one work item and both
backends: the polls of the event rings and of the H2H works, `trySubmitNode`
with every call that can fail, the drain after the loop, and
`finishCurrentWork`, which clears the records of whatever is in flight.

A transfer goes to the device or to the workers in one step and comes back in
another; in between nothing that fails on the executor's side takes it back.

* `Quiescence.step` — the run of an item, with the device, the workers and a
  caller that gives up waiting taking their steps in between.
* `Quiescence.State.reported`, `Quiescence.State.Quiet` — the item is reported
  finished; nothing submitted for it is in flight.
* `Quiescence.calm` — nothing fails or gives up with a transfer on record.
-/

namespace HyLink
namespace Executor
namespace Quiescence

open Function (update)

inductive Backend where
  | cuda
  | ascend
  deriving DecidableEq, Repr

/-- Where a node goes: to the workers, or to the lane `selectDmaLane` gives it. -/
inductive Route where
  | h2h
  | dma (lane : ℕ)
  deriving DecidableEq, Repr

structure Config where
  backend : Backend
  /-- `DMA_LANE_COUNT` -/
  laneCount : ℕ
  /-- Of an event ring. -/
  capacity : ℕ
  nodes : List Route
  lane_lt : ∀ lane, Route.dma lane ∈ nodes → lane < laneCount
  numSubchunks : ℕ

/-- `NodeState`, and the subchunks of the node flagged in `h2h_completion_pending_`. -/
structure NodeState where
  nextSubchunk : ℕ
  completedSubchunks : ℕ
  pending : List ℕ
  deriving Repr

/-- An H2H work: one subchunk of a node, or all of them as a range, and the shards that are still
with the workers. -/
structure Work where
  node : ℕ
  subchunk : Option ℕ
  shards : ℕ
  deriving DecidableEq, Repr

/-- Where the executor is in `runGraph`. -/
inductive Phase where
  /-- Before the loop; on Ascend, before the staging region and the start barrier. -/
  | start
  | userReady
  /-- At an event ring, in the loop or in the drain. -/
  | lane (block : Bool) (lane : ℕ)
  | h2h (block : Bool)
  | submit (node : ℕ)
  | terminals
  /-- After the drain. -/
  | conclude
  | finish
  | release
  | done
  deriving DecidableEq, Repr

structure State where
  phase : Phase
  /-- `busy_` -/
  busy : Bool
  /-- The completion of the item is signalled. -/
  signalled : Bool
  /-- The staging region is given back. -/
  released : Bool
  /-- `last_result_ == pcclSuccess` -/
  lastResult : Bool
  result : Bool
  node : ℕ → NodeState
  /-- The nodes of a ring's entries, the oldest first. -/
  ring : ℕ → List ℕ
  /-- How many transfers of a lane's stream are not complete. -/
  stream : ℕ → ℕ
  /-- The H2H works the executor has on record. -/
  inflight : List Work
  /-- Shards of works it has no record of. -/
  lost : ℕ

def State.init : State where
  phase := .start
  busy := true
  signalled := false
  released := false
  lastResult := true
  result := true
  node := fun _ => ⟨0, 0, []⟩
  ring := fun _ => []
  stream := fun _ => 0
  inflight := []
  lost := 0

/-- What one call of `trySubmitNode` comes to. -/
inductive Outcome where
  /-- The node has to wait, or is through. -/
  | blocked
  /-- Nothing to transfer: `NOP`, no bytes, source and destination the same. -/
  | immediate
  /-- A node that cannot be submitted: no engine, an address that does not resolve, a submission
  the engine refuses. -/
  | refused
  | h2h (shards : ℕ)
  /-- All subchunks at once, on Ascend. -/
  | h2hRange (shards : ℕ)
  | dma
  /-- `devMemcpyAsync` or `devLaunchD2DReduce` fails. -/
  | launchFails
  /-- The copy is launched and `devRecordEvent` fails. -/
  | recordFails
  deriving DecidableEq, Repr

inductive Label where
  -- the device, the workers, a caller
  | copied (lane : ℕ)
  | shard (work : ℕ)
  | lostShard
  /-- `waitForIdle` gives up. -/
  | idleTimeout
  -- the executor
  | begin
  | beginFails
  | userReady
  | userReadyTimeout
  /-- The oldest event of the ring is complete. -/
  | event
  | queryFails
  | eventTimeout
  | leaveLane
  | lanesPolled
  /-- A work is done. -/
  | h2hDone (work : ℕ)
  | leaveH2H
  | h2hTimeout
  | submit (o : Outcome)
  | submitted
  | terminalsComplete
  | again
  | runTimeout
  | barrierFails
  | signal (ok : Bool)
  | skip
  | finish
  | release
  deriving DecidableEq, Repr

/-- The shards of the works on record. -/
def shards (works : List Work) : ℕ := (works.map Work.shards).sum

/-- `finishCurrentWork`: the records are cleared; whatever was in flight is not. -/
def finishCurrentWork (ok : Bool) (s : State) : State :=
  { s with
    lastResult := ok
    node := fun _ => ⟨0, 0, []⟩
    ring := fun _ => []
    inflight := []
    lost := s.lost + shards s.inflight
    signalled := s.signalled || !ok
    busy := false }

/-- The subchunks that are flagged in a row are complete. -/
def publishPending (numSubchunks : ℕ) (x : NodeState) : ℕ → NodeState
  | 0 => x
  | fuel + 1 =>
    if x.completedSubchunks < numSubchunks ∧ x.completedSubchunks ∈ x.pending then
      publishPending numSubchunks { x with
        completedSubchunks := x.completedSubchunks + 1
        pending := x.pending.erase x.completedSubchunks } fuel
    else x

/-- `pollH2HCompletions`, what it does with one work. -/
def h2hDone (backend : Backend) (numSubchunks : ℕ) (w : Work) (x : NodeState) : NodeState :=
  match backend, w.subchunk with
  | .cuda, _ => { x with completedSubchunks := x.completedSubchunks + 1 }
  | .ascend, none => { x with completedSubchunks := numSubchunks, nextSubchunk := numSubchunks }
  | .ascend, some subchunk =>
    let pending := if subchunk ∈ x.pending then x.pending else subchunk :: x.pending
    publishPending numSubchunks { x with pending } (pending.length)

variable (cfg : Config)

/-- `trySubmitNode` with what it comes to. -/
def trySubmitNode (s : State) (i : ℕ) (o : Outcome) : Option State :=
  let x := s.node i
  match o, cfg.nodes[i]? with
  | .blocked, some _ => some s
  | .immediate, some _ =>
    if x.nextSubchunk < cfg.numSubchunks then
      some { s with
        node := update s.node i { x with
          nextSubchunk := x.nextSubchunk + 1
          completedSubchunks := x.completedSubchunks + 1 } }
    else none
  | .refused, some _ =>
    if x.nextSubchunk < cfg.numSubchunks then some (finishCurrentWork false s) else none
  | .h2h shards, some .h2h =>
    if x.nextSubchunk < cfg.numSubchunks then
      some { s with
        node := update s.node i { x with nextSubchunk := x.nextSubchunk + 1 }
        inflight := s.inflight ++ [⟨i, some x.nextSubchunk, shards⟩] }
    else none
  | .h2hRange shards, some .h2h =>
    if cfg.backend = .ascend ∧ x.nextSubchunk = 0 ∧ 0 < cfg.numSubchunks then
      some { s with
        node := update s.node i { x with nextSubchunk := cfg.numSubchunks }
        inflight := s.inflight ++ [⟨i, none, shards⟩] }
    else none
  | .dma, some (.dma lane) =>
    if x.nextSubchunk < cfg.numSubchunks ∧ (s.ring lane).length < cfg.capacity then
      some { s with
        node := update s.node i { x with nextSubchunk := x.nextSubchunk + 1 }
        ring := update s.ring lane (s.ring lane ++ [i])
        stream := update s.stream lane (s.stream lane + 1) }
    else none
  | .launchFails, some (.dma lane) =>
    if x.nextSubchunk < cfg.numSubchunks ∧ (s.ring lane).length < cfg.capacity then
      some (finishCurrentWork false s)
    else none
  | .recordFails, some (.dma lane) =>
    if x.nextSubchunk < cfg.numSubchunks ∧ (s.ring lane).length < cfg.capacity then
      some (finishCurrentWork false
        { s with stream := update s.stream lane (s.stream lane + 1) })
    else none
  | _, _ => none

/-- The loop is left with an error. -/
def State.giveUp (s : State) : State := { s with result := false, phase := .lane true 0 }

/-- All nodes of the graph are through. -/
def State.nodesComplete (s : State) : Bool :=
  (List.range cfg.nodes.length).all fun i => cfg.numSubchunks ≤ (s.node i).completedSubchunks

/-- At an event ring. -/
def pollLane (s : State) (block : Bool) (lane : ℕ) : Label → Option State
  | .event =>
    match s.ring lane with
    | i :: rest =>
      -- the event is behind its transfer, and the transfers of a lane are done in order
      if s.stream lane < (s.ring lane).length then
        some { s with
          ring := update s.ring lane rest
          node := update s.node i { s.node i with
            completedSubchunks := (s.node i).completedSubchunks + 1 } }
      else none
    | [] => none
  | .queryFails =>
    if s.ring lane = [] then none
    else some { finishCurrentWork false s with phase := .lane block (lane + 1) }
  | .eventTimeout =>
    if s.ring lane ≠ [] ∧ (block = true ∨ cfg.capacity ≤ (s.ring lane).length) then
      some { s with lastResult := false, phase := .lane block (lane + 1) }
    else none
  | .leaveLane =>
    if s.ring lane = [] ∨ block = false ∧ (s.ring lane).length < cfg.capacity then
      some { s with phase := .lane block (lane + 1) }
    else none
  | _ => none

/-- The executor's step. -/
def run (s : State) (l : Label) : Option State :=
  match s.phase, l with
  | .start, .begin => some { s with phase := .userReady }
  | .start, .beginFails =>
    if cfg.backend = .ascend then
      some { finishCurrentWork false s with phase := .done, released := true }
    else none
  | .userReady, .userReady => some { s with phase := .lane false 0 }
  | .userReady, .userReadyTimeout => some s.giveUp
  | .lane block lane, l =>
    if lane < cfg.laneCount then pollLane cfg s block lane l
    else if l = .lanesPolled then
      some { s with
        phase := .h2h block
        -- on CUDA the result is taken before the workers are waited for
        result := s.result && (s.lastResult || !block || cfg.backend != .cuda) }
    else none
  | .h2h _, .h2hDone i =>
    match s.inflight[i]? with
    | some w =>
      if w.shards = 0 then
        some { s with
          inflight := s.inflight.eraseIdx i
          node := update s.node w.node
            (h2hDone cfg.backend cfg.numSubchunks w (s.node w.node)) }
      else none
    | none => none
  | .h2h false, .leaveH2H => some (if s.lastResult then { s with phase := .submit 0 } else s.giveUp)
  | .h2h true, .leaveH2H =>
    match cfg.backend with
    | .cuda => if s.inflight = [] then some { s with phase := .conclude } else none
    -- no further completion is there; nothing waits for one
    | .ascend => some { s with phase := .conclude, result := s.result && s.lastResult }
  | .h2h true, .h2hTimeout =>
    if cfg.backend = .cuda ∧ s.inflight ≠ [] then
      some { s with result := false, phase := .conclude }
    else none
  | .submit i, .submit o =>
    (trySubmitNode cfg s i o).map fun s' =>
      if s'.lastResult then { s' with phase := .submit (i + 1) } else s'.giveUp
  | .submit i, .submitted =>
    if i = cfg.nodes.length then some { s with phase := .terminals } else none
  | .terminals, .terminalsComplete =>
    if s.nodesComplete cfg then some { s with phase := .lane true 0 } else none
  | .terminals, .again => some { s with phase := .lane false 0 }
  | .terminals, .runTimeout => some s.giveUp
  | .conclude, .barrierFails =>
    if s.result then some { s with result := false, phase := .finish } else none
  | .conclude, .signal ok =>
    if s.result then some { s with signalled := true, result := ok, phase := .finish } else none
  | .conclude, .skip => if s.result then none else some { s with phase := .finish }
  | .finish, .finish => some { finishCurrentWork s.result s with phase := .release }
  | .release, .release =>
    some { s with released := s.released || cfg.backend == .ascend, phase := .done }
  | _, _ => none

def step (s : State) (l : Label) : Option State :=
  match l with
  | .copied lane =>
    if 0 < s.stream lane then some { s with stream := update s.stream lane (s.stream lane - 1) }
    else none
  | .shard i =>
    match s.inflight[i]? with
    | some w =>
      if 0 < w.shards then
        some { s with inflight := s.inflight.set i { w with shards := w.shards - 1 } }
      else none
    | none => none
  | .lostShard => if 0 < s.lost then some { s with lost := s.lost - 1 } else none
  | .idleTimeout => some { s with lastResult := false }
  | l => run cfg s l

def machine : Theory.Machine State Label := ⟨step cfg⟩

/-! ## What is asked of a run -/

/-- The item has been reported finished. -/
def State.reported (s : State) : Bool := s.signalled || !s.busy || s.released

/-- Nothing submitted for the item is in flight. -/
structure State.Quiet (s : State) : Prop where
  streams : ∀ lane, s.stream lane = 0
  works : ∀ w ∈ s.inflight, w.shards = 0
  lost : s.lost = 0

/-- No transfer is on record. -/
def State.recordsNone (s : State) : Bool :=
  ((List.range cfg.laneCount).all fun lane => (s.ring lane).isEmpty) && s.inflight.isEmpty

/-- Nothing fails or gives up with a transfer on record: no event query and no event record fails,
a node is refused or fails to launch only with no transfer on record, no wait of the drain times
out, and on Ascend, where the drain does not wait for the workers, the loop is left with an error
only with no H2H work on record. -/
def calm (s : State) : Label → Bool
  | .queryFails | .h2hTimeout => false
  | .eventTimeout =>
    match s.phase with
    | .lane true _ => false
    | _ => true
  | .leaveH2H =>
    match s.phase with
    | .h2h false => s.lastResult || cfg.backend == .cuda || s.inflight.isEmpty
    | _ => true
  | .submit .recordFails => false
  | .submit .refused | .submit .launchFails => s.recordsNone cfg
  | .submit (.h2h _) | .submit (.h2hRange _) => s.lastResult || cfg.backend == .cuda
  | .submit _ => s.lastResult || cfg.backend == .cuda || s.inflight.isEmpty
  | .runTimeout => cfg.backend == .cuda || s.inflight.isEmpty
  | _ => true

end Quiescence
end Executor
end HyLink
