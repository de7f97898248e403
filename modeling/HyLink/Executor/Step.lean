import HyLink.Theory.Machine
import HyLink.Executor.Cluster

/-!
# The steps of the executors

The joint machine of all executor threads, H2H workers and DMA engines.  A label
names one atomic action:

* `start r` — rank `r` takes the collective from its queue;
* `run r` — its thread performs the next access to a shared word, or takes the
  decision its loads have led to;
* `attempt r i` — it calls `trySubmitNode` for node `i`;
* `poll r q j` — it finds entry `j` of queue `q` complete and publishes it; of an
  event ring only the oldest entry is polled;
* `work r q j t k` — share `t` of an entry in flight moves on by `k` bytes;
* `count r q j t` — a share that is through is counted.

Between two of its own actions a thread may be overtaken by any number of actions
of the others.  The order in which `runGraph` polls and tries its nodes is left
open, and so is the order in which work in flight proceeds.
-/

namespace HyLink
namespace Executor

open Ir Compiler

/-! ## What a thread does for a subchunk -/

/-- `publishNodeProgress` and `publishInputReaders`. -/
def publishOps (n : InstructionNode) (sc : ℕ) : List Op :=
  .advanceWriteProgress n.output (sc + 1) ::
    n.inputs.filterMap fun x => x.readerId.map fun id => .advanceReaderDone x.key id (sc + 1)

/-- The loads of `inputsReady`. -/
def inputsReady (n : InstructionNode) (sc : ℕ) : List Op :=
  n.inputs.map fun x => .loadWriteProgress x.key (sc + 1)

/-- The other rank of a peer copy. -/
def remoteRank (n : InstructionNode) : ℤ :=
  match n.d2dPlacement with
  | .remoteRead => n.sourceRank
  | .remoteWrite => n.destinationRank
  | .local => -1

/-- The other rank of a peer copy has to be ready for it. -/
def remoteReady (n : InstructionNode) : List Op :=
  if n.op = .d2d ∧ 0 ≤ remoteRank n ∧ remoteRank n < maxRanks then [.loadUserReady (remoteRank n)]
  else []

namespace Cluster

variable (c : Cluster)

/-- The loads of `overwriteReady`: a ring writer waits for the readers of the slice
whose slot it reuses, and every writer for the previous version and its
readers. -/
def overwriteReady (n : InstructionNode) (sc : ℕ) : List Op :=
  (if n.outputRingBuffered ∧ c.ringSlots ≤ sc then
    [.loadNumReaders n.output (sc - c.ringSlots + 1)] else []) ++
  match n.overwriteGuard with
  | none => []
  | some guard =>
      (if 0 < guard.version then [.loadWriteProgress guard (sc + 1)] else []) ++
        [.loadNumReaders guard (sc + 1)]

/-- A subchunk that is published without any work. -/
def immediate (n : InstructionNode) (sc : ℕ) : Bool :=
  decide (n.op = .nop ∨
    (c.env.skipDma = true ∧ (n.op = .d2h ∨ n.op = .h2d ∨ n.op = .d2d ∨ n.op = .d2dReduce)) ∨
    c.subchunkSize n sc = 0)

/-- The loads of the D2H lead window: `sc < consumed + window`. -/
def leadWindow (r : ℕ) (n : InstructionNode) (sc : ℕ) : List Op :=
  if c.usesMultipleHostNumas r ∧ n.op = .d2h then
    [.loadNumReaders n.output (sc + 1 - d2hLeadWindow)] else []

/-- What follows the loads of `trySubmitNode`.  The subchunk is the node's next
one; nobody else moves that cursor. -/
def submitOps (r i : ℕ) (n : InstructionNode) (sc : ℕ) : List Op :=
  if c.immediate n sc then [.finishNow i]
  else c.leadWindow r n sc ++
    [if n.op = .h2h ∨ n.op = .h2hReduce then .submitH2h i else .submitDma i]

/-- `trySubmitNode` for node `i` and its next subchunk. -/
def attemptOps (r i : ℕ) (n : InstructionNode) (sc : ℕ) : List Op :=
  inputsReady n sc ++ (c.overwriteReady n sc ++ c.submitOps r i n sc)

/-- What a thread does when it takes the collective from its queue. -/
def startOps (r : ℕ) : List Op :=
  (c.graph r).activeProgressKeys.map (fun key => .setNumReaders key 0) ++
  (c.graph r).readerAssignment.map (fun chunk => .setNumReaders chunk.key chunk.numReaders) ++
  .publishUserReady ::
  (c.graph r).initialReadyInputs.map fun key => .setWriteProgress key c.numSubchunks

end Cluster

/-! ## One operation -/

/-- `finishCurrentWork` with an error. -/
def Exec.fail (e : Exec) : Exec := { e with failed := true, todo := [] }

/-- Put the next subchunk of node `i` into a queue. -/
def Exec.push (e : Exec) (q : Queue) (i : ℕ) (shares : List Share) : Exec :=
  { e with
    inflight := Function.update e.inflight q (e.inflight q ++ [⟨i, e.next i, shares⟩])
    next := Function.update e.next i (e.next i + 1)
    todo := [] }

/-- Count the next subchunk of node `i` as submitted and completed, and go on with
`ops`. -/
def Exec.finish (e : Exec) (i : ℕ) (ops : List Op) : Exec :=
  { e with
    next := Function.update e.next i (e.next i + 1)
    completed := Function.update e.completed i (e.completed i + 1)
    todo := ops }

namespace Cluster

variable (c : Cluster)

/-- The operation at the head of a thread's list; `rest` is what follows it. -/
def runOp (r : ℕ) (w : SharedWords) (e : Exec) (rest : List Op) : Op → SharedWords × Exec
  | .setNumReaders key count => (w.setNumReaders key count, { e with todo := rest })
  | .publishUserReady => (w.publishUserReady r, { e with todo := rest })
  | .setWriteProgress key value => (w.setWriteProgress key value, { e with todo := rest })
  | .advanceWriteProgress key value => (w.advanceWriteProgress key value, { e with todo := rest })
  | .advanceReaderDone key id value =>
      if maxProgressReaders ≤ id then (w, { e with todo := rest })
      else (w.raiseReaderDone id key value, { e with todo := .scanReaders key 0 value :: rest })
  | .scanReaders key i minRd =>
      (w, { e with todo :=
        (if i < w.getNumReaders key then .scanReader key i minRd
          else .raiseConsumeProgress key minRd) :: rest })
  | .scanReader key i minRd =>
      (w, { e with todo := .scanReaders key (i + 1) (min minRd (w.getReaderDone i key)) :: rest })
  | .raiseConsumeProgress key value =>
      (w.raiseConsumeProgress key value, { e with todo := rest })
  | .loadWriteProgress key value =>
      (w, { e with todo := if value ≤ w.getWriteProgress key then rest else [] })
  | .loadNumReaders key value =>
      (w, { e with todo :=
        if w.getNumReaders key = 0 then rest else .loadConsumeProgress key value :: rest })
  | .loadConsumeProgress key value =>
      (w, { e with todo := if value ≤ w.getConsumeProgress key then rest else [] })
  | .loadUserReady rank => (w, { e with todo := if w.userReady rank then rest else [] })
  | .finishNow i =>
      (w, match c.node? r i with
        | none => e.fail
        | some n => e.finish i (publishOps n (e.next i)))
  | .submitH2h i =>
      (w, match c.node? r i with
        | none => e.fail
        | some n =>
          -- the engine refuses other operations, and null host buffers
          if ¬ (n.op = .h2h ∨ n.op = .h2hReduce) ∨ n.inputs = [] ∨
              c.resolve r n.output.base (e.next i) n.outputRingBuffered = none ∨
              (∃ x ∈ n.inputs, c.resolve r x.key.base (e.next i) x.ringBuffered = none) then e.fail
          else e.push (queueOf n) i (c.sharesOf n (c.subchunkSize n (e.next i))))
  | .submitDma i =>
      (w, match c.node? r i with
        | none => e.fail
        | some n =>
          if eventRingCapacity ≤ (e.inflight (queueOf n)).length then { e with todo := [] }
          else
            match c.resolve r n.output.base (e.next i) n.outputRingBuffered,
              n.inputs.head?.bind fun x => c.resolve r x.key.base (e.next i) x.ringBuffered with
            | some dst, some src =>
                if n.op = .d2d ∧ n.d2dPlacement = .local ∧ src = dst then
                  { e with todo := [.finishNow i] }
                else { e with todo := remoteReady n ++ [.recordDma i] }
            | _, _ => e.fail)
  | .recordDma i =>
      (w, match c.node? r i with
        | none => e.fail
        | some n => e.push (queueOf n) i (c.sharesOf n (c.subchunkSize n (e.next i))))

end Cluster

/-! ## The joint machine -/

inductive Label
  | start (r : ℕ)
  | run (r : ℕ)
  | attempt (r i : ℕ)
  | poll (r : ℕ) (q : Queue) (j : ℕ)
  | work (r : ℕ) (q : Queue) (j t k : ℕ)
  | count (r : ℕ) (q : Queue) (j t : ℕ)
  deriving DecidableEq, Repr

/-- The rank whose executor, workers or engines act. -/
def Label.rank : Label → ℕ
  | .start r | .run r | .attempt r _ | .poll r _ _ | .work r _ _ _ _ | .count r _ _ _ => r

/-- A thread that may poll or try a node. -/
def Exec.idle (e : Exec) : Bool := e.started && !e.failed && e.todo.isEmpty

/-- Change share `t` of entry `j` of a queue. -/
def Exec.updateShare (e : Exec) (q : Queue) (j t : ℕ) (f : Share → Share) : Exec :=
  { e with inflight := Function.update e.inflight q ((e.inflight q).modify j fun entry =>
      { entry with shares := entry.shares.modify t f }) }

namespace Cluster

variable (c : Cluster)

/-- A reduce works through whole elements, up to the end of its share. -/
def wholeUnits (n : InstructionNode) (share : Share) (k : ℕ) : Bool :=
  decide ((n.op = .h2hReduce ∨ n.op = .d2dReduce) →
    max 1 c.elementSize ∣ k ∨ share.pos + k = share.stop)

/-- A label on the executor of its own rank. -/
def localStep (r : ℕ) (w : SharedWords) (e : Exec) : Label → Option (SharedWords × Exec)
  | .start _ =>
      if e.started then none else some (w, { e with started := true, todo := c.startOps r })
  | .run _ =>
      match e.todo with
      | [] => none
      | op :: rest => some (c.runOp r w e rest op)
  | .attempt _ i =>
      if e.idle ∧ e.next i < c.numSubchunks then
        (c.node? r i).map fun n => (w, { e with todo := c.attemptOps r i n (e.next i) })
      else none
  | .poll _ q j =>
      if e.idle ∧ (q = .h2h ∨ j = 0) then
        (e.inflight q)[j]?.bind fun entry =>
          if entry.finished then
            (c.node? r entry.node).map fun n => (w,
              { e with
                inflight := Function.update e.inflight q ((e.inflight q).eraseIdx j)
                completed := Function.update e.completed entry.node (e.completed entry.node + 1)
                todo := publishOps n entry.sc })
          else none
      else none
  | .work _ q j t k =>
      (e.inflight q)[j]?.bind fun entry =>
        entry.shares[t]?.bind fun share =>
          (c.node? r entry.node).bind fun n =>
            if 0 < k ∧ share.pos + k ≤ share.stop ∧ c.wholeUnits n share k then
              some (w, e.updateShare q j t fun s => { s with pos := s.pos + k })
            else none
  | .count _ q j t =>
      (e.inflight q)[j]?.bind fun entry =>
        entry.shares[t]?.bind fun share =>
          if share.pos = share.stop ∧ share.counted = false then
            some (w, e.updateShare q j t fun s => { s with counted := true })
          else none

def step (s : State) (l : Label) : Option State :=
  if l.rank < c.worldSize then
    (c.localStep l.rank s.words (s.execs l.rank) l).map fun we =>
      { words := we.1, execs := Function.update s.execs l.rank we.2 }
  else none

/-- The executors of a cluster as a machine. -/
def machine : Theory.Machine State Label where
  step := c.step

end Cluster

end Executor
end HyLink
