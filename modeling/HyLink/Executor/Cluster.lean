import HyLink.Executor.Words

/-!
# The executors of a cluster: nodes, slices and in-flight work

The static side of a collective — the plan, the runtime bindings and the number
of H2H worker threads — and the data one executor keeps while it runs its graph:
the subchunk cursors of its nodes, the event rings of its DMA lanes and the list
of its H2H work in flight.

A piece of work in flight is a subchunk cut into **shares**: a DMA is one share,
H2H work has one for every worker thread.  A share is worked through unit by
unit and then counted: the worker increments the done counter, or the event
recorded after the DMA completes.
-/

namespace HyLink
namespace Executor

open Ir Compiler

/-- Base addresses of the buffers; `none` is a null pointer. -/
structure RuntimeBinding where
  hostBase : ℤ → Option ℕ
  deviceBase : ProgressSpace → ℤ → Option ℕ

/-- One collective on one communicator: every rank runs the graph compiled for it
from the same program. -/
structure Cluster where
  env : Env
  graphOptions : GraphCompileOptions
  program : IRProgram
  worldSize : ℕ
  /-- What every rank of the world compiles from. -/
  plan : Plan graphOptions program worldSize
  binding : ℕ → RuntimeBinding
  /-- Worker threads an H2H subchunk is split over. -/
  h2hThreads : ℕ
  h2hThreads_pos : 0 < h2hThreads

/-! ## Static data -/

namespace Cluster

variable (c : Cluster)

def graph (r : ℕ) : CompiledGraph := c.plan.graph c.env r

def chunkSize : ℕ := c.graphOptions.legacyLayout.chunkSize c.program

def elementSize : ℕ := c.graphOptions.legacyLayout.elementSize

def slice : ℕ := pcclSubchunkSliceFor c.env c.chunkSize

def ringSlots : ℕ := pcclRingSlotsFor c.env

def numSubchunks : ℕ := numSubchunksFor c.env c.chunkSize

/-- Node `i` of rank `r`. -/
def node? (r i : ℕ) : Option InstructionNode := (c.graph r).nodes[i]?

/-- `subchunkSize`. -/
def subchunkSize (n : InstructionNode) (sc : ℕ) : ℕ :=
  if n.workBytes ≤ sc * c.slice then 0 else min c.slice (n.workBytes - sc * c.slice)

/-- Offset of slice `sc` in its chunk. -/
def subOffset (ringBuffered : Bool) (sc : ℕ) : ℕ :=
  if ringBuffered then sc % c.ringSlots * c.slice else sc * c.slice

/-- `resolve`: the address of a slice on rank `r`. -/
def resolve (r : ℕ) (key : BaseKey) (sc : ℕ) (ringBuffered : Bool) : Option ℕ :=
  if key.space = .host then
    ((c.binding r).hostBase key.owner).map fun base =>
      base + key.chunk.toNat * c.chunkSize + c.subOffset ringBuffered sc
  else
    ((c.binding r).deviceBase key.space key.owner).map fun base =>
      let layout := (c.graph r).runtimeLayout key.space
      let cps := max 1 layout.chunksPerSegment
      let seg := key.chunk.toNat / cps
      let chunkInSeg := key.chunk.toNat % cps
      let inSegment :=
        if 0 ≤ key.chunk ∧ key.chunk.toNat < layout.chunkOffsets.length then
          layout.chunkOffsets.getD key.chunk.toNat 0
        else chunkInSeg * layout.chunkSize
      base + (seg * layout.segmentSize + layout.strideOffset + inSegment) + sc * c.slice

/-- `graphUsesMultipleHostNumas`: the NUMA nodes of the active host chunks. -/
def usesMultipleHostNumas (r : ℕ) : Bool :=
  decide (1 < (((c.graph r).activeProgressKeys.filterMap fun key =>
    if key.base.space = .host then some key.base.owner else none).dedup).length)

end Cluster

/-! ## Work in flight -/

/-- Where work in flight is queued: the event rings of the DMA lanes, and the
list of H2H work. -/
inductive Queue
  | d2h
  | h2d
  | d2dPeer
  | d2dLocal
  | d2dReduce
  | h2h
  deriving DecidableEq, Repr

/-- `selectDmaLane`, and the H2H list for host copies. -/
def queueOf (n : InstructionNode) : Queue :=
  match n.op with
  | .d2h => .d2h
  | .h2d => .h2d
  | .d2d => if n.d2dPlacement = .local then .d2dLocal else .d2dPeer
  | .d2dReduce => .d2dReduce
  | .h2h | .h2hReduce => .h2h
  | .nop => .h2d

/-- Events of a lane's ring. -/
def eventRingCapacity : ℕ := 64

/-- A contiguous part of a subchunk: of the bytes from `start` to `stop`, those from
`pos` on are still to be worked through. -/
structure Share where
  start : ℕ
  pos : ℕ
  stop : ℕ
  counted : Bool := false
  deriving DecidableEq, Repr

/-- A subchunk of a node in flight. -/
structure Inflight where
  node : ℕ
  sc : ℕ
  shares : List Share
  deriving DecidableEq, Repr

/-- `done_counter`, or whether the event has completed. -/
def Inflight.doneCounter (e : Inflight) : ℕ := e.shares.countP (·.counted)

/-- `done_counter >= expected`. -/
def Inflight.finished (e : Inflight) : Bool := decide (e.shares.length ≤ e.doneCounter)

namespace Cluster

variable (c : Cluster)

/-- The unit an H2H worker counts in: bytes for a copy, elements for a reduce. -/
def workUnit (n : InstructionNode) : ℕ := if n.op = .h2h then 1 else max 1 c.elementSize

/-- `processGraphWork`: the range of worker `tid`, of `bytes` bytes. -/
def threadShare (n : InstructionNode) (bytes tid : ℕ) : Share :=
  let unit := c.workUnit n
  let units := bytes / unit
  let perThreadUnits := (units + c.h2hThreads - 1) / c.h2hThreads
  let myStart := min (tid * perThreadUnits * unit) bytes
  let myEnd := min (myStart + perThreadUnits * unit) bytes
  { start := myStart, pos := myStart, stop := myEnd }

/-- The shares of H2H work: `submitGraphWork`. -/
def h2hShares (n : InstructionNode) (bytes : ℕ) : List Share :=
  (List.range c.h2hThreads).map (c.threadShare n bytes)

/-- A DMA is one share. -/
def sharesOf (n : InstructionNode) (bytes : ℕ) : List Share :=
  if n.op = .h2h ∨ n.op = .h2hReduce then c.h2hShares n bytes
  else [{ start := 0, pos := 0, stop := bytes }]

end Cluster

/-! ## The state of an executor -/

/-- The next things an executor thread does: accesses to shared words, in program
order, and the decisions of `trySubmitNode` once its loads are through. -/
inductive Op
  | setNumReaders (key : ProgressKey) (count : ℕ)
  | publishUserReady
  | setWriteProgress (key : ProgressKey) (value : ℕ)
  | advanceWriteProgress (key : ProgressKey) (value : ℕ)
  /-- `advanceReaderDone`: raise the cursor, then scan. -/
  | advanceReaderDone (key : ProgressKey) (id value : ℕ)
  /-- The loop head: load `num_readers`. -/
  | scanReaders (key : ProgressKey) (i minRd : ℕ)
  /-- The loop body: load `reader_done[i]`. -/
  | scanReader (key : ProgressKey) (i minRd : ℕ)
  | raiseConsumeProgress (key : ProgressKey) (value : ℕ)
  /-- Give up unless `write_progress >= value`. -/
  | loadWriteProgress (key : ProgressKey) (value : ℕ)
  /-- Go on if there are no readers, else load `consume_progress`. -/
  | loadNumReaders (key : ProgressKey) (value : ℕ)
  /-- Give up unless `consume_progress >= value`. -/
  | loadConsumeProgress (key : ProgressKey) (value : ℕ)
  /-- Give up unless the other rank's user buffers are ready. -/
  | loadUserReady (rank : ℤ)
  /-- Publish the next subchunk of node `i`, which needs no work. -/
  | finishNow (i : ℕ)
  | submitH2h (i : ℕ)
  | submitDma (i : ℕ)
  /-- Put a DMA and its event into the lane's ring. -/
  | recordDma (i : ℕ)
  deriving DecidableEq, Repr

structure Exec where
  started : Bool := false
  /-- `finishCurrentWork` was called with an error; the work in flight goes on,
  but nobody polls it. -/
  failed : Bool := false
  /-- What the thread still has to do before it polls or tries a node again. -/
  todo : List Op := []
  next : ℕ → ℕ := fun _ => 0
  completed : ℕ → ℕ := fun _ => 0
  inflight : Queue → List Inflight := fun _ => []

/-- The joint state of all executors. -/
structure State where
  execs : ℕ → Exec
  words : SharedWords

def State.init (stale : Word → ℕ) : State where
  execs := fun _ => {}
  words := SharedWords.init stale

end Executor
end HyLink
