import Mathlib.Data.Nat.Notation
import Mathlib.Logic.Function.Basic
import HyLink.Theory.Machine

/-!
# The small-message AllReduce

`SmallMessageExecutor::execute` of every rank for one AllReduce: the worker
thread of the rank, the stream it launches copies and reductions on, and the
shared words of one queue slot by which the ranks agree on the direct mode and
announce their sources.

* A worker runs its list of host operations; the waits of the source are
  operations that are enabled only once what they wait for has happened.
* A launched kernel runs later, after the ones launched before it on the same
  stream, and touches the elements of its buffers one by one in any order.
* An in-place rank has one buffer: its receive buffer is its send buffer.

`canHandle` admits an AllReduce only where the topology lets every pair of
ranks use peer copies, so the status words are always exchanged.
-/

namespace HyLink
namespace Fastpath

/-- A buffer of a rank.  `staging` is the rank's chunk of the staging pool and
`scratch` its device scratch of the slot. -/
inductive Buf where
  | send (rank : ℕ)
  | recv (rank : ℕ)
  | scratch (rank : ℕ)
  | staging (rank : ℕ)
  deriving DecidableEq, Repr

/-- `SourceInfo`: where the contribution of a rank is read. -/
inductive SourceInfo where
  /-- The send buffer, on the device of that rank. -/
  | device (rank : ℕ)
  /-- The staged copy, on the host. -/
  | host (rank : ℕ)
  deriving DecidableEq, Repr

/-- The rank whose contribution it is. -/
def SourceInfo.rank : SourceInfo → ℕ
  | .device s | .host s => s

/-- A kernel on the reduce stream. -/
inductive StreamOp where
  /-- `copySourceToDevice` to the receive buffer. -/
  | seed (src : SourceInfo)
  /-- `copySourceToDevice` to the scratch of the slot. -/
  | load (src : SourceInfo)
  /-- `devLaunchD2DReduce(recv, scratch)`. -/
  | reduce
  /-- `devLaunchD2DReduce(recv, sendbuff)`. -/
  | reduceOwn
  deriving DecidableEq, Repr

/-- What the worker thread does next. -/
inductive HostOp where
  /-- `waitForUserReadyAndPublish`. -/
  | ready
  /-- `publishFastpathDirectStatus`. -/
  | publishStatus
  /-- The wait for the direct status of a peer. -/
  | resolve (peer : ℕ)
  /-- `stageLocalSource`, or its sequence number alone when all are direct. -/
  | stage
  /-- `buildSourceInfo` of the seed source and its copy. -/
  | seed (source : ℕ)
  /-- A turn of the reduce loop. -/
  | fold (source : ℕ)
  /-- `synchronizeStream`. -/
  | synchronize
  /-- The arrival at the barrier. -/
  | arrive
  /-- The wait for the generation of the barrier. -/
  | leave
  deriving DecidableEq, Repr

/-- One AllReduce as all ranks submit it. -/
structure AllReduce (V : Type) where
  /-- `world_size`. -/
  worldSize : ℕ
  worldSize_pos : 0 < worldSize
  /-- `seg_count`. -/
  count : ℕ
  /-- The reduction of two elements. -/
  op : V → V → V
  /-- `sendbuff == recvbuff` at the rank. -/
  inPlace : ℕ → Bool
  /-- The device buffer of the second rank is found by the first when it computes its
  direct status. -/
  probed : ℕ → ℕ → Bool
  /-- It is found when the first rank builds the source. -/
  bound : ℕ → ℕ → Bool
  /-- A buffer once found is found again. -/
  bound_of_probed : ∀ r s, probed r s = true → bound r s = true
  /-- The send buffer of a rank when the user's stream has produced it. -/
  input : ℕ → ℕ → V
  /-- The sequence number of the collective, counted from one. -/
  workSeq : ℕ
  workSeq_pos : 0 < workSeq

/-- The worker thread of a rank and its reduce stream. -/
structure Worker where
  todo : List HostOp
  queue : List StreamOp
  /-- The elements the first kernel of the queue has processed. -/
  processed : List ℕ
  /-- `global_all_direct` as far as resolved. -/
  allDirect : Bool
  /-- The user's stream has produced the send buffer. -/
  userReady : Bool
  /-- The barrier generation read on arrival. -/
  generation : ℕ
  deriving Repr

/-- The words of one queue slot and the barrier, in shared memory. -/
structure SlotWords where
  readySeq : ℕ → ℕ
  stageSeq : ℕ → ℕ
  directOkSeq : ℕ → ℕ
  directMissingSeq : ℕ → ℕ
  barrierCount : ℕ
  barrierGeneration : ℕ

structure State (V : Type) where
  mem : Buf → ℕ → V
  words : SlotWords
  worker : ℕ → Worker

/-- A step of the system. -/
inductive Label where
  /-- The user's stream of a rank reaches the collective. -/
  | user (rank : ℕ)
  /-- The worker of a rank does its next operation. -/
  | host (rank : ℕ)
  /-- The running kernel of a rank processes an element. -/
  | element (rank index : ℕ)
  /-- The running kernel of a rank ends. -/
  | retire (rank : ℕ)
  deriving DecidableEq, Repr

namespace AllReduce

variable {V : Type} (c : AllReduce V)

/-- The buffer `recvbuff` of a rank names. -/
def recvBuf (r : ℕ) : Buf := if c.inPlace r then .send r else .recv r

/-- `localNeedsAllDirectSources`. -/
def localNeedsAllDirectSources (r : ℕ) : Bool :=
  (List.range c.worldSize).all fun s => s == r || c.probed r s

/-- `seed_source`. -/
def seedSource (r : ℕ) : ℕ :=
  if c.inPlace r then r else ((List.range c.worldSize).find? fun s => s != r).getD r

/-- The sources of the reduce loop of `executeAllReduce`, in its order. -/
def foldSources (r : ℕ) : List ℕ :=
  (List.range c.worldSize).filter fun s => s != c.seedSource r

def executeAllReduce (r : ℕ) : List HostOp :=
  (if c.inPlace r then [] else [.seed (c.seedSource r)]) ++
    (c.foldSources r).map .fold ++ [.synchronize]

/-- `execute`, from the wait for the user's stream to the end of the barrier. -/
def execute (r : ℕ) : List HostOp :=
  [.ready, .publishStatus] ++ (List.range c.worldSize).map .resolve ++ [.stage] ++
    c.executeAllReduce r ++ [.arrive, .leave]

/-- The source `buildSourceInfo` finds.  An AllReduce keeps `allow_remote_direct` set. -/
def sourceInfo (r s : ℕ) : SourceInfo :=
  if s = r ∨ c.bound r s = true then .device s else .host s

/-- The kernels an operation launches. -/
def launched (r : ℕ) : HostOp → List StreamOp
  | .seed s => [.seed (c.sourceInfo r s)]
  | .fold s => if s = r then [.reduceOwn] else [.load (c.sourceInfo r s), .reduce]
  | _ => []

/-- The waits of `buildSourceInfo`. -/
def sourceReady (w : SlotWords) (r s : ℕ) : Bool :=
  s = r || (w.readySeq s = c.workSeq && (c.bound r s || w.stageSeq s = c.workSeq))

/-- `getFastpathDirectStatus`. -/
def getFastpathDirectStatus (w : SlotWords) (r : ℕ) : Option Bool :=
  if w.directOkSeq r = c.workSeq then some true
  else if w.directMissingSeq r = c.workSeq then some false
  else none

/-- `publishFastpathDirectStatus`.  A reader that comes between its two stores sees no
status, as it did before. -/
def publishFastpathDirectStatus (w : SlotWords) (r : ℕ) (allDirect : Bool) : SlotWords :=
  if allDirect then
    { w with
      directMissingSeq := Function.update w.directMissingSeq r 0
      directOkSeq := Function.update w.directOkSeq r c.workSeq }
  else
    { w with
      directOkSeq := Function.update w.directOkSeq r 0
      directMissingSeq := Function.update w.directMissingSeq r c.workSeq }

/-- The arrival at `SharedStateManager::barrier`: the last rank resets the count and
raises the generation. -/
def arriveBarrier (w : SlotWords) : SlotWords :=
  if w.barrierCount + 1 = c.worldSize then
    { w with barrierCount := 0, barrierGeneration := w.barrierGeneration + 1 }
  else { w with barrierCount := w.barrierCount + 1 }

/-- `stageLocalSource`: the wait for the event of the copy ends before the rank launches
anything, so the copy is one step. -/
def stageLocalSource (mem : Buf → ℕ → V) (r : ℕ) : Buf → ℕ → V :=
  Function.update mem (.staging r) (mem (.send r))

/-- The worker of rank `r` does `op`; `w` is its state without `op`. -/
def hostStep (st : State V) (r : ℕ) (w : Worker) : HostOp → Option (State V)
  | .ready =>
    if w.userReady then
      some { st with
        words := { st.words with readySeq := Function.update st.words.readySeq r c.workSeq }
        worker := Function.update st.worker r w }
    else none
  | .publishStatus =>
    some { st with
      words := c.publishFastpathDirectStatus st.words r (c.localNeedsAllDirectSources r)
      worker := Function.update st.worker r w }
  | .resolve p =>
    (c.getFastpathDirectStatus st.words p).map fun ok =>
      { st with
        worker := Function.update st.worker r { w with allDirect := w.allDirect && ok } }
  | .stage =>
    some { st with
      mem := if w.allDirect then st.mem else stageLocalSource st.mem r
      words := { st.words with stageSeq := Function.update st.words.stageSeq r c.workSeq }
      worker := Function.update st.worker r w }
  | .seed s =>
    if c.sourceReady st.words r s then
      some { st with
        worker := Function.update st.worker r
          { w with queue := w.queue ++ c.launched r (.seed s) } }
    else none
  | .fold s =>
    if c.sourceReady st.words r s then
      some { st with
        worker := Function.update st.worker r
          { w with queue := w.queue ++ c.launched r (.fold s) } }
    else none
  | .synchronize =>
    if w.queue = [] then some { st with worker := Function.update st.worker r w } else none
  | .arrive =>
    some { st with
      words := c.arriveBarrier st.words
      worker := Function.update st.worker r
        { w with generation := st.words.barrierGeneration } }
  | .leave =>
    if w.generation < st.words.barrierGeneration then
      some { st with worker := Function.update st.worker r w }
    else none

/-- The buffer a source is read from. -/
def sourceBuf : SourceInfo → Buf
  | .device s => .send s
  | .host s => .staging s

/-- A kernel of rank `r` processes element `i`. -/
def runElement (mem : Buf → ℕ → V) (r i : ℕ) : StreamOp → Buf → ℕ → V
  | .seed src => Function.update mem (c.recvBuf r)
      (Function.update (mem (c.recvBuf r)) i (mem (sourceBuf src) i))
  | .load src => Function.update mem (.scratch r)
      (Function.update (mem (.scratch r)) i (mem (sourceBuf src) i))
  | .reduce => Function.update mem (c.recvBuf r)
      (Function.update (mem (c.recvBuf r)) i (c.op (mem (c.recvBuf r) i) (mem (.scratch r) i)))
  | .reduceOwn => Function.update mem (c.recvBuf r)
      (Function.update (mem (c.recvBuf r)) i (c.op (mem (c.recvBuf r) i) (mem (.send r) i)))

/-- One step. -/
def step (st : State V) : Label → Option (State V)
  | .user r =>
    if r < c.worldSize ∧ (st.worker r).userReady = false then
      some { st with
        mem := Function.update st.mem (.send r) (c.input r)
        worker := Function.update st.worker r { st.worker r with userReady := true } }
    else none
  | .host r =>
    match (st.worker r).todo with
    | op :: rest => if r < c.worldSize then c.hostStep st r { st.worker r with todo := rest } op
        else none
    | [] => none
  | .element r i =>
    match (st.worker r).queue with
    | op :: _ =>
      if i < c.count ∧ i ∉ (st.worker r).processed then
        some { st with
          mem := c.runElement st.mem r i op
          worker := Function.update st.worker r
            { st.worker r with processed := i :: (st.worker r).processed } }
      else none
    | [] => none
  | .retire r =>
    match (st.worker r).queue with
    | _ :: rest =>
      if ∀ i < c.count, i ∈ (st.worker r).processed then
        some { st with
          worker := Function.update st.worker r
            { st.worker r with queue := rest, processed := [] } }
      else none
    | [] => none

def machine : Theory.Machine (State V) Label := ⟨c.step⟩

/-- The words of the slot as its last collective left them. -/
def Stale (w : SlotWords) : Prop :=
  w.barrierCount = 0 ∧
    ∀ r, w.readySeq r < c.workSeq ∧ w.stageSeq r < c.workSeq ∧
      w.directOkSeq r < c.workSeq ∧ w.directMissingSeq r < c.workSeq

/-- All workers at their start; the buffers hold anything. -/
def start (mem : Buf → ℕ → V) (words : SlotWords) : State V where
  mem := mem
  words := words
  worker := fun r =>
    { todo := c.execute r, queue := [], processed := [], allDirect := true, userReady := false,
      generation := 0 }

/-- The element-wise reduction of all ranks' send buffers, in rank order. -/
def reduction (i : ℕ) : V :=
  ((List.range (c.worldSize - 1)).map fun s => c.input (s + 1) i).foldl c.op (c.input 0 i)

end AllReduce

end Fastpath
end HyLink
