import Mathlib.Data.Nat.Notation
import Mathlib.Logic.Function.Basic
import HyLink.Fastpath.AllReduce

/-!
# A series of small-message collectives

`SmallMessageExecutor` of every rank over an endless series of requests: AllGather, Broadcast,
AllReduce and ReduceScatter in any order, each with its own buffers and counts.

* `submit` — the host threads run ahead of the workers by at most the queue depth.
* `CompletionFlag`, with stream memory operations — the user's stream announces that it has reached
  a request, waits until the request is complete, and goes on.
* `execute` — the worker of a rank; the words of the slots it shares with its peers are used again
  and again, and so are the staging buffer and the scratch.
* A launched kernel runs later, in the order of its stream, and processes its elements one by one
  in any order.

Addresses count elements.  All requests have elements of one type.
-/

namespace HyLink
namespace Fastpath
namespace Series

/-- `CollectiveKind`; a broadcast with its root. -/
inductive CollectiveKind where
  | allGather
  | allReduce
  | reduceScatter
  | broadcast (root : ℕ)
  deriving DecidableEq, Repr

/-- `Request`, as all ranks submit it. -/
structure Request (V : Type) where
  kind : CollectiveKind
  /-- `seg_count`. -/
  segCount : ℕ
  /-- The reduction of two elements. -/
  reduceOp : V → V → V
  /-- The address of `sendbuff` on the device of a rank. -/
  sendbuff : ℕ → ℕ
  /-- The address of `recvbuff` on the device of a rank. -/
  recvbuff : ℕ → ℕ

/-- A memory. -/
inductive Place where
  | device (rank : ℕ)
  /-- The scratch of a slot, on the device. -/
  | scratch (rank slot : ℕ)
  /-- The chunk of a rank in the staging pool, on the host. -/
  | staging (rank : ℕ)
  deriving DecidableEq, Repr

/-- What `devLaunchD2DReduce` adds to the receive buffer. -/
inductive Operand where
  | scratch
  | own
  deriving DecidableEq, Repr

/-- A kernel on the stream of a worker.  An offset into a source counts from its send buffer,
one into the receive buffer from its start. -/
inductive StreamOp where
  /-- A copy to the receive buffer. -/
  | copy (offset : ℕ) (src : SourceInfo) (srcOffset : ℕ)
  /-- `copySourceToDevice` to the scratch of the slot. -/
  | load (src : SourceInfo) (srcOffset : ℕ)
  /-- `devLaunchD2DReduce`. -/
  | reduce (operand : Operand)
  deriving DecidableEq, Repr

/-- What the worker thread does next. -/
inductive HostOp where
  /-- `waitForUserReadyAndPublish`. -/
  | ready
  /-- `publishFastpathDirectStatus`. -/
  | publishStatus
  /-- The wait for the direct status of a peer. -/
  | resolve (peer : ℕ)
  /-- `stageLocalSource`, or its sequence number alone when all are direct. -/
  | stage
  /-- A launch that waits for no source. -/
  | own
  /-- `buildSourceInfo` of a source, and what is launched with it. -/
  | source (rank : ℕ)
  /-- `synchronizeStream`. -/
  | synchronize
  /-- The arrival at the barrier. -/
  | arrive
  /-- The wait for the generation of the barrier. -/
  | leave
  /-- `signalComplete`. -/
  | signal
  /-- `finishWork`. -/
  | finish
  deriving DecidableEq, Repr

/-- A communicator and what is submitted on it. -/
structure Comm (V : Type) where
  worldSize : ℕ
  /-- The constructor wants two ranks or more. -/
  one_lt_worldSize : 1 < worldSize
  queueDepth : ℕ
  queueDepth_pos : 0 < queueDepth
  /-- `pairDirectAllowed`. -/
  pairDirectAllowed : ℕ → ℕ → Bool
  deviceIpcEnabled : ℕ → Bool
  /-- The requests, in the order in which every rank submits them. -/
  request : ℕ → Request V
  /-- For a request: the device buffer of the second rank is found by the first when it computes
  its direct status. -/
  probed : ℕ → ℕ → ℕ → Bool
  /-- It is found when the first rank builds the source. -/
  bound : ℕ → ℕ → ℕ → Bool
  /-- A buffer once found is found again. -/
  bound_of_probed : ∀ k r s, probed k r s = true → bound k r s = true
  /-- For a request and a rank: the device as the user's stream leaves it when it reaches the
  request. -/
  given : ℕ → ℕ → ℕ → V

/-- The executor of a rank: its queue, its worker thread, its stream and the user's stream. -/
structure Worker where
  /-- `work_seq_counter_`. -/
  submitted : ℕ
  /-- Requests that are finished, and with that the one at work or next. -/
  finished : ℕ
  /-- What is left of `execute`; nothing while the worker waits for work. -/
  todo : List HostOp
  queue : List StreamOp
  /-- The elements the first kernel of the queue has processed. -/
  processed : List ℕ
  /-- `all_direct`, as far as resolved. -/
  allDirect : Bool
  /-- The barrier generation read on arrival. -/
  generation : ℕ
  /-- Requests the user's stream has reached. -/
  reached : ℕ
  /-- Requests the user's stream has gone past. -/
  released : ℕ

/-- The words of the queue slots, by rank and slot, and the barrier. -/
structure Words where
  readySeq : ℕ → ℕ → ℕ
  stageSeq : ℕ → ℕ → ℕ
  directOkSeq : ℕ → ℕ → ℕ
  directMissingSeq : ℕ → ℕ → ℕ
  /-- `ready_seq_host` of the completion flag. -/
  readyHost : ℕ → ℕ → ℕ
  /-- `complete_seq_host` of the completion flag. -/
  completeHost : ℕ → ℕ → ℕ
  barrierCount : ℕ
  barrierGeneration : ℕ

structure State (V : Type) where
  mem : Place → ℕ → V
  words : Words
  worker : ℕ → Worker

/-- A step of the system. -/
inductive Label (V : Type) where
  /-- A host thread submits its next request. -/
  | submit (rank : ℕ)
  /-- The worker of a rank takes the next request. -/
  | take (rank : ℕ)
  /-- The worker of a rank does its next operation. -/
  | host (rank : ℕ)
  /-- The running kernel of a rank processes an element. -/
  | element (rank index : ℕ)
  /-- The running kernel of a rank ends. -/
  | retire (rank : ℕ)
  /-- The user's stream of a rank changes its device. -/
  | write (rank : ℕ) (device : ℕ → V)
  /-- The user's stream reaches the next request. -/
  | reach (rank : ℕ)
  /-- The user's stream finds the request complete. -/
  | release (rank : ℕ)

namespace Comm

variable {V : Type} (c : Comm V)

/-! ## Requests -/

/-- `slot` of a request. -/
def slot (k : ℕ) : ℕ := k % c.queueDepth

/-- `work_seq` of a request. -/
def workSeq (k : ℕ) : ℕ := k + 1

/-- `rank_offset` in a send buffer with a segment for every rank. -/
def rankOffset (k r : ℕ) : ℕ := r * (c.request k).segCount

/-- `sourceRankNeeded`. -/
def sourceRankNeeded (k r s : ℕ) : Bool :=
  s != r &&
    match (c.request k).kind with
    | .broadcast root => s == root
    | _ => decide (s < c.worldSize)

/-- `collectiveTopologyCanAllDirect`. -/
def collectiveTopologyCanAllDirect (k : ℕ) : Bool :=
  (List.range c.worldSize).all fun dst => (List.range c.worldSize).all fun s =>
    !c.sourceRankNeeded k dst s || c.pairDirectAllowed dst s

/-- `localSourceNeededByAnyRank`. -/
def localSourceNeededByAnyRank (k r : ℕ) : Bool :=
  match (c.request k).kind with
  | .broadcast root => r == root
  | _ => true

/-- `localNeedsAllDirectSources`. -/
def localNeedsAllDirectSources (k r : ℕ) : Bool :=
  (List.range c.worldSize).all fun s => !c.sourceRankNeeded k r s ||
    (c.deviceIpcEnabled r && c.pairDirectAllowed r s && c.probed k r s)

/-- The send buffer of an AllGather is the segment of the rank, or the segment of a ReduceScatter
is its receive buffer. -/
def ownInPlace (k r : ℕ) : Bool :=
  match (c.request k).kind with
  | .allGather => (c.request k).sendbuff r = (c.request k).recvbuff r + c.rankOffset k r
  | .reduceScatter => (c.request k).sendbuff r + c.rankOffset k r = (c.request k).recvbuff r
  | .allReduce | .broadcast _ => (c.request k).sendbuff r = (c.request k).recvbuff r

/-- `allow_remote_direct`. -/
def allowRemoteDirect (k r : ℕ) (allDirect : Bool) : Bool :=
  allDirect ||
    match (c.request k).kind with
    | .allGather => !c.ownInPlace k r
    | .reduceScatter => false
    | .allReduce | .broadcast _ => true

/-- `buildSourceInfo` finds the source on its device. -/
def direct (k r : ℕ) (allDirect : Bool) (s : ℕ) : Bool :=
  s == r || (c.allowRemoteDirect k r allDirect && c.deviceIpcEnabled r && c.pairDirectAllowed r s &&
    c.bound k r s)

/-- The source `buildSourceInfo` finds. -/
def sourceInfo (k r : ℕ) (allDirect : Bool) (s : ℕ) : SourceInfo :=
  if c.direct k r allDirect s then .device s else .host s

/-- `seed_source`. -/
def seedSource (k r : ℕ) : ℕ :=
  if c.ownInPlace k r then r else ((List.range c.worldSize).find? fun s => s != r).getD r

/-! ## Executing a request -/

def executeAllGather : List HostOp := (List.range c.worldSize).map .source ++ [.synchronize]

/-- A root in place returns at once. -/
def executeBroadcast (k r root : ℕ) : List HostOp :=
  .source root :: if r = root ∧ c.ownInPlace k r then [] else [.synchronize]

def executeAllReduce (k r : ℕ) : List HostOp :=
  (if c.ownInPlace k r then [] else [.source (c.seedSource k r)]) ++
    ((List.range c.worldSize).filter fun s => s != c.seedSource k r).map
      (fun s => if s = r then .own else .source s) ++ [.synchronize]

def executeReduceScatter (r : ℕ) : List HostOp :=
  .own :: ((List.range c.worldSize).filter fun s => s != r).map .source ++ [.synchronize]

/-- The `switch` of `execute`. -/
def executeKind (k r : ℕ) : List HostOp :=
  match (c.request k).kind with
  | .allGather => c.executeAllGather
  | .broadcast root => c.executeBroadcast k r root
  | .allReduce => c.executeAllReduce k r
  | .reduceScatter => c.executeReduceScatter r

/-- `publishAndResolveDirectMode`. -/
def resolveDirectMode (k : ℕ) : List HostOp :=
  if c.collectiveTopologyCanAllDirect k then
    .publishStatus :: (List.range c.worldSize).map .resolve
  else []

/-- `execute` and `finishWork`. -/
def execute (k r : ℕ) : List HostOp :=
  .ready :: c.resolveDirectMode k ++ .stage :: c.executeKind k r ++
    [.arrive, .leave, .signal, .finish]

/-- The kernels an operation launches. -/
def launched (k r : ℕ) (allDirect : Bool) : HostOp → List StreamOp
  | .source s =>
    let src := c.sourceInfo k r allDirect s
    match (c.request k).kind with
    | .allGather => if s = r ∧ c.ownInPlace k r then [] else [.copy (c.rankOffset k s) src 0]
    | .broadcast _ => if s = r ∧ c.ownInPlace k r then [] else [.copy 0 src 0]
    | .allReduce =>
      if s = c.seedSource k r ∧ ¬ c.ownInPlace k r then [.copy 0 src 0]
      else [.load src 0, .reduce .scratch]
    | .reduceScatter => [.load src (c.rankOffset k r), .reduce .scratch]
  | .own =>
    match (c.request k).kind with
    | .allReduce => [.reduce .own]
    | .reduceScatter => if c.ownInPlace k r then [] else [.copy 0 (.device r) (c.rankOffset k r)]
    | .allGather | .broadcast _ => []
  | _ => []

/-- The waits of `buildSourceInfo`. -/
def sourceReady (w : Words) (k r : ℕ) (allDirect : Bool) (s : ℕ) : Bool :=
  s == r || (w.readySeq s (c.slot k) == workSeq k &&
    (c.direct k r allDirect s || w.stageSeq s (c.slot k) == workSeq k))

/-- `getFastpathDirectStatus`. -/
def getFastpathDirectStatus (w : Words) (k r : ℕ) : Option Bool :=
  if w.directOkSeq r (c.slot k) = workSeq k then some true
  else if w.directMissingSeq r (c.slot k) = workSeq k then some false
  else none

/-- A word of a rank and a slot is stored. -/
def store (word : ℕ → ℕ → ℕ) (r slot v : ℕ) : ℕ → ℕ → ℕ :=
  Function.update word r (Function.update (word r) slot v)

/-- `publishFastpathDirectStatus`.  A reader that comes between its two stores sees no status, as
it did before. -/
def publishFastpathDirectStatus (w : Words) (k r : ℕ) (allDirect : Bool) : Words :=
  if allDirect then
    { w with
      directMissingSeq := store w.directMissingSeq r (c.slot k) 0
      directOkSeq := store w.directOkSeq r (c.slot k) (workSeq k) }
  else
    { w with
      directOkSeq := store w.directOkSeq r (c.slot k) 0
      directMissingSeq := store w.directMissingSeq r (c.slot k) (workSeq k) }

/-- The arrival at `SharedStateManager::barrier`: the last rank resets the count and raises the
generation. -/
def arriveBarrier (w : Words) : Words :=
  if w.barrierCount + 1 = c.worldSize then
    { w with barrierCount := 0, barrierGeneration := w.barrierGeneration + 1 }
  else { w with barrierCount := w.barrierCount + 1 }

/-- Elements that a rank stages. -/
def stageCount (k : ℕ) : ℕ :=
  match (c.request k).kind with
  | .reduceScatter => (c.request k).segCount * c.worldSize
  | _ => (c.request k).segCount

/-- `stageLocalSource`: the wait for the event of the copy ends before the rank launches anything,
so the copy is one step. -/
def stageLocalSource (mem : Place → ℕ → V) (k r : ℕ) : Place → ℕ → V :=
  if c.localSourceNeededByAnyRank k r then
    Function.update mem (.staging r) fun i =>
      if i < c.stageCount k then mem (.device r) ((c.request k).sendbuff r + i)
      else mem (.staging r) i
  else mem

/-- The worker of rank `r` does `op`; `w` is its state without `op`. -/
def hostStep (st : State V) (r : ℕ) (w : Worker) : HostOp → Option (State V)
  | .ready =>
    if st.words.readyHost r (c.slot w.finished) = workSeq w.finished then
      some { st with
        words := { st.words with
          readySeq := store st.words.readySeq r (c.slot w.finished) (workSeq w.finished) }
        worker := Function.update st.worker r w }
    else none
  | .publishStatus =>
    some { st with
      words := c.publishFastpathDirectStatus st.words w.finished r
        (c.localNeedsAllDirectSources w.finished r)
      worker := Function.update st.worker r w }
  | .resolve p =>
    (c.getFastpathDirectStatus st.words w.finished p).map fun ok =>
      { st with
        worker := Function.update st.worker r { w with allDirect := w.allDirect && ok } }
  | .stage =>
    some { st with
      mem := if w.allDirect then st.mem else c.stageLocalSource st.mem w.finished r
      words := { st.words with
        stageSeq := store st.words.stageSeq r (c.slot w.finished) (workSeq w.finished) }
      worker := Function.update st.worker r w }
  | .own =>
    some { st with
      worker := Function.update st.worker r
        { w with queue := w.queue ++ c.launched w.finished r w.allDirect .own } }
  | .source s =>
    if c.sourceReady st.words w.finished r w.allDirect s then
      some { st with
        worker := Function.update st.worker r
          { w with queue := w.queue ++ c.launched w.finished r w.allDirect (.source s) } }
    else none
  | .synchronize =>
    if w.queue = [] then some { st with worker := Function.update st.worker r w } else none
  | .arrive =>
    some { st with
      words := c.arriveBarrier st.words
      worker := Function.update st.worker r
        { w with generation := st.words.barrierGeneration } }
  | .leave =>
    if w.generation < st.words.barrierGeneration then
      some { st with worker := Function.update st.worker r w }
    else none
  | .signal =>
    some { st with
      words := { st.words with
        completeHost := store st.words.completeHost r (c.slot w.finished) (workSeq w.finished) }
      worker := Function.update st.worker r w }
  | .finish =>
    some { st with
      worker := Function.update st.worker r { w with finished := w.finished + 1 } }

/-- Element `i` of what a source is read from, at an offset. -/
def sourceElement (mem : Place → ℕ → V) (k : ℕ) : SourceInfo → ℕ → V
  | .device s, i => mem (.device s) ((c.request k).sendbuff s + i)
  | .host s, i => mem (.staging s) i

/-- A kernel of rank `r` processes element `i`. -/
def runElement (mem : Place → ℕ → V) (k r i : ℕ) : StreamOp → Place → ℕ → V
  | .copy offset src srcOffset =>
    Function.update mem (.device r) (Function.update (mem (.device r))
      ((c.request k).recvbuff r + offset + i) (c.sourceElement mem k src (srcOffset + i)))
  | .load src srcOffset =>
    Function.update mem (.scratch r (c.slot k)) (Function.update (mem (.scratch r (c.slot k))) i
      (c.sourceElement mem k src (srcOffset + i)))
  | .reduce .scratch =>
    Function.update mem (.device r) (Function.update (mem (.device r))
      ((c.request k).recvbuff r + i) ((c.request k).reduceOp
        (mem (.device r) ((c.request k).recvbuff r + i)) (mem (.scratch r (c.slot k)) i)))
  | .reduce .own =>
    Function.update mem (.device r) (Function.update (mem (.device r))
      ((c.request k).recvbuff r + i) ((c.request k).reduceOp
        (mem (.device r) ((c.request k).recvbuff r + i))
        (mem (.device r) ((c.request k).sendbuff r + i))))

/-! ## Steps -/

/-- `submit`, with `prepareUserWait`. -/
def submit (st : State V) (r : ℕ) : Option (State V) :=
  let w := st.worker r
  if w.submitted - w.finished < c.queueDepth then
    some { st with
      words := { st.words with
        readyHost := store st.words.readyHost r (c.slot w.submitted) 0 }
      worker := Function.update st.worker r { w with submitted := w.submitted + 1 } }
  else none

/-- A turn of `threadFunc`: the worker takes the next request of its queue. -/
def take (st : State V) (r : ℕ) : Option (State V) :=
  let w := st.worker r
  if w.todo = [] ∧ w.finished < w.submitted then
    some { st with
      worker := Function.update st.worker r
        { w with
          todo := c.execute w.finished r
          allDirect := c.collectiveTopologyCanAllDirect w.finished } }
  else none

/-- The running kernel of a rank processes an element. -/
def element (st : State V) (r i : ℕ) : Option (State V) :=
  let w := st.worker r
  match w.queue with
  | op :: _ =>
    if i < (c.request w.finished).segCount ∧ i ∉ w.processed then
      some { st with
        mem := c.runElement st.mem w.finished r i op
        worker := Function.update st.worker r { w with processed := i :: w.processed } }
    else none
  | [] => none

/-- The running kernel of a rank ends. -/
def retire (st : State V) (r : ℕ) : Option (State V) :=
  let w := st.worker r
  match w.queue with
  | _ :: rest =>
    if ∀ i < (c.request w.finished).segCount, i ∈ w.processed then
      some { st with
        worker := Function.update st.worker r { w with queue := rest, processed := [] } }
    else none
  | [] => none

/-- The user's stream changes its device. -/
def write (st : State V) (r : ℕ) (device : ℕ → V) : Option (State V) :=
  if (st.worker r).released = (st.worker r).reached then
    some { st with mem := Function.update st.mem (.device r) device }
  else none

/-- The last write of the user's stream in front of a request, and `devStreamWriteValue64` of the
ready word. -/
def reach (st : State V) (r : ℕ) : Option (State V) :=
  let w := st.worker r
  if w.released = w.reached ∧ w.reached < w.submitted then
    some { st with
      mem := Function.update st.mem (.device r) (c.given w.reached r)
      words := { st.words with
        readyHost := store st.words.readyHost r (c.slot w.reached) (workSeq w.reached) }
      worker := Function.update st.worker r { w with reached := w.reached + 1 } }
  else none

/-- `devStreamWaitValue64` of the completion word. -/
def release (st : State V) (r : ℕ) : Option (State V) :=
  let w := st.worker r
  if w.released < w.reached ∧
      workSeq w.released ≤ st.words.completeHost r (c.slot w.released) then
    some { st with
      worker := Function.update st.worker r { w with released := w.released + 1 } }
  else none

end Comm

/-- The rank that takes the step. -/
def Label.rank {V : Type} : Label V → ℕ
  | .submit r | .take r | .host r | .element r _ | .retire r | .write r _ | .reach r
  | .release r => r

namespace Comm

variable {V : Type} (c : Comm V)

/-- One step. -/
def step (st : State V) (l : Label V) : Option (State V) :=
  if l.rank < c.worldSize then
    match l with
    | .submit r => c.submit st r
    | .take r => c.take st r
    | .host r =>
      match (st.worker r).todo with
      | op :: rest => c.hostStep st r { st.worker r with todo := rest } op
      | [] => none
    | .element r i => c.element st r i
    | .retire r => c.retire st r
    | .write r device => write st r device
    | .reach r => c.reach st r
    | .release r => c.release st r
  else none

def machine : Theory.Machine (State V) (Label V) := ⟨c.step⟩

end Comm

/-- The communicator as its initialization leaves it: words are zero, memories hold anything. -/
def State.init {V : Type} (mem : Place → ℕ → V) : State V where
  mem := mem
  words :=
    { readySeq := fun _ _ => 0, stageSeq := fun _ _ => 0, directOkSeq := fun _ _ => 0,
      directMissingSeq := fun _ _ => 0, readyHost := fun _ _ => 0, completeHost := fun _ _ => 0,
      barrierCount := 0, barrierGeneration := 0 }
  worker := fun _ =>
    { submitted := 0, finished := 0, todo := [], queue := [], processed := [], allDirect := false,
      generation := 0, reached := 0, released := 0 }

end Series
end Fastpath
end HyLink
