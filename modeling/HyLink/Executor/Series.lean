import HyLink.Executor.Origin

/-!
# A series of collectives

The executors of all ranks working off one collective after the other.  The
progress words have two parities; collective `k` uses the words of parity
`k % 2`, and when a rank has passed the barrier that ends the collective it
resets the words of its own active keys.  The reader counts have one copy, which
no reset touches.

* `Series` — the collectives, in the order every rank submits them.
* `Series.step` — a rank in collective `k` takes the steps of that collective's
  cluster on the words of its parity; between two collectives it passes the
  barrier and resets.
* `SeriesState.storedBy` — a record of the collective that last stored to a
  word's cursors since their reset.
-/

namespace HyLink
namespace Executor

open Ir Compiler

/-- The collectives of a communicator, numbered from one by their work sequence
number. -/
structure Series where
  worldSize : ℕ
  worldSize_pos : 0 < worldSize
  /-- `queue_depth_`. -/
  queueDepth : ℕ
  collective : ℕ → Cluster
  /-- All run on the ranks of the communicator. -/
  worldSize_eq : ∀ k, (collective k).worldSize = worldSize

/-- The cursors of one parity. -/
structure EpochWords where
  writeProgress : Word → ℕ
  consumeProgress : Word → ℕ
  readerDone : ℕ → Word → ℕ

/-- Where a rank's executor thread stands between collectives. -/
inductive Phase where
  | idle
  /-- In `runGraph`, before the barrier. -/
  | running
  /-- At the barrier, with the generation it read. -/
  | arrived (generation : ℕ)
  /-- In `resetEpochKeys`, with the keys still to reset. -/
  | resetting (keys : List ProgressKey)
  deriving DecidableEq, Repr

structure SeriesState where
  /-- The cursors, by parity. -/
  epoch : ℕ → EpochWords
  numReaders : Word → ℕ
  /-- `user_ready_seq`, by slot and rank. -/
  userReadySeq : ℕ → ℤ → ℕ
  barrierCount : ℕ
  barrierGeneration : ℕ
  /-- The collective a rank is in, or was in last. -/
  round : ℕ → ℕ
  phase : ℕ → Phase
  execs : ℕ → Exec
  /-- Which collective last stored to the cursors of a word of a parity; zero after a
  reset. -/
  storedBy : ℕ → Word → ℕ

/-- A key whose word exists: the bounds `resetEpochKeys` checks. -/
def keyInBounds (base : BaseKey) : Bool :=
  decide (0 ≤ base.owner ∧ 0 ≤ base.chunk ∧ base.chunk < maxChunks ∧
    base.owner < if base.space = .host then (maxNumaNodes : ℤ) else (maxRanks : ℤ))

/-- The word whose cursors a step may raise. -/
def storedWord (e : Exec) : Label → Option Word
  | .run _ =>
    match e.todo with
    | .setWriteProgress key _ :: _ | .advanceWriteProgress key _ :: _
    | .raiseConsumeProgress key _ :: _ => some (wordOf key)
    | .advanceReaderDone key id _ :: _ =>
      if maxProgressReaders ≤ id then none else some (wordOf key)
    | _ => none
  | _ => none

/-- Nothing of the thread's rank is in flight. -/
def Exec.drained (e : Exec) : Bool :=
  [Queue.d2h, .h2d, .d2dPeer, .d2dLocal, .d2dReduce, .h2h].all fun q => (e.inflight q).isEmpty

namespace EpochWords

/-- The cursors of a word, all at zero. -/
def zeroAt (w : EpochWords) (x : Word) : Prop :=
  w.writeProgress x = 0 ∧ w.consumeProgress x = 0 ∧ ∀ id, w.readerDone id x = 0

/-- `resetEpochKeys` for one key. -/
def reset (w : EpochWords) (x : Word) : EpochWords where
  writeProgress := Function.update w.writeProgress x 0
  consumeProgress := Function.update w.consumeProgress x 0
  readerDone := fun id => Function.update (w.readerDone id) x 0

end EpochWords

/-- What happens in a series. -/
inductive SeriesLabel where
  /-- Rank `r` takes its next collective from its queue. -/
  | take (r : ℕ)
  /-- A step of a rank inside its collective. -/
  | inner (l : Label)
  /-- It has finished `runGraph` and arrives at the barrier. -/
  | arrive (r : ℕ)
  /-- It sees the barrier's generation past. -/
  | leave (r : ℕ)
  /-- It resets its next key, or signals completion. -/
  | reset (r : ℕ)
  deriving DecidableEq, Repr

namespace Series

variable (S : Series)

/-- The completion slot of collective `k`. -/
def slot (k : ℕ) : ℕ := (k - 1) % S.queueDepth

/-- The shared words as collective `k` sees them. -/
def view (st : SeriesState) (k : ℕ) : SharedWords where
  writeProgress := (st.epoch (k % 2)).writeProgress
  consumeProgress := (st.epoch (k % 2)).consumeProgress
  readerDone := (st.epoch (k % 2)).readerDone
  numReaders := st.numReaders
  userReady := fun r => st.userReadySeq (S.slot k) r = k

/-- A step of collective `k` by rank `r` has left the words `w` and the thread `e`. -/
def put (st : SeriesState) (k r : ℕ) (w : SharedWords) (e : Exec) (stored : Option Word) :
    SeriesState :=
  { st with
    epoch := Function.update st.epoch (k % 2)
      ⟨w.writeProgress, w.consumeProgress, w.readerDone⟩
    numReaders := w.numReaders
    userReadySeq := Function.update st.userReadySeq (S.slot k) fun q =>
      if w.userReady q then k else st.userReadySeq (S.slot k) q
    execs := Function.update st.execs r e
    storedBy := Function.update st.storedBy (k % 2) fun x =>
      if stored = some x then k else st.storedBy (k % 2) x }

/-- `terminalsComplete`, and nothing left to poll. -/
def finished (c : Cluster) (w : SharedWords) (r : ℕ) (e : Exec) : Bool :=
  e.started && !e.failed && e.todo.isEmpty && e.drained &&
    ((List.range (c.graph r).nodes.length).all fun i => decide (c.numSubchunks ≤ e.completed i)) &&
    (c.graph r).terminalOutputs.all fun key => decide (c.numSubchunks ≤ w.getWriteProgress key)

def step (st : SeriesState) : SeriesLabel → Option SeriesState
  | .take r =>
    if r < S.worldSize ∧ st.phase r = .idle then
      some { st with
        round := Function.update st.round r (st.round r + 1)
        phase := Function.update st.phase r .running
        execs := Function.update st.execs r {} }
    else none
  | .inner l =>
    if l.rank < S.worldSize ∧ st.phase l.rank = .running then
      ((S.collective (st.round l.rank)).localStep l.rank (S.view st (st.round l.rank))
        (st.execs l.rank) l).map fun we =>
          S.put st (st.round l.rank) l.rank we.1 we.2 (storedWord (st.execs l.rank) l)
    else none
  | .arrive r =>
    if r < S.worldSize ∧ st.phase r = .running ∧
        finished (S.collective (st.round r)) (S.view st (st.round r)) r (st.execs r) then
      let arrived := { st with
        phase := Function.update st.phase r (.arrived st.barrierGeneration) }
      if st.barrierCount + 1 = S.worldSize then
        some { arrived with barrierCount := 0, barrierGeneration := st.barrierGeneration + 1 }
      else some { arrived with barrierCount := st.barrierCount + 1 }
    else none
  | .leave r =>
    match st.phase r with
    | .arrived g =>
      if g < st.barrierGeneration then
        some { st with
          phase := Function.update st.phase r
            (.resetting ((S.collective (st.round r)).graph r).activeProgressKeys) }
      else none
    | _ => none
  | .reset r =>
    match st.phase r with
    | .resetting (key :: keys) =>
      let next := { st with phase := Function.update st.phase r (.resetting keys) }
      if keyInBounds key.base then
        some { next with
          epoch := Function.update st.epoch (st.round r % 2)
            ((st.epoch (st.round r % 2)).reset (wordOf key))
          storedBy := Function.update st.storedBy (st.round r % 2)
            (Function.update (st.storedBy (st.round r % 2)) (wordOf key) 0) }
      else some next
    | .resetting [] => some { st with phase := Function.update st.phase r .idle }
    | _ => none

def machine : Theory.Machine SeriesState SeriesLabel := ⟨S.step⟩

/-- Before the first collective: the shared memory is zero, but for the reader counts. -/
def start (numReaders : Word → ℕ) : SeriesState where
  epoch := fun _ => ⟨fun _ => 0, fun _ => 0, fun _ _ => 0⟩
  numReaders := numReaders
  userReadySeq := fun _ _ => 0
  barrierCount := 0
  barrierGeneration := 0
  round := fun _ => 0
  phase := fun _ => .idle
  execs := fun _ => {}
  storedBy := fun _ _ => 0

end Series

end Executor
end HyLink
