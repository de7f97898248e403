import Mathlib.Data.List.Range
import Mathlib.Data.Nat.Notation
import Mathlib.Logic.Function.Basic

/-!
# The buffers of other ranks

A collective registers its buffers, and the ranks look up each other's to copy from them or to
them.  What is registered is kept once for each rank and kind: the record in shared memory, or the
pointer itself where the ranks are threads of one process.  A rank that runs ahead registers the
buffers of its next collective in the same place.

* `register` — `registerDeviceBuffers`, with the early return of `publishDeviceBufferLocked`.
* `Rank.getRemoteDeviceBuffer` — what a rank keeps of a record, and when it maps the memory anew.
* `step` — the host threads in `submitCollective`, the workers of the small messages, and the copies
  of the graphs; each access to the buffer of another rank is logged with the memory it goes to.

A record is read and published in one step; `IpcRecord.record_whole` is why.
-/

namespace HyLink
namespace Api
namespace Binding

open Function (update)

/-! ## Buffers -/

/-- The kinds that a collective registers. -/
inductive Kind
  | input
  | output
  deriving DecidableEq, Repr

/-- A place in device memory: an allocation, and how far in. -/
abbrev Place := ℕ × ℕ

/-- A buffer as `cuPointerGetAttribute` and `cudaIpcGetMemHandle` see it. -/
structure Buffer where
  /-- The address at which its allocation starts. -/
  base : ℕ
  offset : ℕ
  /-- The allocation that the handle of the base stands for. -/
  allocation : ℕ
  deriving DecidableEq, Repr

namespace Buffer

def ptr (b : Buffer) : ℕ := b.base + b.offset

def place (b : Buffer) : Place := (b.allocation, b.offset)

end Buffer

/-- `DeviceIpcBufferRecord`. -/
structure Record where
  seq : ℕ
  baseAddr : ℕ
  offset : ℕ
  handle : ℕ
  deriving DecidableEq, Repr

/-- `RemoteDeviceBufferIpc` with its memory mapped; `user_ptr` is `mapped_base + offset`. -/
structure Remote where
  mappedBase : ℕ
  /-- What is mapped there. -/
  allocation : ℕ
  baseAddr : ℕ
  offset : ℕ
  seq : ℕ
  deriving DecidableEq, Repr

/-- A pointer to the buffer of another rank. -/
inductive Target
  /-- The pointer the other rank has registered, in the same process. -/
  | own (place : Place)
  /-- A pointer into mapped memory. -/
  | mapped (base offset : ℕ)
  deriving DecidableEq, Repr

structure Pointer where
  peer : ℕ
  kind : Kind
  target : Target
  deriving DecidableEq, Repr

/-! ## What the ranks call -/

/-- Who does the work of a call. -/
inductive Path
  | small
  | graph
  deriving DecidableEq, Repr

/-- The kinds for which there is a small-message request. -/
inductive CollectiveKind
  | allGather
  | allReduce
  | reduceScatter
  deriving DecidableEq, Repr

/-- The ranks of a communicator and the collectives they call, in order. -/
structure Config where
  worldSize : ℕ
  multiProcess : Bool
  /-- `device_ipc_needed_` -/
  deviceIpcNeeded : Bool
  queueDepth : ℕ
  pairDirectAllowed : ℕ → ℕ → Bool
  /-- Which way a rank goes with a call. -/
  path : ℕ → ℕ → Path
  /-- The collective, if a call is small. -/
  kind : ℕ → CollectiveKind
  /-- The send buffer is the segment of the rank in its receive buffer. -/
  inPlace : ℕ → ℕ → Bool
  /-- `has_remote_d2d` of the graph of a rank for a call. -/
  hasRemoteD2d : ℕ → ℕ → Bool
  /-- `needs_device_base` of the graph of a rank for a call. -/
  needsDeviceBase : ℕ → ℕ → ℕ → Kind → Bool
  /-- What a rank passes to a call. -/
  buffer : ℕ → ℕ → Kind → Buffer

namespace Config

variable (C : Config)

/-- The entries that a rank may have for the buffers of others. -/
def keys : List (ℕ × Kind) :=
  (List.range C.worldSize).flatMap fun q => [(q, .input), (q, .output)]

/-- What `makeRuntimeBinding` looks up, in its order. -/
def lookups (rank call : ℕ) : List (ℕ × Kind) :=
  C.keys.filter fun key => key.1 ≠ rank && C.needsDeviceBase rank call key.1 key.2

/-- The sources of a small collective. -/
def sources (rank : ℕ) : List ℕ := (List.range C.worldSize).filter fun q => q ≠ rank

def collectiveTopologyCanAllDirect : Bool :=
  (List.range C.worldSize).all fun dst =>
    (List.range C.worldSize).all fun source =>
      source = dst || C.pairDirectAllowed dst source

/-- `allow_remote_direct` in `execute`. -/
def allowRemoteDirect (rank call : ℕ) (allDirect : Bool) : Bool :=
  allDirect ||
    match C.kind call with
    | .allGather => !C.inPlace rank call
    | .allReduce => true
    | .reduceScatter => false

end Config

/-! ## The ranks -/

/-- Where the host thread is in `submitCollective`, with the number of the call. -/
inductive Host
  | outside
  /-- The buffers of the call are registered. -/
  | registered (call : ℕ)
  /-- In the barrier. -/
  | waiting (call : ℕ)
  /-- In `makeRuntimeBinding`: what is left to look up, and what is bound. -/
  | binding (call : ℕ) (rest : List (ℕ × Kind)) (bound : List Pointer)
  /-- A call returned an error; the rank makes no other. -/
  | failed
  deriving DecidableEq, Repr

structure Work where
  call : ℕ
  seq : ℕ
  deriving DecidableEq, Repr

/-- Where the worker of the small messages is in `execute`. -/
inductive Worker
  | idle
  /-- Before `waitForUserReadyAndPublish`. -/
  | begun (work : Work)
  /-- In `localNeedsAllDirectSources`. -/
  | probing (work : Work) (rest : List ℕ)
  /-- Until the ranks agree whether all sources are direct. -/
  | resolving (work : Work)
  /-- In the loop over the sources, with the copies it has launched. -/
  | gathering (work : Work) (allDirect : Bool) (rest : List ℕ) (bound : List Pointer)
  /-- In the barrier. -/
  | waiting (work : Work)
  | failed
  deriving DecidableEq, Repr

/-- A graph that the graph executor has still to finish. -/
structure Launched where
  call : ℕ
  bound : List Pointer
  deriving DecidableEq, Repr

structure Rank where
  /-- How many calls the host thread has begun: their buffers are registered. -/
  calls : ℕ
  host : Host
  /-- `work_seq_counter_` -/
  workSeq : ℕ
  queue : List Work
  worker : Worker
  graphs : List Launched
  /-- `local_ipc_`: the pointer of the last publication. -/
  localIpc : Kind → Option ℕ
  /-- `remote_ipc_` -/
  remoteIpc : ℕ → Kind → Option Remote
  /-- The barriers of `submitCollective` that the rank has entered. -/
  entered : ℕ
  /-- The barriers of `execute` that it has entered. -/
  enteredSmall : ℕ

def Rank.initial : Rank :=
  ⟨0, .outside, 0, [], .idle, [], fun _ => none, fun _ _ => none, 0, 0⟩

/-- An access to a buffer of another rank, with the memory it goes to. -/
structure Access where
  rank : ℕ
  peer : ℕ
  call : ℕ
  kind : Kind
  /-- `none` if nothing is mapped any more. -/
  place : Option Place
  deriving DecidableEq, Repr

structure State where
  /-- `device_ipc`, in shared memory. -/
  record : ℕ → Kind → Option Record
  /-- `rank_input_buffers_` and `rank_output_buffers_`. -/
  registered : ℕ → Kind → Option Buffer
  /-- `fastpath_ready_seq` -/
  readySeq : ℕ → ℕ → ℕ
  rank : ℕ → Rank
  /-- The accesses so far. -/
  log : List Access

def State.initial : State :=
  ⟨fun _ _ => none, fun _ _ => none, fun _ _ => 0, fun _ => .initial, []⟩

/-! ## Registering -/

section

variable (C : Config)

/-- `publishDeviceBufferLocked`: the record, and the pointer that is remembered. -/
def publishDeviceBuffer (record : Option Record) (localPtr : Option ℕ) (b : Buffer) :
    Option Record × Option ℕ :=
  if localPtr = some b.ptr then (record, localPtr)
  else (some ⟨(record.elim 0 Record.seq) + 2, b.base, b.offset, b.allocation⟩, some b.ptr)

/-- `registerDeviceBuffers` of the next call of a rank. -/
def register (s : State) (r : ℕ) : State :=
  let k := s.rank r
  let buffer := C.buffer r k.calls
  let published kind := publishDeviceBuffer (s.record r kind) (k.localIpc kind) (buffer kind)
  let entered := { k with calls := k.calls + 1, host := .registered k.calls }
  let registered := update s.registered r fun kind => some (buffer kind)
  if C.multiProcess && C.deviceIpcNeeded then
    { s with
      registered
      record := update s.record r fun kind => (published kind).1
      rank := update s.rank r { entered with localIpc := fun kind => (published kind).2 } }
  else { s with registered, rank := update s.rank r entered }

/-! ## Looking up -/

/-- The entry at a key. -/
def Rank.entry (k : Rank) (key : ℕ × Kind) : Option Remote := k.remoteIpc key.1 key.2

/-- An address stays mapped as long as an entry holds it. -/
def Rank.mappedAt (k : Rank) (address : ℕ) : Option ℕ :=
  C.keys.findSome? fun key =>
    ((k.entry key).filter fun c => c.mappedBase = address).map Remote.allocation

/-- The memory a pointer goes to. -/
def Rank.place (k : Rank) : Target → Option Place
  | .own p => some p
  | .mapped base offset => (k.mappedAt C base).map fun a => (a, offset)

def Rank.setEntry (k : Rank) (key : ℕ × Kind) (c : Option Remote) : Rank :=
  { k with remoteIpc := update k.remoteIpc key.1 (update (k.remoteIpc key.1) key.2 c) }

/-- `cudaIpcOpenMemHandle` may return an address that is unused, or at which the same memory is
mapped already. -/
def Rank.mayMap (k : Rank) (handle address : ℕ) : Bool :=
  C.keys.all fun key =>
    (k.entry key).all fun c => c.mappedBase ≠ address || c.allocation = handle

/-- Open the handle of a record at an address. -/
def Rank.openHandle (k : Rank) (key : ℕ × Kind) (record : Record) (address : ℕ) :
    Option (Rank × Target) :=
  if k.mayMap C record.handle address then
    some (k.setEntry key (some
      ⟨address, record.handle, record.baseAddr, record.offset, record.seq⟩),
      .mapped address record.offset)
  else none

/-- `getRemoteDeviceBuffer`, the record read; `address` is where memory is mapped, if it is. -/
def Rank.getRemoteDeviceBuffer (k : Rank) (key : ℕ × Kind) (record : Record) (address : ℕ) :
    Option (Rank × Target) :=
  match k.entry key with
  | none => k.openHandle C key record address
  | some c =>
    if c.seq = record.seq ∧ c.baseAddr = record.baseAddr ∧ c.offset = record.offset then
      some (k, .mapped c.mappedBase c.offset)
    else if c.baseAddr = record.baseAddr then
      some (k.setEntry key (some { c with offset := record.offset, seq := record.seq }),
        .mapped c.mappedBase record.offset)
    else (k.setEntry key none).openHandle C key record address

/-- The pointer to the buffer of another rank, if it is there. -/
def lookup (s : State) (k : Rank) (key : ℕ × Kind) (address : ℕ) : Option (Rank × Target) :=
  if C.multiProcess then
    (s.record key.1 key.2).bind fun record => k.getRemoteDeviceBuffer C key record address
  else (s.registered key.1 key.2).map fun b => (k, .own b.place)

/-- The access through a pointer. -/
def Rank.access (k : Rank) (rank call : ℕ) (p : Pointer) : Access :=
  ⟨rank, p.peer, call, p.kind, k.place C p.target⟩

/-- A small source is read where it is: the tests of `buildSourceInfo` and of
`localNeedsAllDirectSources`. -/
def directSource (s : State) (rank source : ℕ) : Bool :=
  C.deviceIpcNeeded && C.pairDirectAllowed rank source && (s.record source .input).isSome

/-! ## Steps -/

inductive Label
  /-- The host thread calls the next collective and registers its buffers. -/
  | register (rank : ℕ)
  /-- `submit` of a small request. -/
  | submitSmall (rank : ℕ)
  /-- The small messages are idle: to the barrier, if there is one. -/
  | fallBack (rank : ℕ)
  /-- Out of the barrier. -/
  | leave (rank : ℕ)
  /-- The next lookup of `makeRuntimeBinding`. -/
  | bind (rank address : ℕ)
  /-- `submit` of the graph. -/
  | submitGraph (rank : ℕ)
  /-- An error is returned: a wait has timed out. -/
  | fail (rank : ℕ)
  /-- The worker takes a work. -/
  | take (rank : ℕ)
  /-- `publishFastpathReadySeq` -/
  | ready (rank : ℕ)
  /-- The next source that is probed, or the status is published. -/
  | probe (rank address : ℕ)
  | resolve (rank : ℕ) (allDirect : Bool)
  /-- The next turn of the loop over the sources. -/
  | gather (rank address : ℕ)
  /-- The copy of a launched source reads. -/
  | copy (rank index : ℕ)
  /-- The stream is synchronized: to the barrier. -/
  | arrive (rank : ℕ)
  | finish (rank : ℕ)
  /-- The work fails, and the queue is cleared. -/
  | failWork (rank : ℕ)
  /-- A copy of the running graph accesses a buffer. -/
  | run (rank index : ℕ)
  /-- The graph is finished. -/
  | complete (rank : ℕ)
  deriving DecidableEq, Repr

/-- The rank of a label. -/
def Label.rank : Label → ℕ
  | .register r | .submitSmall r | .fallBack r | .leave r | .bind r _ | .submitGraph r | .fail r
  | .take r | .ready r | .probe r _ | .resolve r _ | .gather r _ | .copy r _ | .arrive r | .finish r
  | .failWork r | .run r _ | .complete r => r

/-- The small messages are idle, as `hasInflight` and `waitForIdle` see it. -/
def Rank.smallIdle (k : Rank) : Bool :=
  k.queue.isEmpty && (k.worker = .idle || k.worker = .failed)

/-- The room that `submit` waits for. -/
def Rank.hasRoom (k : Rank) : Bool :=
  (if k.worker = .idle then 0 else 1) + k.queue.length < C.queueDepth

def slot (seq : ℕ) : ℕ := (seq - 1) % C.queueDepth

/-- Every rank has entered the barriers that the rank has. -/
def barrierOpen (s : State) (count : Rank → ℕ) (r : ℕ) : Bool :=
  (List.range C.worldSize).all fun q => count (s.rank r) ≤ count (s.rank q)

/-- The worker's loops start after the exchange of statuses, or without one. -/
def Config.afterReady (r : ℕ) (w : Work) : Worker :=
  if C.collectiveTopologyCanAllDirect then .probing w (C.sources r)
  else .gathering w false (C.sources r) []

/-- What a rank does by itself, and the accesses it makes. -/
def move (s : State) (k : Rank) : Label → Option (Rank × List Access)
  | .submitSmall r =>
    match k.host with
    | .registered n =>
      if C.path r n = .small ∧ k.worker ≠ .failed ∧ k.hasRoom C then
        some ({ k with
          host := .outside
          workSeq := k.workSeq + 1
          queue := k.queue ++ [⟨n, k.workSeq + 1⟩] }, [])
      else none
    | _ => none
  | .fallBack r =>
    match k.host with
    | .registered n =>
      if C.path r n = .graph ∧ k.smallIdle then
        if C.hasRemoteD2d r n then
          some ({ k with host := .waiting n, entered := k.entered + 1 }, [])
        else some ({ k with host := .binding n (C.lookups r n) [] }, [])
      else none
    | _ => none
  | .leave r =>
    match k.host with
    | .waiting n =>
      if barrierOpen C s Rank.entered r then
        some ({ k with host := .binding n (C.lookups r n) [] }, [])
      else none
    | _ => none
  | .bind r address =>
    match k.host with
    | .binding n (key :: rest) bound =>
      (lookup C s k key address).map fun found =>
        let p : Pointer := ⟨key.1, key.2, found.2⟩
        ({ found.1 with host := .binding n rest (bound ++ [p]) }, [found.1.access C r n p])
    | _ => none
  | .submitGraph _ =>
    match k.host with
    | .binding n [] bound =>
      if k.graphs.length < C.queueDepth then
        some ({ k with host := .outside, graphs := k.graphs ++ [⟨n, bound⟩] }, [])
      else none
    | _ => none
  | .fail _ =>
    match k.host with
    | .outside | .failed => none
    | _ => some ({ k with host := .failed }, [])
  | .take _ =>
    match k.worker, k.queue with
    | .idle, w :: queue => some ({ k with worker := .begun w, queue }, [])
    | _, _ => none
  | .probe r address =>
    match k.worker with
    | .probing w (source :: rest) =>
      if directSource C s r source then
        (lookup C s k (source, .input) address).map fun found =>
          ({ found.1 with worker := .probing w rest },
            [found.1.access C r w.call ⟨source, .input, found.2⟩])
      else some ({ k with worker := .resolving w }, [])
    | .probing w [] => some ({ k with worker := .resolving w }, [])
    | _ => none
  | .resolve r allDirect =>
    match k.worker with
    | .resolving w => some ({ k with worker := .gathering w allDirect (C.sources r) [] }, [])
    | _ => none
  | .gather r address =>
    match k.worker with
    | .gathering w allDirect (source :: rest) bound =>
      if s.readySeq source (slot C w.seq) = w.seq then
        if C.allowRemoteDirect r w.call allDirect && directSource C s r source then
          (lookup C s k (source, .input) address).map fun found =>
            let p : Pointer := ⟨source, .input, found.2⟩
            ({ found.1 with worker := .gathering w allDirect rest (bound ++ [p]) },
              [found.1.access C r w.call p])
        else some ({ k with worker := .gathering w allDirect rest bound }, [])
      else none
    | _ => none
  | .copy r i =>
    match k.worker with
    | .gathering w _ _ bound => (bound[i]?).map fun p => (k, [k.access C r w.call p])
    | _ => none
  | .arrive _ =>
    match k.worker with
    | .gathering w _ [] _ =>
      some ({ k with worker := .waiting w, enteredSmall := k.enteredSmall + 1 }, [])
    | _ => none
  | .finish r =>
    match k.worker with
    | .waiting _ =>
      if barrierOpen C s Rank.enteredSmall r then some ({ k with worker := .idle }, []) else none
    | _ => none
  | .failWork _ =>
    match k.worker with
    | .idle | .failed => none
    | _ => some ({ k with worker := .failed, queue := [] }, [])
  | .run r i =>
    match k.graphs with
    | g :: _ => (g.bound[i]?).map fun p => (k, [k.access C r g.call p])
    | [] => none
  | .complete _ =>
    match k.graphs with
    | _ :: graphs => some ({ k with graphs }, [])
    | [] => none
  | .register _ | .ready _ => none

def step (s : State) : Label → Option State
  | .register r =>
    match (s.rank r).host with
    | .outside => if r < C.worldSize then some (register C s r) else none
    | _ => none
  | .ready r =>
    match (s.rank r).worker with
    | .begun w =>
      some { s with
        readySeq := update s.readySeq r (update (s.readySeq r) (slot C w.seq) w.seq)
        rank := update s.rank r { s.rank r with worker := C.afterReady r w } }
    | _ => none
  | l =>
    (move C s (s.rank l.rank) l).map fun moved =>
      { s with rank := update s.rank l.rank moved.1, log := s.log ++ moved.2 }

end

end Binding
end Api
end HyLink
