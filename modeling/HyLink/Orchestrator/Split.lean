import HyLink.Theory.Segments
import HyLink.Orchestrator.Streams

/-!
# The two parts of a split collective

A hybrid collective gives the first `fast_bytes` of every segment to the fast library and
the rest to the PCIe library.  The memory of a rank is a row of bytes; addresses and sizes
are the ones the calls are given.

* `LibCall.writer` — what a call of a library writes, from what the memories hold.
* `LibCall.Allowed` — the buffers for which a library promises this: buffers that do not
  overlap, and the documented in-place layouts.
* `allReduce`, `allGather`, `reduceScatter`, `allToAll` — the calls and copies of each
  collective, on the user's stream and on the PCIe stream.
* `SplitEqual` — the parts tile the output, and the result is that of one call.
-/

namespace HyLink
namespace Orchestrator
namespace Split

open Theory
open Streams (Kind)

/-! ## Data types -/

inductive Build
  | nccl
  | hccl
  deriving DecidableEq, Repr

/-- `ElemSizeNcclDataType`. -/
def elemSizeNcclDataType (datatype : ℤ) : ℕ :=
  if datatype = 0 ∨ datatype = 1 then 1
  else if datatype = 6 then 2
  else if datatype = 2 ∨ datatype = 3 ∨ datatype = 7 then 4
  else if datatype = 4 ∨ datatype = 5 ∨ datatype = 8 then 8
  else 0

/-- `ElemSizeHcclDataType`. -/
def elemSizeHcclDataType (datatype : ℤ) : ℕ :=
  if datatype = 0 ∨ datatype = 7 then 1
  else if datatype = 1 ∨ datatype = 3 ∨ datatype = 8 ∨ datatype = 11 then 2
  else if datatype = 4 ∨ datatype = 2 ∨ datatype = 9 then 4
  else if datatype = 5 ∨ datatype = 6 ∨ datatype = 10 then 8
  else if datatype = 12 then 16
  else 0

/-- `ElemSizeHcclDataTypeFromInt`. -/
def elemSizeHcclDataTypeFromInt (datatype : ℤ) : ℕ :=
  if datatype = 0 ∨ datatype = 7 ∨ datatype = 13 then 1
  else if datatype = 1 ∨ datatype = 3 ∨ datatype = 8 ∨ datatype = 11 then 2
  else if datatype = 2 ∨ datatype = 4 ∨ datatype = 9 ∨ datatype = 12 then 4
  else if datatype = 5 ∨ datatype = 6 ∨ datatype = 10 then 8
  else if datatype = 14 then 16
  else 0

/-- `NativeDataTypeElemSize`. -/
def nativeDataTypeElemSize (build : Build) (datatype : ℤ) : ℕ :=
  match build with
  | .nccl => elemSizeNcclDataType datatype
  | .hccl =>
    let s := elemSizeHcclDataType datatype
    if s ≠ 0 then s else elemSizeHcclDataTypeFromInt datatype

/-- A boundary at a multiple of 128 bytes cuts no element. -/
theorem elemSize_dvd (build : Build) (datatype : ℤ)
    (h : nativeDataTypeElemSize build datatype ≠ 0) : nativeDataTypeElemSize build datatype ∣ 128 := by
  revert h
  unfold nativeDataTypeElemSize elemSizeNcclDataType elemSizeHcclDataType elemSizeHcclDataTypeFromInt
  cases build
  · dsimp only
    repeat' split
    all_goals decide
  · dsimp only
    repeat' split
    all_goals decide

/-! ## Libraries -/

/-- A communicator, the size of the elements and the reduction of one element of every
rank, byte by byte. -/
structure Comm where
  nranks : ℕ
  es : ℕ
  reduceOp : (Fin nranks → Fin es → UInt8) → ℕ → UInt8

/-- A call of all ranks to one of the libraries.  A buffer is an address on every rank;
counts and displacements are in elements. -/
inductive LibCall
  | allReduce (send recv : ℕ → ℕ) (count : ℕ)
  | allGather (send recv : ℕ → ℕ) (sendcount : ℕ)
  | reduceScatter (send recv : ℕ → ℕ) (recvcount : ℕ)
  | allToAll (send recv : ℕ → ℕ) (count : ℕ)
  | allGatherV (send : ℕ → ℕ) (sendcount : ℕ) (recv : ℕ → ℕ) (recvcounts rdispls : ℕ → ℕ)
  | reduceScatterV (send : ℕ → ℕ) (sendcounts sdispls : ℕ → ℕ) (recv : ℕ → ℕ) (recvcount : ℕ)
  | allToAllV (send : ℕ → ℕ) (sendcounts sdispls : ℕ → ℕ) (recv : ℕ → ℕ)
      (recvcounts rdispls : ℕ → ℕ)
  /-- A group of `ncclSend` and `ncclRecv`: the address and the count for each peer. -/
  | group (send sendcount recv recvcount : ℕ → ℕ → ℕ)
  /-- `ncclReduce`, which uses the receive buffer of the root alone. -/
  | reduce (send recv : ℕ → ℕ) (count root : ℕ)
  | allGatherStrided (send recv : ℕ → ℕ) (count stride : ℕ)
  /-- `count` is the number of elements of all ranks. -/
  | reduceScatterStrided (send recv : ℕ → ℕ) (count stride : ℕ)
  | allToAllStrided (send recv : ℕ → ℕ) (count stride : ℕ)
  /-- `pcclAllToAll`, where `count` is the number of elements of all ranks. -/
  | pcieAllToAll (send recv : ℕ → ℕ) (count : ℕ)

section Library

variable (c : Comm)

/-- `len` bytes from address `src` of rank `p`. -/
def copyTo (dst p src len : ℕ) : Segment UInt8 := ⟨dst, len, fun w i => w p (src + i)⟩

/-- The elements of `len` bytes at address `src p` of every rank `p`, reduced. -/
def reduceTo (dst : ℕ) (src : ℕ → ℕ) (len : ℕ) : Segment UInt8 :=
  ⟨dst, len, fun w i => c.reduceOp (fun p k => w p (src p + (i / c.es * c.es + k))) (i % c.es)⟩

/-- What a call writes on rank `r`. -/
def LibCall.parts (r : ℕ) : LibCall → List (Segment UInt8)
  | .allReduce send recv count => [reduceTo c (recv r) send (count * c.es)]
  | .allGather send recv count =>
    (List.range c.nranks).map fun j =>
      copyTo (recv r + j * count * c.es) j (send j) (count * c.es)
  | .reduceScatter send recv count =>
    [reduceTo c (recv r) (fun p => send p + r * count * c.es) (count * c.es)]
  | .allToAll send recv count =>
    (List.range c.nranks).map fun j =>
      copyTo (recv r + j * count * c.es) j (send j + r * count * c.es) (count * c.es)
  | .allGatherV send _ recv recvcounts rdispls =>
    (List.range c.nranks).map fun j =>
      copyTo (recv r + rdispls j * c.es) j (send j) (recvcounts j * c.es)
  | .reduceScatterV send _ sdispls recv recvcount =>
    [reduceTo c (recv r) (fun p => send p + sdispls r * c.es) (recvcount * c.es)]
  | .allToAllV send _ sdispls recv recvcounts rdispls =>
    (List.range c.nranks).map fun j =>
      copyTo (recv r + rdispls j * c.es) j (send j + sdispls r * c.es) (recvcounts j * c.es)
  | .group send _ recv recvcount =>
    ((List.range c.nranks).filter fun j => decide (j ≠ r)).map fun j =>
      copyTo (recv r j) j (send j r) (recvcount r j * c.es)
  | .reduce send recv count root =>
    if r = root then [reduceTo c (recv r) send (count * c.es)] else []
  | .allGatherStrided send recv count stride =>
    (List.range c.nranks).map fun j =>
      copyTo (recv r + (j * count + stride) * c.es) j (send j + stride * c.es)
        ((count - stride) * c.es)
  | .reduceScatterStrided send recv count stride =>
    [reduceTo c (recv r + stride * c.es)
      (fun p => send p + (r * (count / c.nranks) + stride) * c.es)
      ((count / c.nranks - stride) * c.es)]
  | .allToAllStrided send recv count stride =>
    (List.range c.nranks).map fun j =>
      copyTo (recv r + (j * (count / c.nranks) + stride) * c.es) j
        (send j + (r * (count / c.nranks) + stride) * c.es) ((count / c.nranks - stride) * c.es)
  | .pcieAllToAll send recv count =>
    (List.range c.nranks).map fun j =>
      copyTo (recv r + j * (count / c.nranks) * c.es) j (send j + r * (count / c.nranks) * c.es)
        (count / c.nranks * c.es)

def LibCall.writer (call : LibCall) : Writer UInt8 :=
  fun r => if r < c.nranks then call.parts c r else []

/-- Two ranges of addresses that do not overlap. -/
def Apart (a la b lb : ℕ) : Prop := a + la ≤ b ∨ b + lb ≤ a

/-- The buffers for which the documentation of the libraries says what the call does. -/
def LibCall.Allowed : LibCall → Prop
  | .allReduce send recv count => ∀ r < c.nranks,
    Apart (send r) (count * c.es) (recv r) (count * c.es) ∨ send r = recv r
  | .allGather send recv count => ∀ r < c.nranks,
    Apart (send r) (count * c.es) (recv r) (c.nranks * count * c.es) ∨
      send r = recv r + r * count * c.es
  | .reduceScatter send recv count => ∀ r < c.nranks,
    Apart (send r) (c.nranks * count * c.es) (recv r) (count * c.es) ∨
      recv r = send r + r * count * c.es
  | .allToAll send recv count => ∀ r < c.nranks,
    Apart (send r) (c.nranks * count * c.es) (recv r) (c.nranks * count * c.es)
  | .allGatherV send sendcount recv recvcounts rdispls => ∀ r < c.nranks,
    recvcounts r = sendcount ∧
    ((∀ j < c.nranks, Apart (send r) (sendcount * c.es) (recv r + rdispls j * c.es)
      (recvcounts j * c.es)) ∨ send r = recv r + rdispls r * c.es) ∧
    ∀ j < c.nranks, ∀ k < c.nranks, j ≠ k →
      Apart (rdispls j) (recvcounts j) (rdispls k) (recvcounts k)
  | .reduceScatterV send sendcounts sdispls recv recvcount => ∀ r < c.nranks,
    sendcounts r = recvcount ∧
    ((∀ j < c.nranks, Apart (send r + sdispls j * c.es) (sendcounts j * c.es) (recv r)
      (recvcount * c.es)) ∨ recv r = send r + sdispls r * c.es)
  | .allToAllV send sendcounts sdispls recv recvcounts rdispls => ∀ r < c.nranks,
    (∀ j < c.nranks, recvcounts j = sendcounts r) ∧
    (∀ j < c.nranks, ∀ k < c.nranks, Apart (send r + sdispls j * c.es) (sendcounts j * c.es)
      (recv r + rdispls k * c.es) (recvcounts k * c.es)) ∧
    ∀ j < c.nranks, ∀ k < c.nranks, j ≠ k →
      Apart (rdispls j) (recvcounts j) (rdispls k) (recvcounts k)
  | .group send sendcount recv recvcount => ∀ r < c.nranks, ∀ j < c.nranks, j ≠ r →
    recvcount r j = sendcount j r ∧
    ∀ k < c.nranks, k ≠ r →
      Apart (send r j) (sendcount r j * c.es) (recv r k) (recvcount r k * c.es) ∧
      (j ≠ k → Apart (recv r j) (recvcount r j * c.es) (recv r k) (recvcount r k * c.es))
  | .reduce send recv count root => root < c.nranks ∧
    (Apart (send root) (count * c.es) (recv root) (count * c.es) ∨ send root = recv root)
  | .allGatherStrided send recv count stride => stride ≤ count ∧ ∀ r < c.nranks,
    Apart (send r) (count * c.es) (recv r) (c.nranks * count * c.es) ∨
      send r = recv r + r * count * c.es
  | .reduceScatterStrided send recv count stride => stride ≤ count / c.nranks ∧ ∀ r < c.nranks,
    Apart (send r) (count * c.es) (recv r) (count / c.nranks * c.es) ∨
      recv r = send r + r * (count / c.nranks) * c.es
  | .allToAllStrided send recv count stride => stride ≤ count / c.nranks ∧ ∀ r < c.nranks,
    Apart (send r) (count * c.es) (recv r) (count * c.es)
  | .pcieAllToAll send recv count => ∀ r < c.nranks,
    Apart (send r) (count * c.es) (recv r) (count * c.es)

/-- What a library does with the memories. -/
abbrev Library := LibCall → Memories UInt8 → Memories UInt8

/-- The library computes what a call with allowed buffers asks for, and nothing more.
Other calls may do anything. -/
def Library.Computes (lib : Library) : Prop :=
  ∀ call : LibCall, call.Allowed c → ∀ w, lib call w = (call.writer c).apply w

end Library

/-! ## Programs -/

inductive Op
  | call (call : LibCall)
  /-- `DeviceMemcpyD2D` or `DeviceMemcpyD2DAsync` of every rank.  A copy of a range onto
  itself, which the source leaves out, changes nothing. -/
  | copy (dst src : ℕ → ℕ) (len : ℕ)

/-- An operation on the user's stream, and whether it writes the user's output. -/
structure Step where
  op : Op
  output : Bool

/-- The operations on the user's stream in order, and the call on the PCIe stream. -/
structure Program where
  user : List Step
  pcie : Option LibCall

def Op.writer (c : Comm) : Op → Writer UInt8
  | .call f => f.writer c
  | .copy dst src len => fun r => if r < c.nranks then [copyTo (dst r) r (src r) len] else []

def Op.exec (c : Comm) (lib : Library) : Op → Memories UInt8 → Memories UInt8
  | .call f => lib f
  | .copy dst src len => ((Op.copy dst src len).writer c).apply

def runOps (c : Comm) (fast : Library) (l : List Step) (w : Memories UInt8) : Memories UInt8 :=
  l.foldl (fun w s => s.op.exec c fast w) w

/-- The PCIe call runs when `k` operations of the user's stream are through. -/
def Program.run (c : Comm) (fast pcie : Library) (prog : Program) (k : ℕ) (w : Memories UInt8) :
    Memories UInt8 :=
  match prog.pcie with
  | none => runOps c fast prog.user w
  | some call => runOps c fast (prog.user.drop k) (pcie call (runOps c fast (prog.user.take k) w))

/-- The ranges an operation writes on rank `r`. -/
def ranges (W : Writer UInt8) (r : ℕ) : List (ℕ × ℕ) := (W r).map fun s => (s.dst, s.len)

/-- The ranges of the output that the two paths write on rank `r`. -/
def Program.outputRanges (c : Comm) (prog : Program) (r : ℕ) : List (ℕ × ℕ) :=
  (prog.user.filter fun s => s.output).flatMap (fun s => ranges (s.op.writer c) r) ++
    match prog.pcie with
    | none => []
    | some call => ranges (call.writer c) r

/-! ## The collectives -/

/-- How the fast part of a hybrid collective is done. -/
inductive FastPath
  /-- The V-collective of the library. -/
  | native
  /-- `NcclP2PVCollectives`. -/
  | p2p
  /-- Through a staging buffer. -/
  | staged (tmp : ℕ → ℕ)
  /-- There is no staging buffer. -/
  | noStaging

/-- What a collective finds: the types are supported, there is a PCIe stream, the fast
path, and that the callback is launched with a controller. -/
structure Choice where
  supported : Bool
  pcieStream : Bool
  path : FastPath
  callback : Bool

section Collectives

variable (c : Comm) (plan : Plan) (ch : Choice) (send recv : ℕ → ℕ) (count : ℕ)

/-- The branches with a PCIe call, after `ForceFastOnly` for types without support. -/
def usesPcie : Bool :=
  plan.usePcie && ch.supported && decide (plan.pcieBytes ≠ 0) && ch.pcieStream

/-- One call that writes the output. -/
def outputCall (call : LibCall) : Step := ⟨.call call, true⟩

/-- The fast library alone. -/
def fastOnly (call : LibCall) : Program := ⟨[outputCall call], none⟩

/-- `NcclP2PVCollectives::AllGatherV`. -/
def p2pAllGatherV (sendcount : ℕ) (recvcounts rdispls : ℕ → ℕ) : List Step :=
  [⟨.copy (fun r => recv r + rdispls r * c.es) send (sendcount * c.es), true⟩,
    outputCall (.group (fun r _ => send r) (fun _ _ => sendcount)
      (fun r p => recv r + rdispls p * c.es) (fun _ p => recvcounts p))]

/-- `NcclP2PVCollectives::AllToAllV`. -/
def p2pAllToAllV (sendcounts sdispls recvcounts rdispls : ℕ → ℕ) : List Step :=
  [⟨.copy (fun r => recv r + rdispls r * c.es) (fun r => send r + sdispls r * c.es)
      (sendcounts 0 * c.es), true⟩,
    outputCall (.group (fun r p => send r + sdispls p * c.es) (fun _ p => sendcounts p)
      (fun r p => recv r + rdispls p * c.es) (fun _ p => recvcounts p))]

/-- `NcclP2PVCollectives::ReduceScatterV`. -/
def p2pReduceScatterV (sendcounts sdispls : ℕ → ℕ) : List Step :=
  (List.range c.nranks).map fun root =>
    outputCall (.reduce (fun p => send p + sdispls root * c.es)
      (fun p => if p = root then recv p else send p + sdispls root * c.es) (sendcounts root) root)

/-- `EnqueueSegmentedMergeOnStream`, and the merge of `OnStreamSynchronized`. -/
def segmentedMerge (tmp : ℕ → ℕ) (fastBytes pcieBytes : ℕ) : List Step :=
  let perRank := (fastBytes + pcieBytes) % 2 ^ 64
  (List.range c.nranks).map fun r' =>
    ⟨.copy (fun r => recv r + r' * perRank) (fun r => tmp r + r' * fastBytes) fastBytes, true⟩

/-- The first `fastBytes` of every segment, packed. -/
def pack (tmp : ℕ → ℕ) (fastBytes : ℕ) : List Step :=
  (List.range c.nranks).map fun b =>
    ⟨.copy (fun r => tmp r + b * fastBytes) (fun r => send r + b * count * c.es) fastBytes, false⟩

/-- `VirtualCollective::AllReduce`. -/
def allReduce : Program :=
  if usesPcie plan ch then
    let fast :=
      if plan.fastBytes = 0 then [] else [outputCall (.allReduce send recv (plan.fastBytes / c.es))]
    ⟨fast, some (.allReduce (fun r => send r + plan.fastBytes) (fun r => recv r + plan.fastBytes)
      (plan.pcieBytes / c.es))⟩
  else fastOnly (.allReduce send recv count)

/-- `VirtualCollective::AllGather`. -/
def allGather : Program :=
  let fastElems := plan.fastBytes / c.es
  let strided := some (LibCall.allGatherStrided send recv count fastElems)
  if usesPcie plan ch then
    if plan.fastBytes = 0 then ⟨[], some (.allGather send recv count)⟩
    else
      match ch.path with
      | .native =>
        ⟨[outputCall (.allGatherV send fastElems recv (fun _ => fastElems) fun j => j * count)],
          strided⟩
      | .p2p => ⟨p2pAllGatherV c send recv fastElems (fun _ => fastElems) fun j => j * count, strided⟩
      | .staged tmp =>
        ⟨⟨.call (.allGather send tmp fastElems), false⟩ ::
          segmentedMerge c recv tmp plan.fastBytes plan.pcieBytes, strided⟩
      | .noStaging => fastOnly (.allGather send recv count)
  else fastOnly (.allGather send recv count)

/-- `VirtualCollective::ReduceScatter`. -/
def reduceScatter : Program :=
  let fastElems := plan.fastBytes / c.es
  let strided := some (LibCall.reduceScatterStrided send recv (count * c.nranks) fastElems)
  if usesPcie plan ch then
    if plan.fastBytes = 0 then ⟨[], some (.reduceScatter send recv count)⟩
    else
      match ch.path with
      | .native =>
        ⟨[outputCall (.reduceScatterV send (fun _ => fastElems) (fun j => j * count) recv fastElems)],
          strided⟩
      | .p2p => ⟨p2pReduceScatterV c send recv (fun _ => fastElems) fun j => j * count, strided⟩
      | .staged tmp =>
        ⟨pack c send count tmp plan.fastBytes ++ [outputCall (.reduceScatter tmp recv fastElems)],
          strided⟩
      | .noStaging => fastOnly (.reduceScatter send recv count)
  else fastOnly (.reduceScatter send recv count)

/-- `VirtualCollective::AllToAll`. -/
def allToAll : Program :=
  let fastElems := plan.fastBytes / c.es
  let strided := some (LibCall.allToAllStrided send recv (count * c.nranks) fastElems)
  if usesPcie plan ch then
    if plan.fastBytes = 0 then ⟨[], some (.pcieAllToAll send recv (count * c.nranks))⟩
    else
      match ch.path with
      | .native =>
        ⟨[outputCall (.allToAllV send (fun _ => fastElems) (fun j => j * count) recv
          (fun _ => fastElems) fun j => j * count)], strided⟩
      | .p2p =>
        ⟨p2pAllToAllV c send recv (fun _ => fastElems) (fun j => j * count) (fun _ => fastElems)
          fun j => j * count, strided⟩
      | .staged tmp =>
        ⟨pack c send count tmp plan.fastBytes ++ ⟨.call (.allToAll tmp tmp fastElems), false⟩ ::
          if ch.callback then segmentedMerge c recv tmp plan.fastBytes plan.pcieBytes else [],
          strided⟩
      | .noStaging => fastOnly (.allToAll send recv count)
  else fastOnly (.allToAll send recv count)

def program : Kind → Program
  | .allReduce => allReduce c plan ch send recv count
  | .allGather => allGather c plan ch send recv count
  | .reduceScatter => reduceScatter c plan ch send recv count
  | .allToAll => allToAll c plan ch send recv count

/-- The collective as one call of the fast library. -/
def unsplit : Kind → LibCall
  | .allReduce => .allReduce send recv count
  | .allGather => .allGather send recv count
  | .reduceScatter => .reduceScatter send recv count
  | .allToAll => .allToAll send recv count

end Collectives

/-! ## What has to hold -/

/-- The bytes of a staging buffer with `len` bytes of every rank. -/
def InStaging (c : Comm) (tmp : ℕ → ℕ) (len r a : ℕ) : Prop :=
  r < c.nranks ∧ tmp r ≤ a ∧ a < tmp r + c.nranks * len

/-- Both libraries are called. -/
def RunsBoth (kind : Kind) (plan : Plan) (ch : Choice) : Prop :=
  usesPcie plan ch = true ∧ plan.fastBytes ≠ 0 ∧ (kind = .allReduce ∨ ch.path ≠ .noStaging)

/-- The staging buffer, where a collective uses one. -/
def Staging (c : Comm) (kind : Kind) (plan : Plan) (ch : Choice) (r a : ℕ) : Prop :=
  RunsBoth kind plan ch ∧ kind ≠ .allReduce ∧
    ∃ tmp, ch.path = .staged tmp ∧ InStaging c tmp plan.fastBytes r a

/-- A split collective is as good as one call: the ranges of the two paths tile the output,
and outside of the staging buffer all memories are the same, whenever the PCIe call runs. -/
structure SplitEqual (c : Comm) (call : LibCall) (prog : Program) (staging : ℕ → ℕ → Prop) :
    Prop where
  tiles : ∀ r < c.nranks, ∀ a, coverage (prog.outputRanges c r) a =
    if ∃ x ∈ ranges (call.writer c) r, x.1 ≤ a ∧ a < x.1 + x.2 then 1 else 0
  equal : ∀ fast pcie : Library, fast.Computes c → pcie.Computes c → ∀ w k, k ≤ prog.user.length →
    ∀ r < c.nranks, ∀ a, ¬ staging r a → prog.run c fast pcie k w r a = fast call w r a

end Split
end Orchestrator
end HyLink
