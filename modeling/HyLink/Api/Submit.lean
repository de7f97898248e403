import HyLink.Compiler.Graph

/-!
# Submitting a collective

What `submitCollective` of the two libraries derives from the arguments of a call: whether the
call is in place, which options its graph is compiled with, and the key of its plan in the cache
of the communicator.

* `isCollectiveInPlace` — looks at the pointers of the calling rank only.
* `allreduceDirectOverwriteSafe` — when an AllReduce program may write its output directly.
* `compileInput_eq_of_key` — calls with one key are compiled from the same input.
-/

namespace HyLink
namespace Api

open Ir Compiler

/-- The two libraries. -/
inductive Backend
  | cuda
  | ascend
  deriving DecidableEq, Repr

/-- The name of a collective; it selects the IR file. -/
inductive Collective
  | allgather
  | allreduce
  | reducescatter
  | alltoall
  /-- Any name that starts with `broadcast_root`. -/
  | broadcastRoot (root : ℕ)
  | other (name : String)
  deriving DecidableEq, Repr

inductive ScalarDataType
  | int8 | uint8 | int32 | uint32 | int64 | uint64 | float16 | float32 | float64 | bfloat16
  deriving DecidableEq, Repr

inductive ReduceOpKind
  | sum | max | min
  deriving DecidableEq, Repr

/-- The arguments of `submitCollective` that all ranks pass alike, with the fields of the compile
options that the caller sets. -/
structure Call where
  collective : Collective
  /-- Elements of a segment. -/
  segCount : UInt64
  /-- Leading elements of every segment that are left out. -/
  stride : UInt64 := 0
  sendSegs : ℤ := 1
  recvSegs : ℤ := 1
  elementSize : UInt64 := 4
  scalarType : ScalarDataType := .float32
  reduceOp : ReduceOpKind := .sum
  deriving DecidableEq, Repr

/-- The arguments that each rank has its own of. -/
structure Buffers where
  sendbuff : UInt64
  recvbuff : UInt64
  deriving DecidableEq, Repr

/-! ## Placement -/

def isCollectiveInPlace (rank : ℕ) (call : Call) (b : Buffers) : Bool :=
  if call.collective = .allgather then
    let segmentBytes := call.segCount * call.elementSize
    let activeOffset := call.stride * call.elementSize
    b.sendbuff == b.recvbuff + UInt64.ofNat rank * segmentBytes + activeOffset
  else b.sendbuff == b.recvbuff

def inPlaceAliasMode (collective : Collective) : InPlaceAliasMode :=
  if collective = .allgather then .allGather else .sameBase

/-! ## Staging policy -/

/-- `programUsesPeerD2D`; `programUsesCrossRankDeviceSource` on Ascend. -/
def programUsesPeerD2D (program : IRProgram) : Bool :=
  program.allInstructions.any fun inst =>
    decide ((inst.op = .d2d ∨ inst.op = .d2dReduce) ∧ inst.sourceRank ≠ inst.rank)

/-- An instruction reads this input chunk, as far as the scan has a place for it. -/
def markInputRead (worldSize : ℕ) (read : List (ℤ × ℤ)) (owner chunk : ℤ) : List (ℤ × ℤ) :=
  if 0 ≤ owner ∧ owner < worldSize ∧ 0 ≤ chunk ∧ chunk < maxChunks then (owner, chunk) :: read
  else read

/-- The scan of `allreduceDirectOverwriteSafe`: an output chunk is written after its input chunk
is read, in document order. -/
def overwritesAfterReads (inputChunkCount worldSize : ℕ) : List (ℤ × ℤ) → List Instruction → Bool
  | _, [] => true
  | read, inst :: insts =>
    if inst.op = .d2h ∧ inst.srcBuf = .input then
      overwritesAfterReads inputChunkCount worldSize
        (markInputRead worldSize read inst.rank inst.src.chunkIdx) insts
    else if (inst.op = .d2d ∨ inst.op = .d2dReduce) ∧ inst.srcBuf = .input then
      overwritesAfterReads inputChunkCount worldSize
        (markInputRead worldSize read inst.sourceRank inst.src.chunkIdx) insts
    else if ¬((inst.op = .h2d ∨ inst.op = .d2d ∨ inst.op = .d2dReduce) ∧ inst.dstBuf = .output) then
      overwritesAfterReads inputChunkCount worldSize read insts
    else if inst.rank < 0 ∨ worldSize ≤ inst.rank ∨ inst.dst.chunkIdx < 0 then false
    else if inputChunkCount ≤ inst.dst.chunkIdx then
      overwritesAfterReads inputChunkCount worldSize read insts
    else if maxChunks ≤ inst.dst.chunkIdx ∨ (inst.rank, inst.dst.chunkIdx) ∉ read then false
    else overwritesAfterReads inputChunkCount worldSize read insts

def allreduceDirectOverwriteSafe (program : IRProgram) (worldSize : ℕ) : Bool :=
  decide (0 < worldSize ∧ worldSize ≤ maxRanks) &&
    decide (0 < program.inputChunkCount ∧ 0 < program.outputChunkCount) &&
    !programUsesPeerD2D program &&
    overwritesAfterReads program.inputChunkCount worldSize [] program.allInstructions

/-- `direct_overwrite` -/
def directOverwrite (collective : Collective) (program : IRProgram) (worldSize : ℕ) : Bool :=
  match collective with
  | .allgather | .reducescatter | .broadcastRoot _ => true
  | .allreduce => allreduceDirectOverwriteSafe program worldSize
  | .alltoall | .other _ => false

def stagingPolicy (collective : Collective) (program : IRProgram) (worldSize : ℕ) :
    StagingPolicy :=
  if directOverwrite collective program worldSize then .directOverwrite else .conservative

/-! ## What is compiled -/

/-- The compile options of a call. -/
def compileOptions (call : Call) (isInPlace : Bool) : CompileOptions where
  segCount := call.segCount.toNat
  elementSize := call.elementSize.toNat
  stride := call.stride.toNat
  d2hSegments := call.sendSegs.toNat
  h2dSegments := call.recvSegs.toNat
  isInPlace := isInPlace
  inPlaceAliasMode := inPlaceAliasMode call.collective

/-- The arguments of `Compiler::compileGraph` but for the rank and the size of the
communicator. -/
structure CompileInput where
  program : IRProgram
  options : GraphCompileOptions
  /-- `scalar_type` of the compile options. -/
  scalarType : ScalarDataType
  /-- `reduce_op` of the compile options. -/
  reduceOp : ReduceOpKind
  deriving DecidableEq, Repr

/-- The graph options of a call whose program is loaded. -/
def graphOptions (backend : Backend) (program : IRProgram) (worldSize : ℕ) (call : Call)
    (isInPlace : Bool) : GraphCompileOptions where
  legacyLayout := compileOptions call isInPlace
  stagingPolicy := stagingPolicy call.collective program worldSize
  prioritizeInputD2d := backend = .cuda

/-- What a plan is compiled from where the cache has none.  `loadIR` stands for the IR files: the
program it loads depends on the call alone. -/
def compileInput (backend : Backend) (loadIR : Call → IRProgram) (worldSize : ℕ) (call : Call)
    (isInPlace : Bool) : CompileInput where
  program := loadIR call
  options := graphOptions backend (loadIR call) worldSize call isInPlace
  scalarType := call.scalarType
  reduceOp := call.reduceOp

/-! ## The plan cache -/

structure PlanCacheKey where
  collective : Collective
  segCount : UInt64
  elementSize : UInt64
  scalarType : ScalarDataType
  reduceOp : ReduceOpKind
  stride : UInt64
  d2hSegments : ℤ
  h2dSegments : ℤ
  isInPlace : Bool
  deriving DecidableEq, Repr

def planCacheKey (call : Call) (isInPlace : Bool) : PlanCacheKey where
  collective := call.collective
  segCount := call.segCount
  elementSize := call.elementSize
  scalarType := call.scalarType
  reduceOp := call.reduceOp
  stride := call.stride
  d2hSegments := call.sendSegs
  h2dSegments := call.recvSegs
  isInPlace := isInPlace

/-- The key names every argument of the call. -/
theorem planCacheKey_inj {call call' : Call} {isInPlace isInPlace' : Bool} :
    planCacheKey call isInPlace = planCacheKey call' isInPlace' ↔
      call = call' ∧ isInPlace = isInPlace' := by
  constructor
  · intro h
    cases call
    cases call'
    simp only [planCacheKey, PlanCacheKey.mk.injEq] at h
    obtain ⟨rfl, rfl, rfl, rfl, rfl, rfl, rfl, rfl, rfl⟩ := h
    exact ⟨rfl, rfl⟩
  · rintro ⟨rfl, rfl⟩
    rfl

/-- **The key captures what a plan is compiled from.** -/
theorem compileInput_eq_of_key (backend : Backend) (loadIR : Call → IRProgram) (worldSize : ℕ)
    {call call' : Call} {isInPlace isInPlace' : Bool}
    (h : planCacheKey call isInPlace = planCacheKey call' isInPlace') :
    compileInput backend loadIR worldSize call isInPlace =
      compileInput backend loadIR worldSize call' isInPlace' := by
  obtain ⟨rfl, rfl⟩ := planCacheKey_inj.1 h
  rfl

end Api
end HyLink
