import HyLink.Compiler.Staging

/-!
# Version and reader assignment

Pass 1 of the compiler replays the instructions of all ranks in document order.
It keeps, for every chunk, the latest version (`latest_by_base`) and, for every
version, the number of readers allocated so far (`reader_counts`).  A read takes
the latest version; a read of a chunk that no earlier instruction has written
takes the chunk's *final* version, unless the chunk is input data, which is
there from the start.  A write produces the next version and is guarded by the
previous one.

The pass of the source also instantiates the nodes of the compiled rank in the
same loop; nothing it assigns depends on them, so they are built afterwards
(`HyLink.Compiler.Graph`) from the assignments.
-/

namespace HyLink
namespace Compiler

open Ir

/-- A chunk version has more readers than there are reader cursors. -/
inductive CompileError
  | tooManyReaders
  deriving DecidableEq, Repr

section

variable (graphOptions : GraphCompileOptions) (program : IRProgram) (worldSize : ℕ)

/-! ## Operands -/

/-- The chunk an instruction writes. -/
def producedBase (inst : Instruction) : Option BaseKey :=
  match inst.op with
  | .d2h | .h2h | .h2hReduce => some (hostKey inst.dst.numaId inst.dst.chunkIdx)
  | .h2d | .d2d | .d2dReduce =>
      some (deviceKey
        (visibleBuf graphOptions program worldSize inst.dstBuf inst.rank inst.dst.chunkIdx)
        inst.rank inst.dst.chunkIdx)
  | .nop => none

/-- The device chunk an instruction reads, owned by `owner`. -/
def sourceDeviceKey (inst : Instruction) (owner : ℤ) : BaseKey :=
  deviceKey (visibleBuf graphOptions program worldSize inst.srcBuf owner inst.src.chunkIdx)
    owner inst.src.chunkIdx

/-- The chunks an instruction reads, in operand order.  A device reduce reads
its own destination. -/
def inputBases (inst : Instruction) : List BaseKey :=
  match inst.op with
  | .d2h => [sourceDeviceKey graphOptions program worldSize inst inst.rank]
  | .h2d | .h2h => [hostKey inst.src.numaId inst.src.chunkIdx]
  | .h2hReduce =>
      [hostKey inst.src.numaId inst.src.chunkIdx, hostKey inst.src2.numaId inst.src2.chunkIdx]
  | .d2d => [sourceDeviceKey graphOptions program worldSize inst inst.sourceRank]
  | .d2dReduce =>
      [sourceDeviceKey graphOptions program worldSize inst inst.sourceRank,
        deviceKey
          (visibleBuf graphOptions program worldSize inst.dstBuf inst.rank inst.dst.chunkIdx)
          inst.rank inst.dst.chunkIdx]
  | .nop => []

/-- How often the program writes a chunk: the version of its last write, from
`final_produced_by_base`. -/
def producedVersions (insts : List Instruction) (base : BaseKey) : ℕ :=
  insts.countP fun inst => decide (producedBase graphOptions program worldSize inst = some base)

/-! ## Latest versions -/

/-- `latest_by_base`. -/
abbrev LatestMap := BaseKey → Option ℕ

/-- The chunks that hold data before the first instruction: the inputs of the
compiled rank, then those of every rank of the world. -/
def initialLatest (rank : ℤ) : LatestMap := fun base =>
  if base.space = .input ∧ 0 ≤ base.chunk ∧
      ((base.owner = rank ∧ base.chunk.toNat < maxInputChunkCount program rank) ∨
        (0 ≤ base.owner ∧ base.owner < worldSize ∧
          base.chunk.toNat < maxInputChunkCount program base.owner))
  then some 0 else none

/-- The version a read of `base` sees: the latest one, else the final one, else
the chunk as it is, which is then recorded. -/
def latest (map : LatestMap) (base : BaseKey) : ℕ × LatestMap :=
  match map base with
  | some version => (version, map)
  | none =>
      let final := producedVersions graphOptions program worldSize program.allInstructions base
      if 0 < final then (final, map) else (0, Function.update map base (some 0))

def latestExisting (map : LatestMap) (base : BaseKey) : ℕ := (map base).getD 0

/-- A write: the next version, and the map in which it is the latest. -/
def produce (map : LatestMap) (base : BaseKey) : ℕ × LatestMap :=
  let version := match map base with
    | none => 1
    | some version => version + 1
  (version, Function.update map base (some version))

/-- `latest` for every operand, from left to right. -/
def latestAll : LatestMap → List BaseKey → List ProgressKey × LatestMap
  | map, [] => ([], map)
  | map, base :: bases =>
      let (version, map) := latest graphOptions program worldSize map base
      let (keys, map) := latestAll map bases
      (⟨base, version⟩ :: keys, map)

/-! ## Reader ids -/

/-- `reader_counts`, with the keys in the order they were first counted. -/
structure ReaderCounts where
  count : ProgressKey → ℕ := fun _ => 0
  touched : List ProgressKey := []

/-- `reader_counts[input]++`. -/
def ReaderCounts.add (counts : ReaderCounts) (key : ProgressKey) : ReaderCounts where
  count := Function.update counts.count key (counts.count key + 1)
  touched := if key ∈ counts.touched then counts.touched else counts.touched ++ [key]

/-- An operand with the reader cursor it advances; a reduce's own destination
has none. -/
structure ReaderInput where
  key : ProgressKey
  readerId : Option ℕ
  deriving DecidableEq, Repr

/-- Allocate the reader ids of one instruction's operands, the first of which is
operand number `inputIdx`. -/
def assignReaders (inst : Instruction) (output : ProgressKey) :
    ℕ → ReaderCounts → List ProgressKey → Except CompileError (List ReaderInput × ReaderCounts)
  | _, counts, [] => .ok ([], counts)
  | inputIdx, counts, input :: inputs =>
      let selfRmwInput := inst.op = .d2dReduce ∧ inputIdx = 1 ∧ input.base = output.base
      if selfRmwInput then do
        let (rest, counts) ← assignReaders inst output (inputIdx + 1) counts inputs
        return (⟨input, none⟩ :: rest, counts)
      else
        let readerId := counts.count input
        if maxProgressReaders ≤ readerId then .error .tooManyReaders
        else do
          let (rest, counts) ←
            assignReaders inst output (inputIdx + 1) (counts.add input) inputs
          return (⟨input, some readerId⟩ :: rest, counts)

/-! ## The pass -/

/-- What the pass decides about one instruction that has an output. -/
structure Assignment where
  inst : Instruction
  inputs : List ReaderInput
  oldOutput : ProgressKey
  output : ProgressKey
  deriving DecidableEq, Repr

/-- The state of the pass. -/
structure PassState where
  latestByBase : LatestMap
  readerCounts : ReaderCounts := {}

/-- One instruction of pass 1.  A NOP has no operands and no output. -/
def assignInstruction (st : PassState) (inst : Instruction) :
    Except CompileError (Option Assignment × PassState) :=
  match producedBase graphOptions program worldSize inst with
  | none => .ok (none, st)
  | some base => do
      let (inputs, map) := latestAll graphOptions program worldSize st.latestByBase
        (inputBases graphOptions program worldSize inst)
      let oldOutput : ProgressKey := ⟨base, latestExisting map base⟩
      let (version, map) := produce map base
      let output : ProgressKey := ⟨base, version⟩
      let (inputs, counts) ← assignReaders inst output 0 st.readerCounts inputs
      return (some ⟨inst, inputs, oldOutput, output⟩, ⟨map, counts⟩)

/-- Pass 1 over a list of instructions. -/
def assignAll : PassState → List Instruction → Except CompileError (List Assignment × PassState)
  | st, [] => .ok ([], st)
  | st, inst :: insts => do
      let (a, st) ← assignInstruction graphOptions program worldSize st inst
      let (rest, st) ← assignAll st insts
      return (a.toList ++ rest, st)

end

end Compiler
end HyLink
