import Mathlib.Data.List.Sort
import HyLink.Compiler.Versions

/-!
# Compiled graphs

`compileGraph` of the source for one rank: the nodes of the assignments this
rank executes, the copy-back nodes of its staged output chunks, the schedule
order, and the key lists the executor starts from.
-/

namespace HyLink
namespace Compiler

open Ir

structure ChunkVersion where
  key : ProgressKey
  ringBuffered : Bool
  numReaders : ℕ
  deriving DecidableEq, Repr

structure NodeInput where
  key : ProgressKey
  readerId : Option ℕ
  ringBuffered : Bool
  deriving DecidableEq, Repr

inductive D2DPlacement
  | local
  /-- The destination rank pulls. -/
  | remoteRead
  /-- The source rank pushes. -/
  | remoteWrite
  deriving DecidableEq, Repr

structure InstructionNode where
  op : OpCode
  sourceRank : ℤ
  destinationRank : ℤ
  d2dPlacement : D2DPlacement
  /-- Bytes the node transfers. -/
  workBytes : ℕ
  inputs : List NodeInput
  output : ProgressKey
  outputRingBuffered : Bool
  /-- The chunk version that the node's output replaces. -/
  overwriteGuard : Option ProgressKey
  deriving DecidableEq, Repr

structure CompiledGraph where
  rank : ℕ
  worldSize : ℕ
  inputChunkCount : ℕ
  outputChunkCount : ℕ
  chunkSize : ℕ
  elementSize : ℕ
  numSubchunks : ℕ
  hasRemoteD2d : Bool
  runtimeLayout : ProgressSpace → LayoutDesc
  nodes : List InstructionNode
  initialReadyInputs : List ProgressKey
  terminalOutputs : List ProgressKey
  activeProgressKeys : List ProgressKey
  readerAssignment : List ChunkVersion

/-! ## Placement -/

/-- Where a device copy runs. -/
def placementOf (env : Env) (inst : Instruction) : D2DPlacement :=
  if inst.op = .d2d ∧ inst.sourceRank ≠ inst.rank then
    if env.d2dPush then .remoteWrite else .remoteRead
  else .local

/-- The rank that executes an instruction. -/
def executionRank (env : Env) (inst : Instruction) : ℤ :=
  if inst.op = .d2d ∧ inst.sourceRank ≠ inst.rank ∧ env.d2dPush = true then inst.sourceRank
  else inst.rank

/-! ## Key lists -/

/-- `addUniqueKey`. -/
def addUniqueKey (keys : List ProgressKey) (key : ProgressKey) : List ProgressKey :=
  if key ∈ keys then keys else keys ++ [key]

/-- Lexicographic order of `ProgressKey::operator<`. -/
def ProgressSpace.index : ProgressSpace → ℕ
  | .host => 0
  | .input => 1
  | .output => 2
  | .scratch => 3
  | .internal => 4

def keyLe (a b : ProgressKey) : Bool :=
  if a.base.space ≠ b.base.space then
    decide (ProgressSpace.index a.base.space < ProgressSpace.index b.base.space)
  else if a.base.owner ≠ b.base.owner then decide (a.base.owner < b.base.owner)
  else if a.base.chunk ≠ b.base.chunk then decide (a.base.chunk < b.base.chunk)
  else decide (a.version ≤ b.version)

/-- `reader_assignment.chunks`: the counted keys in map order. -/
def readerAssignmentOf (ring : BaseKey → Bool) (counts : ReaderCounts) : List ChunkVersion :=
  (counts.touched.insertionSort fun a b => keyLe a b = true).map fun key =>
    ⟨key, ring key.base, counts.count key⟩

/-! ## Nodes -/

section

variable (env : Env) (graphOptions : GraphCompileOptions) (program : IRProgram) (worldSize : ℕ)

/-- The node of an assignment, on a rank with `inputChunkCount` input chunks. -/
def instantiateNode (inputChunkCount : ℕ) (a : Assignment) : InstructionNode :=
  let options := graphOptions.legacyLayout
  let ring := ringChunk env program (options.chunkSize program)
  { op := a.inst.op
    sourceRank := a.inst.sourceRank
    destinationRank := a.inst.rank
    d2dPlacement := placementOf env a.inst
    inputs := a.inputs.map fun input => ⟨input.key, input.readerId, ring input.key.base⟩
    output := a.output
    outputRingBuffered := ring a.output.base
    workBytes := options.chunkBytesForKey program inputChunkCount a.output.base
    overwriteGuard :=
      if a.oldOutput.base = a.output.base ∧ a.oldOutput.version ≠ a.output.version
      then some a.oldOutput else none }

/-- The version an operand has once the pass is over. -/
def latestVersion (map : LatestMap) (base : BaseKey) : ProgressKey :=
  ⟨base, (latest graphOptions program worldSize map base).1⟩

/-- The version of this rank's output chunk `c` after the pass. -/
def visibleOutput (map : LatestMap) (rank : ℕ) (c : ℕ) : ProgressKey :=
  latestVersion graphOptions program worldSize map (deviceKey .output rank c)

/-- The copy of a staged chunk back to its output chunk.  It waits for the
readers of the bytes it overwrites: of the input chunk with the same index when
the buffers have the same base, else of the output chunk. -/
def copyBackNode (map : LatestMap) (rank inputChunkCount : ℕ) (c : ℕ) : InstructionNode :=
  let options := graphOptions.legacyLayout
  let visible := visibleOutput graphOptions program worldSize map rank c
  let staged := latestVersion graphOptions program worldSize map (deviceKey .internal rank c)
  let oldVisible :=
    if options.inPlaceAliasMode = .sameBase ∧ c < inputChunkCount then
      latestVersion graphOptions program worldSize map (deviceKey .input rank c)
    else visible
  -- `latest` has recorded the chunk, or final versions say what it recorded
  let copyback : ProgressKey := ⟨visible.base,
    (produce (latest graphOptions program worldSize map visible.base).2 visible.base).1⟩
  { op := .d2d
    sourceRank := rank
    destinationRank := -1
    d2dPlacement := .local
    inputs := [⟨staged, none, false⟩]
    output := copyback
    outputRingBuffered := false
    workBytes := options.chunkBytesForKey program inputChunkCount copyback.base
    overwriteGuard := some oldVisible }

/-- The chunks of the rank that are copied back, in index order.  Distinct chunks
have distinct entries in `latest_by_base`, so that no iteration of the loop sees
the others. -/
def stagedChunks (rank : ℕ) : List ℕ :=
  (List.range program.outputChunkCount).filter fun (c : ℕ) =>
    stageOutputChunk graphOptions program worldSize rank c

/-- `terminal_outputs`: what the rank's output chunks end up as. -/
def terminalOutputsOf (map : LatestMap) (rank inputChunkCount : ℕ) : List ProgressKey :=
  (List.range program.outputChunkCount).map fun (c : ℕ) =>
    if stageOutputChunk graphOptions program worldSize rank c then
      (copyBackNode graphOptions program worldSize map rank inputChunkCount c).output
    else visibleOutput graphOptions program worldSize map rank c

end

/-! ## Schedule order -/

def nodeScheduleClass (node : InstructionNode) : ℕ :=
  if node.op = .d2h then 0
  else if node.op = .d2d ∧ (node.inputs.head?.map fun input => input.key.base.space) = some .input
    then 1
  else if node.op = .d2d ∧ node.d2dPlacement = .local then 2
  else if node.op = .h2d then 3
  else if node.op = .d2dReduce then 4
  else if node.op = .d2d then 5
  else 6

/-- A stable sort by schedule class. -/
def stableSortByClass (nodes : List InstructionNode) : List InstructionNode :=
  (List.range 7).flatMap fun c => nodes.filter fun node => nodeScheduleClass node == c

/-! ## Compilation -/

/-- Some device copy of the program crosses ranks. -/
def programHasRemoteD2d (program : IRProgram) : Bool :=
  program.allInstructions.any fun inst => decide (inst.op = .d2d ∧ inst.sourceRank ≠ inst.rank)

/-- The keys a node touches, in the order the pass adds them. -/
def nodeKeys (node : InstructionNode) : List ProgressKey :=
  node.inputs.map (·.key) ++ node.overwriteGuard.toList ++ [node.output]

/-- Compile the graph of one rank. -/
def compileGraph (env : Env) (program : IRProgram) (rank worldSize : ℕ)
    (graphOptions : GraphCompileOptions) : Except CompileError CompiledGraph := do
  let options := graphOptions.legacyLayout
  let inputChunkCount := maxInputChunkCount program rank
  let chunkSize := options.chunkSize program
  let initialReadyInputs : List ProgressKey :=
    (List.range inputChunkCount).map fun (c : ℕ) => ⟨deviceKey .input rank c, 0⟩
  let (assignments, st) ← assignAll graphOptions program worldSize
    { latestByBase := initialLatest program worldSize rank } program.allInstructions
  let mine := assignments.filter fun a => decide (executionRank env a.inst = rank)
  let instNodes := mine.map (instantiateNode env graphOptions program inputChunkCount)
  let copyBacks := (stagedChunks graphOptions program worldSize rank).map
    (copyBackNode graphOptions program worldSize st.latestByBase rank inputChunkCount)
  let terminalOutputs :=
    terminalOutputsOf graphOptions program worldSize st.latestByBase rank inputChunkCount
  let nodes := instNodes ++ copyBacks
  let hasRemoteD2d := programHasRemoteD2d program
  let prioritizeInputD2d := env.d2dInputFirst.getD graphOptions.prioritizeInputD2d
  return {
    rank := rank
    worldSize := worldSize
    inputChunkCount := inputChunkCount
    outputChunkCount := program.outputChunkCount
    chunkSize := chunkSize
    elementSize := options.elementSize
    numSubchunks := numSubchunksFor env chunkSize
    hasRemoteD2d := hasRemoteD2d
    runtimeLayout := options.runtimeLayout program inputChunkCount
    nodes := if prioritizeInputD2d ∧ hasRemoteD2d then stableSortByClass nodes else nodes
    initialReadyInputs := initialReadyInputs
    -- the source adds the terminal keys chunk by chunk, among those of the copy-back nodes
    terminalOutputs := terminalOutputs
    activeProgressKeys :=
      (initialReadyInputs ++ nodes.flatMap nodeKeys ++ terminalOutputs).foldl addUniqueKey []
    readerAssignment := readerAssignmentOf
      (ringChunk env program chunkSize) st.readerCounts }

end Compiler
end HyLink
