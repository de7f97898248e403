import HyLink.Compiler.Assigned

/-!
# The plan of a program

Every rank replays the same pass; the **plan** of a program is its result.  A
graph compiled for a rank of the world is a selection from the plan, so what
holds of the plan holds across ranks.

* `compileGraph_eq` — compiling a rank of the world yields `Plan.graph` of that
  rank, and fails for one rank exactly when it fails for another.
* `Plan.output_lt` — later writes of a chunk have larger versions.
* `Plan.exists_producer` — every version from one to the last is written.
* `Plan.readerIds_eq` — the reader ids of a chunk version are `0, …, n - 1`.
-/

namespace HyLink
namespace Compiler

open Ir

/-- The outcome of pass 1, shared by all ranks of a world. -/
structure Plan (graphOptions : GraphCompileOptions) (program : IRProgram) (worldSize : ℕ) where
  assignments : List Assignment
  final : PassState
  /-- The pass, started with the input data of all ranks, ends like this. -/
  pass_eq : assignAll graphOptions program worldSize
    { latestByBase := fun base => if InputData program worldSize base then some 0 else none }
    program.allInstructions = .ok (assignments, final)

/-- Run the pass. -/
def plan? (graphOptions : GraphCompileOptions) (program : IRProgram) (worldSize : ℕ) :
    Option (Plan graphOptions program worldSize) :=
  match h : assignAll graphOptions program worldSize
      { latestByBase := fun base => if InputData program worldSize base then some 0 else none }
      program.allInstructions with
  | .ok (assignments, final) => some ⟨assignments, final, h⟩
  | .error _ => none

namespace Plan

variable {graphOptions : GraphCompileOptions} {program : IRProgram} {worldSize : ℕ}

/-- The nodes of a rank, before they are put in schedule order. -/
def unsortedNodes (plan : Plan graphOptions program worldSize) (env : Env) (rank : ℕ) :
    List InstructionNode :=
  (plan.assignments.filter fun a => decide (executionRank env a.inst = rank)).map
      (instantiateNode env graphOptions program (maxInputChunkCount program rank)) ++
    (stagedChunks graphOptions program worldSize rank).map
      (copyBackNode graphOptions program worldSize plan.final.latestByBase rank
        (maxInputChunkCount program rank))

/-- The graph of a rank. -/
def graph (plan : Plan graphOptions program worldSize) (env : Env) (rank : ℕ) :
    CompiledGraph :=
  let options := graphOptions.legacyLayout
  let inputChunkCount := maxInputChunkCount program rank
  let chunkSize := options.chunkSize program
  let initialReadyInputs : List ProgressKey :=
    (List.range inputChunkCount).map fun (c : ℕ) => ⟨deviceKey .input rank c, 0⟩
  let nodes := plan.unsortedNodes env rank
  let terminalOutputs := terminalOutputsOf graphOptions program worldSize
    plan.final.latestByBase rank inputChunkCount
  { rank := rank
    worldSize := worldSize
    inputChunkCount := inputChunkCount
    outputChunkCount := program.outputChunkCount
    chunkSize := chunkSize
    elementSize := options.elementSize
    numSubchunks := numSubchunksFor env chunkSize
    hasRemoteD2d := programHasRemoteD2d program
    runtimeLayout := options.runtimeLayout program inputChunkCount
    nodes := if env.d2dInputFirst.getD graphOptions.prioritizeInputD2d ∧
        programHasRemoteD2d program then stableSortByClass nodes else nodes
    initialReadyInputs := initialReadyInputs
    terminalOutputs := terminalOutputs
    activeProgressKeys :=
      (initialReadyInputs ++ nodes.flatMap nodeKeys ++ terminalOutputs).foldl addUniqueKey []
    readerAssignment :=
      readerAssignmentOf (ringChunk env program chunkSize) plan.final.readerCounts }

end Plan

section

variable {graphOptions : GraphCompileOptions} {program : IRProgram} {worldSize : ℕ}

theorem initialLatest_funext {rank : ℕ} (hrank : rank < worldSize) :
    initialLatest program worldSize rank =
      fun base => if InputData program worldSize base then some 0 else none :=
  funext (initialLatest_eq hrank)

/-- **Compilation selects from the plan.** -/
theorem compileGraph_eq (plan : Plan graphOptions program worldSize) (env : Env) {rank : ℕ}
    (hrank : rank < worldSize) :
    compileGraph env program rank worldSize graphOptions = .ok (plan.graph env rank) := by
  simp only [compileGraph, initialLatest_funext hrank, plan.pass_eq]
  rfl

/-- A rank that compiles has a plan. -/
theorem exists_plan {env : Env} {rank : ℕ} (hrank : rank < worldSize) {g : CompiledGraph}
    (h : compileGraph env program rank worldSize graphOptions = .ok g) :
    ∃ plan : Plan graphOptions program worldSize, g = plan.graph env rank := by
  cases hpass : assignAll graphOptions program worldSize
      { latestByBase := initialLatest program worldSize rank } program.allInstructions with
  | error e => simp only [compileGraph, hpass] at h; cases h
  | ok r =>
    rw [initialLatest_funext hrank] at hpass
    let plan : Plan graphOptions program worldSize := ⟨r.1, r.2, hpass⟩
    exact ⟨plan, Except.ok.inj (h.symm.trans (compileGraph_eq plan env hrank))⟩

end

/-! ## The assignments of a plan -/

namespace Plan

variable {graphOptions : GraphCompileOptions} {program : IRProgram} {worldSize : ℕ}
variable (plan : Plan graphOptions program worldSize)

theorem latestInvariant_start : LatestInvariant graphOptions program worldSize []
    (fun base => if InputData program worldSize base then some 0 else none) := by
  intro base
  simp only [producedVersions, List.countP_nil, lt_irrefl, if_false]
  split <;> simp

theorem assignedFrom : AssignedFrom graphOptions program worldSize [] program.allInstructions
    plan.assignments :=
  (assignAll_assigned latestInvariant_start plan.pass_eq).1

theorem latestInvariant : LatestInvariant graphOptions program worldSize
    program.allInstructions plan.final.latestByBase := by
  have h := (assignAll_assigned latestInvariant_start plan.pass_eq).2
  rwa [List.nil_append] at h

/-- The number of readers of a chunk version. -/
def numReaders (key : ProgressKey) : ℕ := plan.final.readerCounts.count key

/-- **Reader ids are `0, …, n - 1`.** -/
theorem readerIds_eq (key : ProgressKey) :
    readerIds plan.assignments key = List.range (plan.numReaders key) := by
  obtain ⟨hids, hcount⟩ := (assignAll_readerIds latestInvariant_start plan.pass_eq).1 key
  rw [hids, numReaders, hcount]
  simp [List.range_eq_range']

theorem readerCounts_valid : plan.final.readerCounts.Valid :=
  (assignAll_readerIds latestInvariant_start plan.pass_eq).2.1 ReaderCounts.valid_empty

theorem readerId_lt {a : Assignment} (ha : a ∈ plan.assignments) {input : ReaderInput}
    (hin : input ∈ a.inputs) {id : ℕ} (hid : input.readerId = some id) :
    id < maxProgressReaders :=
  ((assignAll_readerIds latestInvariant_start plan.pass_eq).2.2 a ha input hin).1 id hid

/-- Only a device reduce has an operand without reader id: its destination. -/
theorem base_eq_of_readerId_none {a : Assignment} (ha : a ∈ plan.assignments)
    {input : ReaderInput} (hin : input ∈ a.inputs) (hid : input.readerId = none) :
    a.inst.op = .d2dReduce ∧ input.key.base = a.output.base :=
  ((assignAll_readerIds latestInvariant_start plan.pass_eq).2.2 a ha input hin).2 hid

theorem numReaders_le (key : ProgressKey) : plan.numReaders key ≤ maxProgressReaders := by
  by_contra hlt
  push Not at hlt
  have hmem : maxProgressReaders ∈ readerIds plan.assignments key := by
    rw [plan.readerIds_eq]; simpa using hlt
  simp only [readerIds, inputIds, List.mem_flatMap, List.mem_filterMap, List.mem_filter] at hmem
  obtain ⟨a, ha, input, ⟨hin, -⟩, hid⟩ := hmem
  exact absurd (plan.readerId_lt ha hin hid) (lt_irrefl _)

end Plan

/-! ### Walking an assigned list -/

section

variable {graphOptions : GraphCompileOptions} {program : IRProgram} {worldSize : ℕ}

/-- Every assignment belongs to a position of the program. -/
theorem AssignedFrom.exists_split {pre insts : List Instruction} {as : List Assignment}
    (h : AssignedFrom graphOptions program worldSize pre insts as) {a : Assignment}
    (ha : a ∈ as) : ∃ mid post, insts = mid ++ a.inst :: post ∧
      AssignedAt graphOptions program worldSize (pre ++ mid) a := by
  induction insts generalizing pre as with
  | nil => cases h; cases ha
  | cons inst insts ih =>
    rcases h with ⟨-, h⟩ | ⟨b, rest, rfl, hb, hat, h⟩
    · obtain ⟨mid, post, rfl, hat⟩ := ih h ha
      exact ⟨inst :: mid, post, rfl, by simpa using hat⟩
    · rcases List.mem_cons.1 ha with rfl | ha
      · exact ⟨[], insts, by rw [hb]; rfl, by simpa using hat⟩
      · obtain ⟨mid, post, rfl, hat⟩ := ih h ha
        exact ⟨inst :: mid, post, rfl, by simpa using hat⟩

/-- The assignments are those of the instructions with an output, in order. -/
theorem AssignedFrom.map_inst {pre insts : List Instruction} {as : List Assignment}
    (h : AssignedFrom graphOptions program worldSize pre insts as) :
    as.map (·.inst) = insts.filter fun inst => decide (inst.op ≠ .nop) := by
  have hnop : ∀ inst : Instruction,
      producedBase graphOptions program worldSize inst = none ↔ inst.op = .nop := by
    intro inst
    rw [producedBase]
    split <;> simp_all
  induction insts generalizing pre as with
  | nil => cases h; rfl
  | cons inst insts ih =>
    rcases h with ⟨hnone, h⟩ | ⟨a, rest, rfl, ha, hat, h⟩
    · rw [ih h, List.filter_cons_of_neg (by simpa using (hnop inst).1 hnone)]
    · have hne : inst.op ≠ .nop := fun hop => by
        have := hat.produced
        rw [ha, (hnop inst).2 hop] at this
        cases this
      rw [List.map_cons, ih h, ha, List.filter_cons_of_pos (by simpa using hne)]

/-- Every instruction with an output has its assignment. -/
theorem AssignedFrom.exists_of_split {pre mid post : List Instruction} {inst : Instruction}
    {as : List Assignment}
    (h : AssignedFrom graphOptions program worldSize pre (mid ++ inst :: post) as)
    (hp : producedBase graphOptions program worldSize inst ≠ none) :
    ∃ a ∈ as, a.inst = inst ∧ AssignedAt graphOptions program worldSize (pre ++ mid) a := by
  induction mid generalizing pre as with
  | nil =>
    rcases h with ⟨hnone, -⟩ | ⟨a, rest, rfl, ha, hat, -⟩
    · exact absurd hnone hp
    · exact ⟨a, List.mem_cons_self, ha, by simpa using hat⟩
  | cons i mid ih =>
    rcases h with ⟨-, h⟩ | ⟨b, rest, rfl, -, -, h⟩
    · obtain ⟨a, ha, hi, hat⟩ := ih h
      exact ⟨a, ha, hi, by simpa using hat⟩
    · obtain ⟨a, ha, hi, hat⟩ := ih h
      exact ⟨a, List.mem_cons_of_mem _ ha, hi, by simpa using hat⟩

theorem producedVersions_mono_append (graphOptions : GraphCompileOptions) (program : IRProgram)
    (worldSize : ℕ) (pre post : List Instruction) (base : BaseKey) :
    producedVersions graphOptions program worldSize pre base ≤
      producedVersions graphOptions program worldSize (pre ++ post) base := by
  simp [producedVersions, List.countP_append]

/-- Later writes of a chunk have larger versions. -/
theorem AssignedFrom.pairwise {pre insts : List Instruction} {as : List Assignment}
    (h : AssignedFrom graphOptions program worldSize pre insts as) :
    as.Pairwise fun a b => a.output.base = b.output.base → a.output.version < b.output.version := by
  induction insts generalizing pre as with
  | nil => cases h; exact List.Pairwise.nil
  | cons inst insts ih =>
    rcases h with ⟨-, h⟩ | ⟨a, rest, rfl, ha, hat, h⟩
    · exact ih h
    · refine List.Pairwise.cons (fun b hb hbase => ?_) (ih h)
      obtain ⟨mid, post, -, hbat⟩ := h.exists_split hb
      have hp := hat.produced
      rw [ha] at hp
      rw [hat.version, hbat.version, ← hbase]
      have hmono := producedVersions_mono_append graphOptions program worldSize
        (pre ++ [inst]) mid a.output.base
      rw [producedVersions_append, if_pos hp] at hmono
      omega

/-- A count is reached through every smaller positive value: the write that
brought it to `v`. -/
theorem exists_producing_split {insts : List Instruction} {base : BaseKey} {v : ℕ}
    (hv : 0 < v) (hle : v ≤ producedVersions graphOptions program worldSize insts base) :
    ∃ mid inst post, insts = mid ++ inst :: post ∧
      producedBase graphOptions program worldSize inst = some base ∧
      producedVersions graphOptions program worldSize mid base + 1 = v := by
  induction insts using List.reverseRecOn with
  | nil => simp [producedVersions] at hle; omega
  | append_singleton insts inst ih =>
    by_cases hlast : v ≤ producedVersions graphOptions program worldSize insts base
    · obtain ⟨mid, i, post, rfl, hi, hver⟩ := ih hlast
      exact ⟨mid, i, post ++ [inst], by simp, hi, hver⟩
    · rw [producedVersions_append] at hle
      split at hle
      · exact ⟨insts, inst, [], by simp, ‹_›, by omega⟩
      · omega

end

namespace Plan

variable {graphOptions : GraphCompileOptions} {program : IRProgram} {worldSize : ℕ}
variable (plan : Plan graphOptions program worldSize)

/-- How often the program writes a chunk. -/
def finalVersion (_ : Plan graphOptions program worldSize) (base : BaseKey) : ℕ :=
  producedVersions graphOptions program worldSize program.allInstructions base

/-- Later writes of a chunk have larger versions. -/
theorem output_lt : plan.assignments.Pairwise fun a b =>
    a.output.base = b.output.base → a.output.version < b.output.version :=
  plan.assignedFrom.pairwise

theorem nodup_outputs : (plan.assignments.map (·.output)).Nodup := by
  refine List.pairwise_map.2 (plan.output_lt.imp fun {a b} hlt heq => ?_)
  have := hlt (congrArg (·.base) heq)
  rw [heq] at this
  exact lt_irrefl _ this

theorem output_injective {a b : Assignment} (ha : a ∈ plan.assignments)
    (hb : b ∈ plan.assignments) (h : a.output = b.output) : a = b :=
  List.inj_on_of_nodup_map plan.nodup_outputs ha hb h

theorem oldOutput_eq {a : Assignment} (ha : a ∈ plan.assignments) :
    a.oldOutput = ⟨a.output.base, a.output.version - 1⟩ ∧ 0 < a.output.version := by
  obtain ⟨mid, post, -, hat⟩ := plan.assignedFrom.exists_split ha
  rw [hat.oldOutput, hat.version]
  exact ⟨by simp, Nat.succ_pos _⟩

theorem version_le {a : Assignment} (ha : a ∈ plan.assignments) :
    a.output.version ≤ plan.finalVersion a.output.base := by
  obtain ⟨mid, post, hsplit, hat⟩ := plan.assignedFrom.exists_split ha
  rw [hat.version, finalVersion, hsplit]
  have h := producedVersions_mono_append graphOptions program worldSize (mid ++ [a.inst]) post
    a.output.base
  rw [producedVersions_append, if_pos hat.produced] at h
  simpa using h

/-- Every version from one to the last has its write. -/
theorem exists_producer {base : BaseKey} {v : ℕ} (hv : 0 < v)
    (hle : v ≤ plan.finalVersion base) : ∃ a ∈ plan.assignments, a.output = ⟨base, v⟩ := by
  obtain ⟨mid, inst, post, hsplit, hp, hver⟩ := exists_producing_split hv hle
  have hfrom := plan.assignedFrom
  rw [hsplit] at hfrom
  obtain ⟨a, ha, hi, hat⟩ := hfrom.exists_of_split (by simp [hp])
  have hbase : a.output.base = base := by
    have := hat.produced
    rw [hi, hp] at this
    exact (Option.some.inj this).symm
  refine ⟨a, ha, ?_⟩
  have hversion := hat.version
  rw [hbase, List.nil_append, hver] at hversion
  rw [← hbase, ← hversion]

end Plan

end Compiler
end HyLink
