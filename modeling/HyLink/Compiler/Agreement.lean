import HyLink.Compiler.Nodes

/-!
# Global agreement of compilation

Every rank compiles its own graph from the same program.  The ranks agree: one
list of assignments serves them all, the reader tables are equal, a chunk is
ring-buffered on all ranks or on none, and the reader cursors of a chunk version
are spread over the nodes of the world without gap or overlap.

The last point needs every instruction to run on a rank of the world: the pass
allocates a reader id for an instruction of a rank outside it, but no rank has
the node (`stray_reader`).

* `compile_agreement` — the statement, for all programs of a world.
-/

namespace HyLink
namespace Compiler

open Ir

/-- The reader cursors of a chunk version that a list of nodes advances. -/
def nodeReaderIds (nodes : List InstructionNode) (key : ProgressKey) : List ℕ :=
  nodes.flatMap fun n => (n.inputs.filter fun x => x.key = key).filterMap (·.readerId)

/-- The number of readers that a graph's reader table gives a chunk version. -/
def numReadersOf (g : CompiledGraph) (key : ProgressKey) : ℕ :=
  ((g.readerAssignment.find? fun c => c.key == key).map (·.numReaders)).getD 0

/-- Every ring flag a graph records, with the chunk it is for. -/
def ringFlags (g : CompiledGraph) : List (BaseKey × Bool) :=
  (g.nodes.flatMap fun n => (n.output.base, n.outputRingBuffered) ::
    n.inputs.map fun x => (x.key.base, x.ringBuffered)) ++
  g.readerAssignment.map fun c => (c.key.base, c.ringBuffered)

/-- What the ranks of a world agree on. -/
structure Agreement (env : Env) (graphOptions : GraphCompileOptions) (program : IRProgram)
    (worldSize : ℕ) (as : List Assignment) (g : ℕ → CompiledGraph) : Prop where
  /-- Every instruction is assigned once. -/
  instructions : as.map (·.inst) = program.allInstructions.filter fun inst => decide (inst.op ≠ .nop)
  /-- A rank's nodes are the instances of the assignments it executes, with the
  versions and reader ids all ranks know them by, and copy-backs, which have no
  reader id. -/
  nodes : ∀ r < worldSize, ∃ copyBacks : List InstructionNode,
    (g r).nodes.Perm ((as.filter fun a => decide (executionRank env a.inst = r)).map
      (instantiateNode env graphOptions program (maxInputChunkCount program r)) ++ copyBacks) ∧
    ∀ n ∈ copyBacks, (∃ c : ℕ, stageOutputChunk graphOptions program worldSize r c = true ∧
      n.output.base = deviceKey .output r c) ∧ ∀ x ∈ n.inputs, x.readerId = none
  /-- No instruction on any rank touches a chunk that is staged on its owner. -/
  staging : ∀ a ∈ as, ∀ owner chunk,
    stageOutputChunk graphOptions program worldSize owner chunk = true →
    a.output.base ≠ deviceKey .output owner chunk ∧
    ∀ x ∈ a.inputs, x.key.base ≠ deviceKey .output owner chunk
  readerTables : ∀ r < worldSize, ∀ r' < worldSize,
    (g r).readerAssignment = (g r').readerAssignment
  rings : ∀ r < worldSize, ∀ r' < worldSize, ∀ base flag flag',
    (base, flag) ∈ ringFlags (g r) → (base, flag') ∈ ringFlags (g r') → flag = flag'
  /-- Over all ranks, the cursors `0, …, n - 1` of a version are used once each. -/
  readers : ∀ r < worldSize, ∀ key,
    ((List.range worldSize).flatMap fun r' => nodeReaderIds (g r').nodes key).Perm
      (List.range (numReadersOf (g r) key))

section

variable {env : Env} {graphOptions : GraphCompileOptions} {program : IRProgram} {worldSize : ℕ}

/-! ## Operands of staged chunks -/

theorem inputBases_ne_of_staged {inst : Instruction} {owner chunk : ℤ}
    (hs : stageOutputChunk graphOptions program worldSize owner chunk = true) :
    ∀ base ∈ inputBases graphOptions program worldSize inst,
      base ≠ deviceKey .output owner chunk := by
  rintro base hb rfl
  simp only [inputBases, sourceDeviceKey] at hb
  split at hb <;> simp only [List.mem_cons, List.not_mem_nil, or_false, deviceKey_inj,
    deviceKey_ne_hostKey, or_self] at hb
  · obtain ⟨hbuf, rfl, rfl⟩ := hb
    exact visibleBuf_ne_output hs _ hbuf.symm
  · obtain ⟨hbuf, rfl, rfl⟩ := hb
    exact visibleBuf_ne_output hs _ hbuf.symm
  · rcases hb with ⟨hbuf, rfl, rfl⟩ | ⟨hbuf, rfl, rfl⟩ <;>
      exact visibleBuf_ne_output hs _ hbuf.symm

namespace Plan

variable (plan : Plan graphOptions program worldSize)

theorem input_base_mem {a : Assignment} (ha : a ∈ plan.assignments) {x : ReaderInput}
    (hx : x ∈ a.inputs) : x.key.base ∈ inputBases graphOptions program worldSize a.inst := by
  obtain ⟨mid, post, -, hat⟩ := plan.assignedFrom.exists_split ha
  have hmem : x.key ∈ a.inputs.map (·.key) := List.mem_map_of_mem hx
  rw [hat.inputs, List.mem_map] at hmem
  obtain ⟨base, hb, hk⟩ := hmem
  rw [← hk]
  exact hb

/-! ## Reader tables and ring flags -/

theorem numReadersOf_graph (rank : ℕ) (key : ProgressKey) :
    numReadersOf (plan.graph env rank) key = plan.numReaders key := by
  have hvalid := plan.readerCounts_valid
  simp only [numReadersOf, graph, readerAssignmentOf, List.find?_map, Option.map_map,
    numReaders, Function.comp_def]
  cases hfind : (plan.final.readerCounts.touched.insertionSort
      fun a b => keyLe a b = true).find? fun k => k == key with
  | none =>
    rw [List.find?_eq_none] at hfind
    have hnot : key ∉ plan.final.readerCounts.touched := fun hmem =>
      absurd (beq_self_eq_true key) (hfind key ((List.perm_insertionSort _ _).mem_iff.2 hmem))
    rw [hvalid.mem_touched] at hnot
    simpa using (Nat.eq_zero_of_not_pos hnot).symm
  | some k =>
    have := List.find?_some hfind
    rw [beq_iff_eq] at this
    simp [this]

theorem ringFlags_eq {rank : ℕ} {base : BaseKey} {flag : Bool}
    (h : (base, flag) ∈ ringFlags (plan.graph env rank)) :
    flag = ringChunk env program (graphOptions.legacyLayout.chunkSize program) base := by
  have hdevice : ∀ kind owner chunk, ringChunk env program
      (graphOptions.legacyLayout.chunkSize program) (deviceKey kind owner chunk) = false := by
    intro kind owner chunk
    cases kind <;> simp [ringChunk, deviceKey, progressSpaceForDeviceBuffer]
  simp only [ringFlags, List.mem_append, List.mem_flatMap, List.mem_cons, List.mem_map] at h
  rcases h with ⟨n, hn, h⟩ | ⟨c, hc, h⟩
  · rw [plan.mem_nodes_iff] at hn
    rcases hn with ⟨a, -, -, rfl⟩ | ⟨c, -, hs, rfl⟩
    · simp only [instNode, instantiateNode, List.mem_map] at h
      rcases h with h | ⟨x, ⟨input, -, rfl⟩, h⟩ <;> cases h <;> rfl
    · rw [plan.copyBack_output hs, plan.copyBack_input] at h
      rcases h with h | ⟨x, hx, h⟩
      · cases h
        rw [hdevice]
        rfl
      · rw [List.mem_singleton] at hx
        subst hx
        cases h
        rw [hdevice]
  · simp only [graph, readerAssignmentOf, List.mem_map] at hc
    obtain ⟨key, -, rfl⟩ := hc
    cases h
    rfl

/-! ## Reader cursors over all ranks -/

theorem nodeReaderIds_graph (rank : ℕ) (key : ProgressKey) :
    (nodeReaderIds (plan.graph env rank).nodes key).Perm
      ((plan.assignments.filter fun a => decide (executionRank env a.inst = rank)).flatMap
        fun a => inputIds a.inputs key) := by
  refine ((plan.nodes_perm env rank).flatMap_right _).trans (List.Perm.of_eq ?_)
  rw [unsortedNodes, List.flatMap_append, List.flatMap_map, List.flatMap_map]
  have hinst : ∀ a : Assignment, ((instantiateNode env graphOptions program
      (maxInputChunkCount program rank) a).inputs.filter fun x => x.key = key).filterMap
        (·.readerId) = inputIds a.inputs key := by
    intro a
    simp only [instantiateNode, inputIds, List.filter_map, List.filterMap_map, Function.comp_def]
  have hcopy : ∀ c : ℕ, ((copyBackNode graphOptions program worldSize plan.final.latestByBase rank
      (maxInputChunkCount program rank) c).inputs.filter fun x => x.key = key).filterMap
        (·.readerId) = [] := by
    intro c
    have h := plan.copyBack_input rank c
    rw [copyBack] at h
    rw [h]
    by_cases hk : (⟨deviceKey .internal rank c,
      plan.finalVersion (deviceKey .internal rank c)⟩ : ProgressKey) = key <;> simp [hk]
  simp only [hinst, hcopy]
  simp

theorem readers_perm (hranks : RanksInWorld env program worldSize) (key : ProgressKey) :
    ((List.range worldSize).flatMap fun r => nodeReaderIds (plan.graph env r).nodes key).Perm
      (List.range (plan.numReaders key)) := by
  rw [← plan.readerIds_eq, readerIds]
  have hpart : ((List.range worldSize).flatMap fun (r : ℕ) => plan.assignments.filter
      fun a => decide (executionRank env a.inst = (r : ℤ))).Perm plan.assignments := by
    have hlt : ∀ a ∈ plan.assignments, (executionRank env a.inst).toNat < worldSize := by
      intro a ha
      obtain ⟨r, hr, he⟩ := plan.exists_executionRank hranks ha
      omega
    refine List.Perm.trans (List.Perm.of_eq ?_) (perm_flatMap_filter
      (fun a : Assignment => (executionRank env a.inst).toNat) plan.assignments hlt)
    refine congrArg (fun f => (List.range worldSize).flatMap f)
      (funext fun r => List.filter_congr fun a ha => ?_)
    obtain ⟨r', -, he⟩ := plan.exists_executionRank hranks ha
    rw [Bool.eq_iff_iff]
    simp only [decide_eq_true_eq, beq_iff_eq]
    omega
  refine List.Perm.trans ?_ (hpart.flatMap_right _)
  rw [List.flatMap_assoc]
  exact List.Perm.flatMap_left _ fun r _ => plan.nodeReaderIds_graph r key

end Plan

/-- **Global agreement.**  When every instruction runs on a rank of the world,
either no rank compiles the program, because some chunk version has too many
readers, or all ranks do and they agree. -/
theorem compile_agreement (env : Env) (graphOptions : GraphCompileOptions) (program : IRProgram)
    (worldSize : ℕ) (hranks : RanksInWorld env program worldSize) :
    (∀ r < worldSize,
      compileGraph env program r worldSize graphOptions = .error .tooManyReaders) ∨
    ∃ as g, (∀ r < worldSize, compileGraph env program r worldSize graphOptions = .ok (g r)) ∧
      Agreement env graphOptions program worldSize as g := by
  by_cases hplan : Nonempty (Plan graphOptions program worldSize)
  · obtain ⟨plan⟩ := hplan
    refine Or.inr ⟨plan.assignments, plan.graph env, fun r hr => compileGraph_eq plan env hr, ?_⟩
    refine
      { instructions := plan.assignedFrom.map_inst
        nodes := fun r hr => ⟨_, plan.nodes_perm env r, ?_⟩
        staging := fun a ha owner chunk hs => ⟨?_, fun x hx => ?_⟩
        readerTables := fun r _ r' _ => rfl
        rings := fun r _ r' _ base flag flag' h h' =>
          (plan.ringFlags_eq h).trans (plan.ringFlags_eq h').symm
        readers := fun r _ key => by
          rw [plan.numReadersOf_graph]; exact plan.readers_perm hranks key }
    · intro n hn
      obtain ⟨c, hc, rfl⟩ := List.mem_map.1 hn
      have hs := (List.mem_filter.1 hc).2
      have hout := plan.copyBack_output hs
      have hin := plan.copyBack_input r c
      rw [Plan.copyBack] at hout hin
      exact ⟨⟨c, hs, by rw [hout]⟩, by rw [hin]; simp⟩
    · obtain ⟨mid, post, -, hat⟩ := plan.assignedFrom.exists_split ha
      exact fun h => Plan.producedBase_ne_of_staged hs (h ▸ hat.produced)
    · exact inputBases_ne_of_staged hs _ (plan.input_base_mem ha hx)
  · refine Or.inl fun r hr => ?_
    cases h : compileGraph env program r worldSize graphOptions with
    | error e => cases e; rfl
    | ok g =>
      obtain ⟨plan, _⟩ := exists_plan hr h
      exact absurd ⟨plan⟩ hplan

end

/-! ## Two programs -/

/-- Two ranks exchange their inputs through one host chunk each. -/
def exchangeProgram : IRProgram where
  inputChunkCount := 1
  outputChunkCount := 1
  allInstructions :=
    [{ op := .d2h, rank := 0, src := ⟨0, 0⟩, dst := ⟨0, 0⟩ },
     { op := .h2d, rank := 0, src := ⟨0, 1⟩, dst := ⟨0, 0⟩ },
     { op := .d2h, rank := 1, src := ⟨0, 0⟩, dst := ⟨0, 1⟩ },
     { op := .h2d, rank := 1, src := ⟨0, 0⟩, dst := ⟨0, 0⟩ }]

/-- A program for three ranks. -/
def strayProgram : IRProgram where
  inputChunkCount := 1
  outputChunkCount := 1
  allInstructions :=
    [{ op := .d2h, rank := 0, src := ⟨0, 0⟩, dst := ⟨0, 0⟩ },
     { op := .h2d, rank := 2, src := ⟨0, 0⟩, dst := ⟨0, 0⟩ }]

/-- Four bytes out of place. -/
def oneElement : GraphCompileOptions where
  legacyLayout := { segCount := 1 }

/-- The exchange compiles on both ranks, and they agree. -/
theorem compile_agreement_exchange :
    ∃ as g, (∀ r < 2, compileGraph {} exchangeProgram r 2 oneElement = .ok (g r)) ∧
      Agreement {} oneElement exchangeProgram 2 as g := by
  rcases compile_agreement {} oneElement exchangeProgram 2 (by decide) with h | h
  · have h0 := congrArg Except.isOk (h 0 (by decide))
    exact absurd h0 (by decide)
  · exact h

/-- In a world of two ranks the H2D of rank 2 counts as a reader of the host
chunk, but no rank of the world has its node. -/
theorem stray_reader :
    ¬ ∀ g : ℕ → CompiledGraph,
      (∀ r < 2, compileGraph {} strayProgram r 2 oneElement = .ok (g r)) →
      ∀ key, ((List.range 2).flatMap fun r => nodeReaderIds (g r).nodes key).Perm
        (List.range (numReadersOf (g 0) key)) := by
  intro h
  let plan := (plan? oneElement strayProgram 2).get (by decide)
  have hperm := h (plan.graph {}) (fun r hr => compileGraph_eq plan {} hr) ⟨hostKey 0 0, 1⟩
  exact absurd hperm.length_eq (by decide)

end Compiler
end HyLink
