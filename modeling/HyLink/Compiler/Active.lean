import HyLink.Compiler.Agreement

/-!
# The keys of a graph

`active_progress_keys` lists every key whose progress words a rank touches.  The
chunks of these keys can be read off the program (`rankBases`): they are the
operands and the outputs of the instructions the rank executes, its input and
output chunks, and the `INTERNAL` chunks it copies back.

* `Plan.bases_active` — the chunks of the active keys are exactly these.
* `Plan.active_version_le` — a version in use is at most the number of writes of
  its chunk, or it is the version of a copy-back.
* `Plan.versions_active` — when every instruction runs in the world, all versions
  of a written chunk are in use, from the one it starts with.
* `Plan.bases_readerAssignment` — the reader table of every rank has the chunks that
  any instruction reads, but for the destinations of device reduces.
-/

namespace HyLink
namespace Compiler

open Ir

/-! ## The chunks of a rank -/

section

variable (env : Env) (graphOptions : GraphCompileOptions) (program : IRProgram) (worldSize : ℕ)

/-- The chunks an instruction reads and writes. -/
def instBases (inst : Instruction) : List BaseKey :=
  inputBases graphOptions program worldSize inst ++
    (producedBase graphOptions program worldSize inst).toList

/-- The chunks whose readers an instruction is counted among: a device reduce is
no reader of its own destination. -/
def sourceBases (inst : Instruction) : List BaseKey :=
  if inst.op = .d2dReduce then (inputBases graphOptions program worldSize inst).take 1
  else inputBases graphOptions program worldSize inst

/-- The input and output chunks of a rank, and its staged chunks. -/
def ownBases (rank : ℕ) : List BaseKey :=
  (List.range (maxInputChunkCount program rank)).map (fun (c : ℕ) => deviceKey .input rank c) ++
    (List.range program.outputChunkCount).map (fun (c : ℕ) => deviceKey .output rank c) ++
    (stagedChunks graphOptions program worldSize rank).map fun (c : ℕ) =>
      deviceKey .internal rank c

/-- The chunks whose progress a rank touches. -/
def rankBases (rank : ℕ) : List BaseKey :=
  (program.allInstructions.filter fun inst =>
      decide (inst.op ≠ .nop ∧ executionRank env inst = rank)).flatMap
    (instBases graphOptions program worldSize) ++
    ownBases graphOptions program worldSize rank

end

/-! ## Members of the key list -/

section

variable {env : Env} {graphOptions : GraphCompileOptions} {program : IRProgram} {worldSize : ℕ}

theorem mem_foldl_addUniqueKey {keys start : List ProgressKey} {k : ProgressKey} :
    k ∈ keys.foldl addUniqueKey start ↔ k ∈ start ∨ k ∈ keys := by
  induction keys generalizing start with
  | nil => simp
  | cons a keys ih =>
    rw [List.foldl_cons, ih, addUniqueKey]
    split
    · next ha =>
      constructor
      · rintro (h | h)
        · exact Or.inl h
        · exact Or.inr (List.mem_cons_of_mem _ h)
      · rintro (h | h)
        · exact Or.inl h
        · rcases List.mem_cons.1 h with rfl | h
          · exact Or.inl ha
          · exact Or.inr h
    · simp only [List.mem_append, List.mem_cons, List.not_mem_nil, false_or, or_assoc]

theorem mem_ownBases {rank : ℕ} {base : BaseKey} :
    base ∈ ownBases graphOptions program worldSize rank ↔
      (∃ c < maxInputChunkCount program rank, deviceKey .input rank (c : ℕ) = base) ∨
      (∃ c < program.outputChunkCount, deviceKey .output rank (c : ℕ) = base) ∨
      ∃ c < program.outputChunkCount,
        stageOutputChunk graphOptions program worldSize rank (c : ℕ) = true ∧
          deviceKey .internal rank (c : ℕ) = base := by
  simp [ownBases, stagedChunks, and_assoc]

theorem mem_instBases {inst : Instruction} {base : BaseKey} :
    base ∈ instBases graphOptions program worldSize inst ↔
      base ∈ inputBases graphOptions program worldSize inst ∨
        producedBase graphOptions program worldSize inst = some base := by
  simp [instBases]

theorem sourceBases_subset {inst : Instruction} {base : BaseKey}
    (hb : base ∈ sourceBases graphOptions program worldSize inst) :
    base ∈ inputBases graphOptions program worldSize inst := by
  rw [sourceBases] at hb
  split at hb
  · exact List.mem_of_mem_take hb
  · exact hb

theorem mem_rankBases {rank : ℕ} {base : BaseKey} :
    base ∈ rankBases env graphOptions program worldSize rank ↔
      (∃ inst ∈ program.allInstructions, inst.op ≠ .nop ∧ executionRank env inst = rank ∧
        base ∈ instBases graphOptions program worldSize inst) ∨
      base ∈ ownBases graphOptions program worldSize rank := by
  simp [rankBases, and_assoc]

theorem producedBase_eq_none {inst : Instruction} :
    producedBase graphOptions program worldSize inst = none ↔ inst.op = .nop := by
  rw [producedBase]
  split <;> simp_all

namespace Plan

variable (plan : Plan graphOptions program worldSize) {rank : ℕ}

theorem mem_activeKeys {k : ProgressKey} :
    k ∈ (plan.graph env rank).activeProgressKeys ↔
      k ∈ (plan.graph env rank).initialReadyInputs ∨
      (∃ n ∈ (plan.graph env rank).nodes, k ∈ nodeKeys n) ∨
      k ∈ (plan.graph env rank).terminalOutputs := by
  rw [show (plan.graph env rank).activeProgressKeys =
    ((plan.graph env rank).initialReadyInputs ++
      (plan.unsortedNodes env rank).flatMap nodeKeys ++
      (plan.graph env rank).terminalOutputs).foldl addUniqueKey [] from rfl,
    mem_foldl_addUniqueKey]
  simp only [List.not_mem_nil, false_or, List.mem_append, List.mem_flatMap, or_assoc,
    (plan.nodes_perm env rank).mem_iff]

theorem mem_initialReadyInputs {k : ProgressKey} :
    k ∈ (plan.graph env rank).initialReadyInputs ↔
      ∃ c < maxInputChunkCount program rank, ⟨deviceKey .input rank (c : ℕ), 0⟩ = k := by
  simp [graph]

theorem mem_terminalOutputs {k : ProgressKey} :
    k ∈ (plan.graph env rank).terminalOutputs ↔
      ∃ c < program.outputChunkCount,
        (if stageOutputChunk graphOptions program worldSize rank (c : ℕ) = true then
          ⟨deviceKey .output rank (c : ℕ), 1⟩
        else ⟨deviceKey .output rank (c : ℕ),
          plan.finalVersion (deviceKey .output rank (c : ℕ))⟩) = k := by
  simp only [graph, terminalOutputsOf, List.mem_map, List.mem_range]
  refine exists_congr fun c => and_congr_right fun _ => ?_
  by_cases hs : stageOutputChunk graphOptions program worldSize rank (c : ℕ) = true
  · have hout := plan.copyBack_output hs
    rw [copyBack] at hout
    rw [if_pos hs, if_pos hs, hout]
  · rw [if_neg hs, if_neg hs, visibleOutput, latestVersion_eq]

/-- The keys of the instance of an assignment. -/
theorem mem_nodeKeys_instNode {a : Assignment} (ha : a ∈ plan.assignments) {k : ProgressKey} :
    k ∈ nodeKeys (plan.instNode env rank a) ↔
      k ∈ a.inputs.map (·.key) ∨ k = ⟨a.output.base, a.output.version - 1⟩ ∨ k = a.output := by
  rw [nodeKeys, plan.instNode_guard ha]
  simp [instNode, instantiateNode, List.map_map, Function.comp_def]

/-- The keys of a copy-back. -/
theorem mem_nodeKeys_copyBack {c : ℕ}
    (hs : stageOutputChunk graphOptions program worldSize rank (c : ℕ) = true) {k : ProgressKey} :
    k ∈ nodeKeys (plan.copyBack rank c) ↔
      k = ⟨deviceKey .internal rank c, plan.finalVersion (deviceKey .internal rank c)⟩ ∨
      k = (if graphOptions.legacyLayout.inPlaceAliasMode = .sameBase ∧
          c < maxInputChunkCount program rank then
        ⟨deviceKey .input rank c, plan.finalVersion (deviceKey .input rank c)⟩
      else ⟨deviceKey .output rank c, 0⟩) ∨
      k = ⟨deviceKey .output rank c, 1⟩ := by
  rw [nodeKeys, plan.copyBack_input, plan.copyBack_guard hs, plan.copyBack_output hs]
  simp

/-! ## Their chunks -/

theorem base_of_instKey {a : Assignment} (ha : a ∈ plan.assignments) {k : ProgressKey}
    (hk : k ∈ nodeKeys (plan.instNode env rank a)) :
    k.base ∈ instBases graphOptions program worldSize a.inst := by
  obtain ⟨mid, post, -, hat⟩ := plan.assignedFrom.exists_split ha
  rw [mem_instBases]
  rcases (plan.mem_nodeKeys_instNode ha).1 hk with hk | rfl | rfl
  · obtain ⟨x, hx, rfl⟩ := List.mem_map.1 hk
    exact Or.inl (plan.input_base_mem ha hx)
  · exact Or.inr hat.produced
  · exact Or.inr hat.produced

/-- Every instruction that does something is assigned. -/
theorem exists_assignment {inst : Instruction} (hmem : inst ∈ program.allInstructions)
    (hop : inst.op ≠ .nop) : ∃ a ∈ plan.assignments, a.inst = inst := by
  obtain ⟨mid, post, hsplit⟩ := List.append_of_mem hmem
  have hfrom := plan.assignedFrom
  rw [hsplit] at hfrom
  obtain ⟨a, ha, hi, -⟩ := hfrom.exists_of_split (fun h => hop (producedBase_eq_none.1 h))
  exact ⟨a, ha, hi⟩

theorem exists_instKey {inst : Instruction} (hmem : inst ∈ program.allInstructions)
    (hop : inst.op ≠ .nop) {base : BaseKey}
    (hb : base ∈ instBases graphOptions program worldSize inst) :
    ∃ a ∈ plan.assignments, a.inst = inst ∧
      ∃ k ∈ nodeKeys (plan.instNode env rank a), k.base = base := by
  obtain ⟨a, ha, hi⟩ := plan.exists_assignment hmem hop
  obtain ⟨mid, post, -, hat⟩ := plan.assignedFrom.exists_split ha
  refine ⟨a, ha, hi, ?_⟩
  rw [mem_instBases] at hb
  rcases hb with hb | hb
  · let version := readVersion graphOptions program worldSize ([] ++ mid) base
    have hkey : (⟨base, version⟩ : ProgressKey) ∈ a.inputs.map (·.key) := by
      rw [hat.inputs, hi]
      exact List.mem_map_of_mem hb
    exact ⟨_, (plan.mem_nodeKeys_instNode ha).2 (Or.inl hkey), rfl⟩
  · have hout := hat.produced
    rw [hi, hb] at hout
    exact ⟨a.output, (plan.mem_nodeKeys_instNode ha).2 (Or.inr (Or.inr rfl)),
      (Option.some.inj hout).symm⟩

/-- **The chunks of the active keys** are those the program names for the rank. -/
theorem bases_active {base : BaseKey} :
    (∃ k ∈ (plan.graph env rank).activeProgressKeys, k.base = base) ↔
      base ∈ rankBases env graphOptions program worldSize rank := by
  rw [mem_rankBases, mem_ownBases]
  constructor
  · rintro ⟨k, hk, rfl⟩
    rcases plan.mem_activeKeys.1 hk with hk | ⟨n, hn, hk⟩ | hk
    · obtain ⟨c, hc, rfl⟩ := plan.mem_initialReadyInputs.1 hk
      exact Or.inr (Or.inl ⟨c, hc, rfl⟩)
    · rcases plan.mem_nodes_iff.1 hn with ⟨a, ha, hr, rfl⟩ | ⟨c, hc, hs, rfl⟩
      · exact Or.inl ⟨a.inst, plan.inst_mem ha, plan.op_ne_nop ha, hr, plan.base_of_instKey ha hk⟩
      · right
        rcases (plan.mem_nodeKeys_copyBack hs).1 hk with rfl | rfl | rfl
        · exact Or.inr (Or.inr ⟨c, hc, hs, rfl⟩)
        · split
          · next h => exact Or.inl ⟨c, h.2, rfl⟩
          · exact Or.inr (Or.inl ⟨c, hc, rfl⟩)
        · exact Or.inr (Or.inl ⟨c, hc, rfl⟩)
    · obtain ⟨c, hc, rfl⟩ := plan.mem_terminalOutputs.1 hk
      refine Or.inr (Or.inr (Or.inl ⟨c, hc, ?_⟩))
      split <;> rfl
  · rintro (⟨inst, hmem, hop, hr, hb⟩ | ⟨c, hc, rfl⟩ | ⟨c, hc, rfl⟩ | ⟨c, hc, hs, rfl⟩)
    · obtain ⟨a, ha, rfl, k, hk, rfl⟩ := plan.exists_instKey hmem hop hb
      exact ⟨k, plan.mem_activeKeys.2 (Or.inr (Or.inl
        ⟨_, plan.mem_nodes_iff.2 (Or.inl ⟨a, ha, hr, rfl⟩), hk⟩)), rfl⟩
    · exact ⟨_, plan.mem_activeKeys.2 (Or.inl (plan.mem_initialReadyInputs.2 ⟨c, hc, rfl⟩)), rfl⟩
    · refine ⟨_, plan.mem_activeKeys.2 (Or.inr (Or.inr
        (plan.mem_terminalOutputs.2 ⟨c, hc, rfl⟩))), ?_⟩
      split <;> rfl
    · exact ⟨_, plan.mem_activeKeys.2 (Or.inr (Or.inl
        ⟨_, plan.mem_nodes_iff.2 (Or.inr ⟨c, hc, hs, rfl⟩),
          (plan.mem_nodeKeys_copyBack hs).2 (Or.inl rfl)⟩)), rfl⟩

/-! ## Their versions -/

theorem readVersion_le (pre post : List Instruction) (base : BaseKey)
    (h : program.allInstructions = pre ++ post) :
    readVersion graphOptions program worldSize pre base ≤ plan.finalVersion base := by
  have hmono := producedVersions_mono_append graphOptions program worldSize pre post base
  rw [← h] at hmono
  rw [readVersion, finalVersion]
  split_ifs
  · exact hmono
  · exact Nat.zero_le _
  · exact le_rfl

/-- **Versions in use.**  A version in use is one the program writes or starts
with, or a copy-back's. -/
theorem active_version_le {k : ProgressKey} (hk : k ∈ (plan.graph env rank).activeProgressKeys) :
    k.version ≤ max 1 (plan.finalVersion k.base) := by
  rcases plan.mem_activeKeys.1 hk with hk | ⟨n, hn, hk⟩ | hk
  · obtain ⟨c, -, rfl⟩ := plan.mem_initialReadyInputs.1 hk
    exact Nat.zero_le _
  · rcases plan.mem_nodes_iff.1 hn with ⟨a, ha, -, rfl⟩ | ⟨c, -, hs, rfl⟩
    · obtain ⟨mid, post, hsplit, hat⟩ := plan.assignedFrom.exists_split ha
      have hver := plan.version_le ha
      rcases (plan.mem_nodeKeys_instNode ha).1 hk with hk | rfl | rfl
      · rw [hat.inputs] at hk
        obtain ⟨base, -, rfl⟩ := List.mem_map.1 hk
        exact (plan.readVersion_le _ _ base hsplit).trans (le_max_right _ _)
      · exact (Nat.sub_le _ _).trans (hver.trans (le_max_right _ _))
      · exact hver.trans (le_max_right _ _)
    · rcases (plan.mem_nodeKeys_copyBack hs).1 hk with rfl | rfl | rfl
      · exact le_max_right _ _
      · split
        · exact le_max_right _ _
        · exact Nat.zero_le _
      · exact le_max_left _ _
  · obtain ⟨c, -, rfl⟩ := plan.mem_terminalOutputs.1 hk
    split
    · exact le_max_left _ _
    · exact le_max_right _ _

/-- **All versions of a written chunk are in use**, when every instruction runs in
the world: its writes have versions one to the last, and the first of them
replaces version zero. -/
theorem versions_active (hranks : RanksInWorld env program worldSize) {base : BaseKey} {v : ℕ}
    (hw : 0 < plan.finalVersion base) (hv : v ≤ plan.finalVersion base) :
    ∃ rank < worldSize, (⟨base, v⟩ : ProgressKey) ∈ (plan.graph env rank).activeProgressKeys := by
  have hnode : ∀ {a : Assignment}, a ∈ plan.assignments → ∀ {k : ProgressKey},
      (k = ⟨a.output.base, a.output.version - 1⟩ ∨ k = a.output) →
      ∃ rank < worldSize, k ∈ (plan.graph env rank).activeProgressKeys := by
    intro a ha k hk
    obtain ⟨rank, hrank, hr⟩ := plan.exists_executionRank hranks ha
    exact ⟨rank, hrank, plan.mem_activeKeys.2 (Or.inr (Or.inl
      ⟨_, plan.mem_nodes_iff.2 (Or.inl ⟨a, ha, hr, rfl⟩),
        (plan.mem_nodeKeys_instNode ha).2 (Or.inr hk)⟩))⟩
  rcases Nat.eq_zero_or_pos v with rfl | hpos
  · obtain ⟨a, ha, hout⟩ := plan.exists_producer Nat.one_pos hw
    exact hnode ha (Or.inl (by simp [hout]))
  · obtain ⟨a, ha, hout⟩ := plan.exists_producer hpos hv
    exact hnode ha (Or.inr hout.symm)

/-! ## The reader table -/

/-- The reader ids of an assignment are those `assignReaders` hands out. -/
theorem assignAll_readers {insts : List Instruction} {st st' : PassState} {as : List Assignment}
    (h : assignAll graphOptions program worldSize st insts = .ok (as, st')) :
    ∀ a ∈ as, ∃ keys counts counts',
      assignReaders a.inst a.output 0 counts keys = .ok (a.inputs, counts') := by
  induction insts generalizing st as with
  | nil => cases h; simp
  | cons inst insts ih =>
    obtain ⟨a, st1, rest, h1, h2, rfl⟩ := assignAll_cons_ok h
    cases a with
    | none => exact ih h2
    | some a =>
      simp only [Option.toList_some, List.singleton_append, List.forall_mem_cons]
      refine ⟨?_, ih h2⟩
      rw [assignInstruction] at h1
      split at h1
      · cases h1
      · next base hbase =>
        generalize latestAll graphOptions program worldSize st.latestByBase
          (inputBases graphOptions program worldSize inst) = all at h1
        obtain ⟨keys, map⟩ := all
        cases hr : assignReaders inst ⟨base, (produce map base).1⟩ 0 st.readerCounts keys with
        | error e => simp only [hr] at h1; cases h1
        | ok r =>
          simp only [hr] at h1
          cases h1
          exact ⟨keys, _, _, hr⟩

/-- A reduce's first operand has a reader id, its own destination has none. -/
theorem assignReaders_reduce {inst : Instruction} {output k k' : ProgressKey}
    {counts counts' : ReaderCounts} {inputs : List ReaderInput} (hop : inst.op = .d2dReduce)
    (hbase : k'.base = output.base)
    (h : assignReaders inst output 0 counts [k, k'] = .ok (inputs, counts')) :
    ∃ id, inputs = [⟨k, some id⟩, ⟨k', none⟩] := by
  simp only [assignReaders, hop, hbase, Nat.zero_add, and_self, if_true, zero_ne_one, false_and,
    and_false, if_false] at h
  split at h
  · cases h
  · cases h
    exact ⟨_, rfl⟩

/-- **What an assignment counts as read.** -/
theorem counted_bases {a : Assignment} (ha : a ∈ plan.assignments) :
    (a.inputs.filter fun input => input.readerId.isSome).map (·.key.base) =
      sourceBases graphOptions program worldSize a.inst := by
  obtain ⟨mid, post, -, hat⟩ := plan.assignedFrom.exists_split ha
  rw [sourceBases]
  split
  · next hop =>
    obtain ⟨keys, counts, counts', hr⟩ := assignAll_readers plan.pass_eq a ha
    have hkeys := (assignReaders_spec hr).keys_eq
    rw [hat.inputs] at hkeys
    have hout := hat.produced
    simp only [producedBase, hop, Option.some.injEq] at hout
    simp only [inputBases, hop, List.map_cons, List.map_nil] at hkeys ⊢
    rw [← hkeys] at hr
    obtain ⟨id, hin⟩ := assignReaders_reduce hop hout hr
    simp [hin]
  · next hop =>
    have hall : ∀ input ∈ a.inputs, input.readerId.isSome = true := by
      intro input hin
      by_contra hnone
      rw [Bool.not_eq_true, Option.isSome_eq_false_iff, Option.isNone_iff_eq_none] at hnone
      exact hop (plan.base_eq_of_readerId_none ha hin hnone).1
    have hmap := congrArg (List.map ProgressKey.base) hat.inputs
    rw [List.map_map, List.map_map, Function.comp_def, Function.comp_def, List.map_id'] at hmap
    rw [List.filter_eq_self.2 hall, hmap]

/-- **The chunks of the reader table** are those that instructions of any rank
read. -/
theorem bases_readerAssignment {base : BaseKey} :
    (∃ k ∈ (plan.graph env rank).readerAssignment.map (·.key), k.base = base) ↔
      ∃ inst ∈ program.allInstructions, inst.op ≠ .nop ∧
        base ∈ sourceBases graphOptions program worldSize inst := by
  have hmem : ∀ k, k ∈ (plan.graph env rank).readerAssignment.map (·.key) ↔
      ∃ a ∈ plan.assignments, ∃ input ∈ a.inputs, input.key = k ∧ input.readerId.isSome = true := by
    intro k
    have htouched : k ∈ (plan.graph env rank).readerAssignment.map (·.key) ↔
        0 < plan.numReaders k := by
      rw [show (plan.graph env rank).readerAssignment = readerAssignmentOf
        (ringChunk env program (graphOptions.legacyLayout.chunkSize program))
          plan.final.readerCounts from rfl]
      simp only [readerAssignmentOf, List.map_map, Function.comp_def, List.map_id',
        (List.perm_insertionSort _ _).mem_iff, plan.readerCounts_valid.mem_touched]
      rfl
    rw [htouched]
    constructor
    · intro hpos
      have hid : 0 ∈ readerIds plan.assignments k := by
        rw [plan.readerIds_eq]
        exact List.mem_range.2 hpos
      obtain ⟨a, ha, input, hin, hk, hid⟩ := mem_readerIds.1 hid
      exact ⟨a, ha, input, hin, hk, by simp [hid]⟩
    · rintro ⟨a, ha, input, hin, hk, hsome⟩
      obtain ⟨id, hid⟩ := Option.isSome_iff_exists.1 hsome
      have hmem := mem_readerIds.2 ⟨a, ha, input, hin, hk, hid⟩
      rw [plan.readerIds_eq] at hmem
      exact Nat.zero_lt_of_lt (List.mem_range.1 hmem)
  constructor
  · rintro ⟨k, hk, rfl⟩
    obtain ⟨a, ha, input, hin, rfl, hsome⟩ := (hmem k).1 hk
    refine ⟨a.inst, plan.inst_mem ha, plan.op_ne_nop ha, ?_⟩
    rw [← plan.counted_bases ha]
    exact List.mem_map_of_mem (List.mem_filter.2 ⟨hin, hsome⟩)
  · rintro ⟨inst, hinst, hop, hb⟩
    obtain ⟨a, ha, rfl⟩ := plan.exists_assignment hinst hop
    rw [← plan.counted_bases ha, List.mem_map] at hb
    obtain ⟨input, hin, rfl⟩ := hb
    obtain ⟨hin, hsome⟩ := List.mem_filter.1 hin
    exact ⟨input.key, (hmem _).2 ⟨a, ha, input, hin, rfl, hsome⟩, rfl⟩

end Plan

end

end Compiler
end HyLink
