import Mathlib.Data.List.Perm.Basic
import Mathlib.Data.List.Perm.Subperm
import Mathlib.Data.List.Nodup
import HyLink.Compiler.Plan

/-!
# The nodes of a compiled graph

What the executors rely on: every node is the instance of an assignment the rank
executes or the copy-back of a chunk it stages; no two nodes of any two ranks
write the same chunk version, and no two of them advance the same reader cursor.

* `Plan.mem_nodes_iff` — the two kinds of nodes.
* `Plan.node_output_injective` — one producer per chunk version.
* `Plan.node_reader_injective` — one node per reader cursor.
-/

namespace HyLink
namespace Compiler

open Ir

/-! ## Splitting a list by a bounded index -/

section

variable {α : Type} (f : α → ℕ) (l : List α)

theorem perm_flatMap_filter_lt (n : ℕ) :
    ((List.range n).flatMap fun c => l.filter fun x => f x == c).Perm
      (l.filter fun x => decide (f x < n)) := by
  induction n with
  | zero => simp
  | succ n ih =>
    rw [List.range_succ, List.flatMap_append]
    refine (ih.append_right _).trans ?_
    have h := List.filter_append_perm (fun x => decide (f x < n))
      (l.filter fun x => decide (f x < n + 1))
    rw [List.filter_filter, List.filter_filter] at h
    simp only [List.flatMap_cons, List.flatMap_nil, List.append_nil]
    have h1 : (l.filter fun x => decide (f x < n)) =
        l.filter fun a => decide (f a < n) && decide (f a < n + 1) :=
      List.filter_congr fun x _ => by
        rw [Bool.eq_iff_iff, Bool.and_eq_true, decide_eq_true_iff, decide_eq_true_iff]
        exact ⟨fun hx => ⟨hx, hx.trans (Nat.lt_succ_self n)⟩, And.left⟩
    have h2 : (l.filter fun x => f x == n) =
        l.filter fun a => !decide (f a < n) && decide (f a < n + 1) :=
      List.filter_congr fun x _ => by
        rw [Bool.eq_iff_iff, Bool.and_eq_true, Bool.not_eq_true', decide_eq_false_iff_not,
          decide_eq_true_iff, beq_iff_eq]
        omega
    rw [h1, h2]
    exact h

/-- The parts of a list by an index below `n`, one after the other, are a
permutation of the list. -/
theorem perm_flatMap_filter {n : ℕ} (h : ∀ x ∈ l, f x < n) :
    ((List.range n).flatMap fun c => l.filter fun x => f x == c).Perm l := by
  have := perm_flatMap_filter_lt f l n
  rwa [List.filter_eq_self.2 (by simpa using h)] at this

end

theorem nodeScheduleClass_lt (node : InstructionNode) : nodeScheduleClass node < 7 := by
  unfold nodeScheduleClass
  split_ifs <;> omega

theorem stableSortByClass_perm (nodes : List InstructionNode) :
    (stableSortByClass nodes).Perm nodes :=
  perm_flatMap_filter nodeScheduleClass nodes fun node _ => nodeScheduleClass_lt node

/-- Every instruction that does something runs on a rank of the world. -/
def RanksInWorld (env : Env) (program : IRProgram) (worldSize : ℕ) : Prop :=
  ∀ inst ∈ program.allInstructions, inst.op ≠ .nop →
    0 ≤ executionRank env inst ∧ executionRank env inst < worldSize

instance (env : Env) (program : IRProgram) (worldSize : ℕ) :
    Decidable (RanksInWorld env program worldSize) := by
  unfold RanksInWorld; infer_instance

namespace Plan

variable {graphOptions : GraphCompileOptions} {program : IRProgram} {worldSize : ℕ}
variable (plan : Plan graphOptions program worldSize) {env : Env}

theorem nodes_perm (env : Env) (rank : ℕ) :
    (plan.graph env rank).nodes.Perm (plan.unsortedNodes env rank) := by
  simp only [graph]
  split
  · exact stableSortByClass_perm _
  · exact List.Perm.refl _

/-- The instance of assignment `a` on a rank. -/
def instNode (_ : Plan graphOptions program worldSize) (env : Env) (rank : ℕ) (a : Assignment) :
    InstructionNode :=
  instantiateNode env graphOptions program (maxInputChunkCount program rank) a

/-- The copy-back of staged chunk `c` of a rank. -/
def copyBack (rank c : ℕ) : InstructionNode :=
  copyBackNode graphOptions program worldSize plan.final.latestByBase rank
    (maxInputChunkCount program rank) c

/-- **The two kinds of nodes.** -/
theorem mem_nodes_iff {rank : ℕ} {n : InstructionNode} :
    n ∈ (plan.graph env rank).nodes ↔
      (∃ a ∈ plan.assignments, executionRank env a.inst = rank ∧
        n = plan.instNode env rank a) ∨
      ∃ c < program.outputChunkCount,
        stageOutputChunk graphOptions program worldSize rank c = true ∧
        n = plan.copyBack rank c := by
  rw [(plan.nodes_perm env rank).mem_iff]
  simp only [unsortedNodes, List.mem_append, List.mem_map, List.mem_filter, decide_eq_true_eq,
    stagedChunks, List.mem_range, instNode, copyBack]
  constructor
  · rintro (⟨a, ⟨ha, hr⟩, rfl⟩ | ⟨c, ⟨hc, hs⟩, rfl⟩)
    · exact Or.inl ⟨a, ha, hr, rfl⟩
    · exact Or.inr ⟨c, hc, hs, rfl⟩
  · rintro (⟨a, ha, hr, rfl⟩ | ⟨c, hc, hs, rfl⟩)
    · exact Or.inl ⟨a, ⟨ha, hr⟩, rfl⟩
    · exact Or.inr ⟨c, ⟨hc, hs⟩, rfl⟩

/-! ## Staged chunks -/

/-- Every write of a staged output chunk goes to `INTERNAL`. -/
theorem producedBase_ne_of_staged {inst : Instruction} {r c : ℤ}
    (hs : stageOutputChunk graphOptions program worldSize r c = true) :
    producedBase graphOptions program worldSize inst ≠ some (deviceKey .output r c) := by
  intro h
  simp only [producedBase] at h
  split at h <;> simp only [Option.some.injEq, reduceCtorEq, hostKey_ne_deviceKey,
    deviceKey_inj] at h
  all_goals
    obtain ⟨hbuf, rfl, rfl⟩ := h
    exact visibleBuf_ne_output hs _ hbuf

theorem finalVersion_staged {r c : ℤ}
    (hs : stageOutputChunk graphOptions program worldSize r c = true) :
    producedVersions graphOptions program worldSize program.allInstructions
      (deviceKey .output r c) = 0 := by
  rw [producedVersions, List.countP_eq_zero]
  intro inst _
  simpa using producedBase_ne_of_staged hs

theorem latestVersion_eq (base : BaseKey) :
    latestVersion graphOptions program worldSize plan.final.latestByBase base =
      ⟨base, plan.finalVersion base⟩ := by
  rw [latestVersion, latest_fst plan.latestInvariant, readVersion, finalVersion]
  split
  · rfl
  · next h0 => split <;> simp [Nat.eq_zero_of_not_pos h0]

/-- A copy-back writes version one of an output chunk nobody else writes. -/
theorem copyBack_output {rank c : ℕ}
    (hs : stageOutputChunk graphOptions program worldSize rank c = true) :
    (plan.copyBack rank c).output = ⟨deviceKey .output rank c, 1⟩ := by
  simp only [copyBack, copyBackNode, visibleOutput, latestVersion_eq]
  rw [produce_fst (latest_snd plan.latestInvariant _), finalVersion_staged hs]

theorem copyBack_input (rank c : ℕ) : (plan.copyBack rank c).inputs =
    [⟨⟨deviceKey .internal rank c, plan.finalVersion (deviceKey .internal rank c)⟩,
      none, false⟩] := by
  simp [copyBack, copyBackNode, latestVersion_eq]

theorem copyBack_guard {rank c : ℕ}
    (hs : stageOutputChunk graphOptions program worldSize rank c = true) :
    (plan.copyBack rank c).overwriteGuard = some
      (if graphOptions.legacyLayout.inPlaceAliasMode = .sameBase ∧
          c < maxInputChunkCount program rank then
        ⟨deviceKey .input rank c, plan.finalVersion (deviceKey .input rank c)⟩
      else ⟨deviceKey .output rank c, 0⟩) := by
  simp only [copyBack, copyBackNode, visibleOutput, latestVersion_eq, finalVersion,
    finalVersion_staged hs]

theorem instNode_guard {rank : ℕ} {a : Assignment} (ha : a ∈ plan.assignments) :
    (plan.instNode env rank a).overwriteGuard =
      some ⟨a.output.base, a.output.version - 1⟩ := by
  obtain ⟨hold, hpos⟩ := plan.oldOutput_eq ha
  have : a.output.version - 1 ≠ a.output.version := by omega
  simp [instNode, instantiateNode, hold, this]

/-! ## Producers -/

theorem nodup_instOutputs (env : Env) (rank : ℕ) :
    ((plan.unsortedNodes env rank).map (·.output)).Nodup := by
  simp only [unsortedNodes, List.map_append, List.map_map]
  refine List.Nodup.append ?_ ?_ ?_
  · exact (plan.nodup_outputs.sublist (List.filter_sublist.map _))
  · refine List.Nodup.map_on ?_ (List.nodup_range.filter _)
    intro c hc c' hc' heq
    simp only [stagedChunks, List.mem_filter, List.mem_range] at hc hc'
    have h1 := plan.copyBack_output hc.2
    have h2 := plan.copyBack_output hc'.2
    simp only [copyBack] at h1 h2
    simp only [Function.comp_apply, h1, h2, ProgressKey.mk.injEq, deviceKey, BaseKey.mk.injEq,
      Nat.cast_inj] at heq
    exact heq.1.2.2
  · intro k hk hk'
    simp only [List.mem_map, List.mem_filter, Function.comp_apply, stagedChunks] at hk hk'
    obtain ⟨a, ⟨ha, -⟩, rfl⟩ := hk
    obtain ⟨c, ⟨-, hs⟩, hout⟩ := hk'
    have h1 := plan.copyBack_output hs
    simp only [copyBack] at h1
    obtain ⟨mid, post, -, hat⟩ := plan.assignedFrom.exists_split ha
    have hbase : a.output = ⟨deviceKey .output rank c, 1⟩ := hout.symm.trans h1
    have hproduced := hat.produced
    rw [hbase] at hproduced
    exact producedBase_ne_of_staged hs hproduced

/-- The node at position `i` of a rank. -/
def Node (env : Env) (rank i : ℕ) (n : InstructionNode) : Prop :=
  (plan.graph env rank).nodes[i]? = some n

theorem Node.mem {rank i : ℕ} {n : InstructionNode} (h : plan.Node env rank i n) :
    n ∈ (plan.graph env rank).nodes := List.mem_of_getElem? h

theorem Node.rank_eq {rank rank' : ℕ} {n n' : InstructionNode}
    (hn : n ∈ (plan.graph env rank).nodes) (hn' : n' ∈ (plan.graph env rank').nodes)
    (h : n.output = n'.output) : rank = rank' := by
  rw [plan.mem_nodes_iff] at hn hn'
  rcases hn with ⟨a, ha, hr, rfl⟩ | ⟨c, -, hs, rfl⟩ <;>
    rcases hn' with ⟨a', ha', hr', rfl⟩ | ⟨c', -, hs', rfl⟩
  · have haa : a = a' := plan.output_injective ha ha' h
    subst haa
    exact Nat.cast_inj.1 (hr.symm.trans hr')
  · obtain ⟨mid, post, -, hat⟩ := plan.assignedFrom.exists_split ha
    rw [plan.copyBack_output hs'] at h
    have hproduced := hat.produced
    rw [show a.output = _ from h] at hproduced
    exact absurd hproduced (producedBase_ne_of_staged hs')
  · obtain ⟨mid, post, -, hat⟩ := plan.assignedFrom.exists_split ha'
    rw [plan.copyBack_output hs] at h
    have hproduced := hat.produced
    rw [show a'.output = _ from h.symm] at hproduced
    exact absurd hproduced (producedBase_ne_of_staged hs)
  · rw [plan.copyBack_output hs, plan.copyBack_output hs'] at h
    simp only [ProgressKey.mk.injEq, deviceKey, BaseKey.mk.injEq, Nat.cast_inj] at h
    exact h.1.2.1

theorem nodup_nodeOutputs (env : Env) (rank : ℕ) :
    ((plan.graph env rank).nodes.map (·.output)).Nodup :=
  ((plan.nodes_perm env rank).map _).nodup_iff.2 (plan.nodup_instOutputs env rank)

/-- **One producer.**  Two nodes of the world that write the same chunk version
are the same node. -/
theorem node_output_injective {rank rank' i i' : ℕ} {n n' : InstructionNode}
    (hn : plan.Node env rank i n) (hn' : plan.Node env rank' i' n')
    (h : n.output = n'.output) : rank = rank' ∧ i = i' := by
  have hrank := Node.rank_eq plan hn.mem hn'.mem h
  subst hrank
  refine ⟨rfl, ?_⟩
  obtain ⟨hi, hni⟩ := List.getElem?_eq_some_iff.1 hn
  obtain ⟨hi', hni'⟩ := List.getElem?_eq_some_iff.1 hn'
  have hnodup := plan.nodup_nodeOutputs env rank
  rw [List.Nodup, List.pairwise_map] at hnodup
  by_contra hne
  rcases Nat.lt_or_gt_of_ne hne with hlt | hlt
  · have := List.pairwise_iff_getElem.1 hnodup i i' hi hi' hlt
    rw [hni, hni'] at this
    exact this h
  · have := List.pairwise_iff_getElem.1 hnodup i' i hi' hi hlt
    rw [hni, hni'] at this
    exact this h.symm

/-! ## Readers -/

theorem mem_readerIds {as : List Assignment} {key : ProgressKey} {id : ℕ} :
    id ∈ readerIds as key ↔ ∃ a ∈ as, ∃ input ∈ a.inputs,
      input.key = key ∧ input.readerId = some id := by
  simp only [readerIds, inputIds, List.mem_flatMap, List.mem_filterMap, List.mem_filter,
    decide_eq_true_eq]
  constructor
  · rintro ⟨a, ha, input, ⟨hin, hk⟩, hid⟩
    exact ⟨a, ha, input, hin, hk, hid⟩
  · rintro ⟨a, ha, input, hin, hk, hid⟩
    exact ⟨a, ha, input, ⟨hin, hk⟩, hid⟩

/-- Two assignments never share a reader cursor. -/
theorem reader_injective {a a' : Assignment} (ha : a ∈ plan.assignments)
    (ha' : a' ∈ plan.assignments) {input input' : ReaderInput} (hin : input ∈ a.inputs)
    (hin' : input' ∈ a'.inputs) (hkey : input.key = input'.key) {id : ℕ}
    (hid : input.readerId = some id) (hid' : input'.readerId = some id) : a = a' := by
  have hnodup : (readerIds plan.assignments input.key).Nodup := by
    rw [plan.readerIds_eq]; exact List.nodup_range
  have hpair := (List.nodup_flatMap.1 hnodup).2
  by_contra hne
  have : Std.Symm (Function.onFun List.Disjoint fun a : Assignment =>
      inputIds a.inputs input.key) :=
    ⟨fun _ _ h x hx hx' => h hx' hx⟩
  have hdisj : List.Disjoint (inputIds a.inputs input.key) (inputIds a'.inputs input.key) :=
    hpair.forall ha ha' hne
  refine hdisj (a := id) ?_ ?_
  · exact List.mem_filterMap.2 ⟨input, by simp [hin], hid⟩
  · exact List.mem_filterMap.2 ⟨input', by simp [hin', hkey], hid'⟩

/-- A node input with a reader id comes from an assignment. -/
theorem exists_assignment_of_reader {rank : ℕ} {n : InstructionNode} {x : NodeInput}
    (hn : n ∈ (plan.graph env rank).nodes) (hx : x ∈ n.inputs) {id : ℕ}
    (hid : x.readerId = some id) :
    ∃ a ∈ plan.assignments, executionRank env a.inst = rank ∧
      n = plan.instNode env rank a ∧
      ∃ input ∈ a.inputs, input.key = x.key ∧ input.readerId = some id := by
  rw [plan.mem_nodes_iff] at hn
  rcases hn with ⟨a, ha, hr, rfl⟩ | ⟨c, -, -, rfl⟩
  · simp only [instNode, instantiateNode, List.mem_map] at hx
    obtain ⟨input, hin, rfl⟩ := hx
    exact ⟨a, ha, hr, rfl, input, hin, rfl, hid⟩
  · rw [plan.copyBack_input] at hx
    simp only [List.mem_singleton] at hx
    rw [hx] at hid
    cases hid

/-- **One node per reader cursor.** -/
theorem node_reader_injective {rank rank' i i' : ℕ} {n n' : InstructionNode}
    (hn : plan.Node env rank i n) (hn' : plan.Node env rank' i' n') {x x' : NodeInput}
    (hx : x ∈ n.inputs) (hx' : x' ∈ n'.inputs) (hkey : x.key = x'.key) {id : ℕ}
    (hid : x.readerId = some id) (hid' : x'.readerId = some id) : rank = rank' ∧ i = i' := by
  obtain ⟨a, ha, hr, rfl, input, hin, hk, hi⟩ :=
    plan.exists_assignment_of_reader hn.mem hx hid
  obtain ⟨a', ha', hr', rfl, input', hin', hk', hi'⟩ :=
    plan.exists_assignment_of_reader hn'.mem hx' hid'
  have haa := plan.reader_injective ha ha' hin hin' (hk.trans (hkey.trans hk'.symm)) hi hi'
  subst haa
  have hrank : rank = rank' := Nat.cast_inj.1 (hr.symm.trans hr')
  subst hrank
  exact plan.node_output_injective hn hn' rfl

/-- A node's reader ids are below the number of readers of its input. -/
theorem readerId_lt_numReaders {rank : ℕ} {n : InstructionNode} {x : NodeInput}
    (hn : n ∈ (plan.graph env rank).nodes) (hx : x ∈ n.inputs) {id : ℕ}
    (hid : x.readerId = some id) : id < plan.numReaders x.key := by
  obtain ⟨a, ha, -, -, input, hin, hk, hi⟩ := plan.exists_assignment_of_reader hn hx hid
  have hmem : id ∈ readerIds plan.assignments x.key := mem_readerIds.2 ⟨a, ha, input, hin, hk, hi⟩
  rw [plan.readerIds_eq] at hmem
  exact List.mem_range.1 hmem

theorem op_ne_nop {a : Assignment} (ha : a ∈ plan.assignments) : a.inst.op ≠ .nop := by
  obtain ⟨mid, post, -, hat⟩ := plan.assignedFrom.exists_split ha
  intro hop
  have := hat.produced
  simp [producedBase, hop] at this

theorem inst_mem {a : Assignment} (ha : a ∈ plan.assignments) :
    a.inst ∈ program.allInstructions := by
  obtain ⟨mid, post, hsplit, -⟩ := plan.assignedFrom.exists_split ha
  rw [hsplit]
  simp

theorem exists_executionRank (hranks : RanksInWorld env program worldSize) {a : Assignment}
    (ha : a ∈ plan.assignments) : ∃ rank < worldSize, executionRank env a.inst = rank := by
  obtain ⟨h0, hlt⟩ := hranks a.inst (plan.inst_mem ha) (plan.op_ne_nop ha)
  exact ⟨(executionRank env a.inst).toNat, by omega, by omega⟩

/-- An assignment of a rank of the world has its node. -/
theorem exists_node {rank : ℕ} {a : Assignment} (ha : a ∈ plan.assignments)
    (hr : executionRank env a.inst = rank) :
    ∃ i, plan.Node env rank i (plan.instNode env rank a) :=
  List.getElem?_of_mem (plan.mem_nodes_iff.2 (Or.inl ⟨a, ha, hr, rfl⟩))

/-- When all instructions run in the world, every reader cursor has its node. -/
theorem exists_reader_node (hranks : RanksInWorld env program worldSize) {key : ProgressKey}
    {id : ℕ} (hid : id < plan.numReaders key) :
    ∃ rank < worldSize, ∃ i n, plan.Node env rank i n ∧
      ∃ x ∈ n.inputs, x.key = key ∧ x.readerId = some id := by
  have hmem : id ∈ readerIds plan.assignments key := by
    rw [plan.readerIds_eq]; exact List.mem_range.2 hid
  obtain ⟨a, ha, input, hin, hk, hi⟩ := mem_readerIds.1 hmem
  obtain ⟨rank, hrank, hr⟩ := plan.exists_executionRank hranks ha
  obtain ⟨i, hnode⟩ := plan.exists_node ha hr
  refine ⟨rank, hrank, i, _, hnode, _, List.mem_map_of_mem hin, hk, hi⟩

end Plan

end Compiler
end HyLink
