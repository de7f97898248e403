import HyLink.Api.IrLoader
import HyLink.Executor.Operands
import HyLink.Memory.ProgressSlots

/-!
# Indices of a loaded program

A document names ranks, NUMA nodes and chunks by number.  The loader indexes the topology with
ranks, the compiler its table `host_meta` with NUMA nodes and chunks, the executor the shared
progress arrays with the keys of the graph, and the buffer bindings with their owners.  Every such
index is listed here with the size of its array.

Only the topology is indexed through a check.  The other indices are in bounds just if the numbers
of the document are.

* `graphUses_inBounds` — what a program must satisfy for the compiler and its graph.
* `indices_inBounds_iff` — what a document must satisfy.
-/

namespace HyLink
namespace Api
namespace IndexBounds

open Ir Compiler Executor Memory IrLoader
open IrSelection (LocalTopology)

/-! ## Uses of an index -/

/-- An array element that the code accesses. -/
structure IndexUse where
  index : ℤ
  size : ℕ
  deriving DecidableEq, Repr

def IndexUse.InBounds (u : IndexUse) : Prop := 0 ≤ u.index ∧ u.index < u.size

/-- `[owner][chunk]` of a table with a row for every NUMA node or rank. -/
def chunkUses (base : BaseKey) : List IndexUse :=
  [⟨base.owner, ownersOf base.space⟩, ⟨base.chunk, maxChunks⟩]

/-- `gpu_to_numa[gpu]`, behind the check of `getNUMAForGPU`. -/
def topologyUses (topo : Option LocalTopology) (gpu : ℤ) : List IndexUse :=
  match topo with
  | none => []
  | some topo =>
    if gpu < 0 ∨ (topo.deviceToNuma.length : ℤ) ≤ gpu then []
    else [⟨gpu, topo.deviceToNuma.length⟩]

/-- What `parseDocument` looks up: the NUMA node of the loading rank, then of every rank. -/
def loaderUses (doc : List Element) (rank : ℤ) (topo : Option LocalTopology) : List IndexUse :=
  topologyUses topo rank ++ (rankElements doc).flatMap fun r => topologyUses topo (rankId r)

/-- The chunks that the ring analysis marks in `host_meta`. -/
def hostMarks (inst : Instruction) : List BaseKey :=
  match inst.op with
  | .d2h | .h2h | .h2hReduce => [hostKey inst.dst.numaId inst.dst.chunkIdx]
  | .h2d => [hostKey inst.src.numaId inst.src.chunkIdx]
  | .nop | .d2d | .d2dReduce => []

/-- The host chunks of a list of keys. -/
def hostBases (keys : List ProgressKey) : List BaseKey :=
  (keys.map (·.base)).filter fun base => base.space = .host

/-- `host_meta[numa][chunk]`: the marks, the reader counts and the ring flags. -/
def hostMetaUses (program : IRProgram) (g : CompiledGraph) : List IndexUse :=
  (program.allInstructions.flatMap hostMarks ++
    hostBases (g.readerAssignment.map (·.key)) ++
    hostBases (g.nodes.flatMap fun n => n.inputs.map (·.key) ++ [n.output])).flatMap chunkUses

/-- `numa_nodes[..][owner].chunks[chunk]` and `device_spaces[..][owner].chunks[chunk]`. -/
def progressUses (g : CompiledGraph) : List IndexUse :=
  ((g.activeProgressKeys ++ g.readerAssignment.map (·.key)).map (·.base)).flatMap chunkUses

/-- The keys whose addresses a node resolves. -/
def resolvedKeys (n : InstructionNode) : List ProgressKey :=
  n.output :: (resolvedInputs n).map (·.key)

/-- The element of `host_base` or `device_base` for a key. -/
def ownerUse (k : ProgressKey) : IndexUse := ⟨k.base.owner, ownersOf k.base.space⟩

/-- `host_base[numa]` and `device_base[..][rank]`: filled for every rank of the world, and for the
NUMA nodes that pass a check; read for the operands of every node. -/
def bindingUses (g : CompiledGraph) : List IndexUse :=
  ((List.range g.worldSize).map fun (r : ℕ) => ⟨r, maxRanks⟩) ++
    ((g.activeProgressKeys.map ownerUse).filter fun u => 0 ≤ u.index ∧ u.index < u.size) ++
    (g.nodes.flatMap resolvedKeys).map ownerUse

/-- The uses of the compiler and of the graph it makes. -/
def graphUses (program : IRProgram) (g : CompiledGraph) : List IndexUse :=
  hostMetaUses program g ++ progressUses g ++ bindingUses g

/-- Every index is non-negative and below the size of its array. -/
def IndicesInBounds (doc : List Element) (rank : ℤ) (topo : Option LocalTopology)
    (program : IRProgram) (g : CompiledGraph) : Prop :=
  ∀ u ∈ loaderUses doc rank topo ++ graphUses program g, u.InBounds

/-! ## Numbers that fit -/

/-- A NUMA node with a chunk. -/
def HostFits (a : ChunkAddress) : Prop :=
  0 ≤ a.numaId ∧ a.numaId < maxNumaNodes ∧ 0 ≤ a.chunkIdx ∧ a.chunkIdx < maxChunks

/-- A rank with a chunk. -/
def RankFits (rank chunk : ℤ) : Prop :=
  0 ≤ rank ∧ rank < maxRanks ∧ 0 ≤ chunk ∧ chunk < maxChunks

/-- What an instruction must satisfy on a rank.  The rank of a written device chunk matters only
where the instruction is executed. -/
def InstFits (env : Env) (rank : ℕ) (inst : Instruction) : Prop :=
  match inst.op with
  | .nop => True
  | .d2h => RankFits inst.rank inst.src.chunkIdx ∧ HostFits inst.dst
  | .h2h => HostFits inst.src ∧ HostFits inst.dst
  | .h2hReduce => HostFits inst.src ∧ HostFits inst.src2 ∧ HostFits inst.dst
  | .h2d => HostFits inst.src ∧
      (executionRank env inst = rank → RankFits inst.rank inst.dst.chunkIdx)
  | .d2d | .d2dReduce => RankFits inst.sourceRank inst.src.chunkIdx ∧
      (executionRank env inst = rank → RankFits inst.rank inst.dst.chunkIdx)

/-- What a program must satisfy. -/
structure ProgramFits (env : Env) (program : IRProgram) (worldSize rank : ℕ) : Prop where
  ranks : worldSize ≤ maxRanks
  insts : ∀ inst ∈ program.allInstructions, InstFits env rank inst
  inputs : maxInputChunkCount program rank ≤ maxChunks
  outputs : program.outputChunkCount ≤ maxChunks

/-- The numbers of an instruction element, as `InstFits` has them of the instruction; a chunk of
`OUTPUT` that any rank writes is one of every rank. -/
def ElementFits (env : Env) (rank : ℕ) (topo : Option LocalTopology) (r e : Element) : Prop :=
  let own := rankId r
  let numa := defaultNuma topo own
  let named := e.intAttribute "src_rank" own
  let source := if 0 ≤ named then named else own
  let src := e.address "src_chunk" "src_numa" numa
  let dst := e.address "dst_chunk" "dst_numa" numa
  let deviceDst (executes : Prop) : Prop := (executes → RankFits own dst.chunkIdx) ∧
    (parseDeviceBufferKind (e.attr "dst_buf") .output = .ok .output → dst.chunkIdx < maxChunks)
  match parseOpCode (e.attr "op") with
  | .ok .nop | .error _ => True
  | .ok .d2h => RankFits own src.chunkIdx ∧ HostFits dst
  | .ok .h2h => HostFits src ∧ HostFits dst
  | .ok .h2hReduce => HostFits (e.address "src1_chunk" "src1_numa" numa) ∧
      HostFits (e.address "src2_chunk" "src2_numa" numa) ∧ HostFits dst
  | .ok .h2d => HostFits src ∧ deviceDst (own = rank)
  | .ok .d2d => RankFits source src.chunkIdx ∧
      deviceDst ((if source ≠ own ∧ env.d2dPush = true then source else own) = rank)
  | .ok .d2dReduce => RankFits source src.chunkIdx ∧ deviceDst (own = rank)

/-- What a document must satisfy. -/
def DocumentFits (env : Env) (rank : ℕ) (topo : Option LocalTopology) (doc : List Element) : Prop :=
  ∀ r ∈ rankElements doc, ∀ e ∈ r.childrenNamed "instruction", ElementFits env rank topo r e

instance (a : ChunkAddress) : Decidable (HostFits a) := by unfold HostFits; infer_instance

instance (rank chunk : ℤ) : Decidable (RankFits rank chunk) := by unfold RankFits; infer_instance

instance (env : Env) (rank : ℕ) (topo : Option LocalTopology) (r e : Element) :
    Decidable (ElementFits env rank topo r e) := by
  unfold ElementFits
  cases parseOpCode (e.attr "op") with
  | error _ => exact instDecidableTrue
  | ok op => cases op <;> dsimp only <;> infer_instance

instance (env : Env) (rank : ℕ) (topo : Option LocalTopology) (doc : List Element) :
    Decidable (DocumentFits env rank topo doc) := by unfold DocumentFits; infer_instance

/-! ## Chunks in the arrays -/

theorem chunkUses_inBounds {base : BaseKey} :
    (∀ u ∈ chunkUses base, u.InBounds) ↔ InArrays base := by
  simp [chunkUses, IndexUse.InBounds, InArrays, and_assoc]

theorem flatMap_chunkUses {bases : List BaseKey} :
    (∀ u ∈ bases.flatMap chunkUses, u.InBounds) ↔ ∀ base ∈ bases, InArrays base := by
  simp only [List.mem_flatMap, forall_exists_index, and_imp, ← chunkUses_inBounds]
  exact ⟨fun h base hb u hu => h u base hb hu, fun h u base hb hu => h base hb u hu⟩

theorem inArrays_hostKey {numa chunk : ℤ} :
    InArrays (hostKey numa chunk) ↔ HostFits ⟨numa, chunk⟩ := Iff.rfl

theorem inArrays_deviceKey {kind : DeviceBufferKind} {owner chunk : ℤ} :
    InArrays (deviceKey kind owner chunk) ↔ RankFits owner chunk := by
  cases kind <;> rfl

theorem deviceKey_space_ne {kind : DeviceBufferKind} {owner chunk : ℤ} :
    (deviceKey kind owner chunk).space ≠ .host := by
  cases kind <;> exact nofun

/-- The loader asks the topology only for ranks it has. -/
theorem loaderUses_inBounds (doc : List Element) (rank : ℤ) (topo : Option LocalTopology) :
    ∀ u ∈ loaderUses doc rank topo, u.InBounds := by
  have htopo : ∀ gpu, ∀ u ∈ topologyUses topo gpu, u.InBounds := by
    intro gpu u hu
    unfold topologyUses at hu
    split at hu
    · cases hu
    · split at hu
      · cases hu
      · next h =>
        push Not at h
        rw [List.mem_singleton] at hu
        subst hu
        exact h
  intro u hu
  simp only [loaderUses, List.mem_append, List.mem_flatMap] at hu
  rcases hu with hu | ⟨r, -, hu⟩
  · exact htopo _ u hu
  · exact htopo _ u hu

/-! ## Programs -/

section

variable {env : Env} {graphOptions : GraphCompileOptions} {program : IRProgram} {worldSize : ℕ}
variable {rank : ℕ}

/-- An instruction fits when the chunks it reads do, and the chunk it writes does if it lies on the
host or the rank executes the instruction. -/
theorem instFits_iff {inst : Instruction} : InstFits env rank inst ↔
    (∀ base ∈ sourceBases graphOptions program worldSize inst, InArrays base) ∧
    ∀ base ∈ producedBase graphOptions program worldSize inst,
      base.space = .host ∨ executionRank env inst = rank → InArrays base := by
  have hhost : ∀ numa chunk, (hostKey numa chunk).space = .host := fun _ _ => rfl
  cases hop : inst.op <;>
    simp [InstFits, sourceBases, inputBases, producedBase, sourceDeviceKey, hop,
      inArrays_deviceKey, inArrays_hostKey, deviceKey_space_ne, hhost, and_assoc]

/-- The marks cover the host chunks that are written. -/
theorem mem_hostMarks_of_produced {inst : Instruction} {base : BaseKey}
    (hb : producedBase graphOptions program worldSize inst = some base)
    (hhost : base.space = .host) : base ∈ hostMarks inst := by
  cases hop : inst.op <;> simp only [producedBase, hop, Option.some.injEq, reduceCtorEq] at hb
  case d2h => simp [hostMarks, hop, hb]
  case h2h => simp [hostMarks, hop, hb]
  case h2hReduce => simp [hostMarks, hop, hb]
  -- the other operations write device chunks
  all_goals
    rw [← hb] at hhost
    exact absurd hhost deviceKey_space_ne

/-- A marked chunk is one the instruction reads or writes. -/
theorem instBases_of_hostMarks {inst : Instruction} {base : BaseKey} (hb : base ∈ hostMarks inst) :
    base ∈ sourceBases graphOptions program worldSize inst ∨
      producedBase graphOptions program worldSize inst = some base ∧ base.space = .host := by
  cases hop : inst.op <;> simp only [hostMarks, hop, List.mem_singleton, List.not_mem_nil] at hb
  case h2d => simp [sourceBases, inputBases, hop, hb]
  all_goals
    rw [hb]
    exact Or.inr ⟨by simp [producedBase, hop], rfl⟩

/-- What an instruction reads without being counted as a reader, it writes. -/
theorem source_or_produced {inst : Instruction} {base : BaseKey}
    (hb : base ∈ inputBases graphOptions program worldSize inst) :
    base ∈ sourceBases graphOptions program worldSize inst ∨
      producedBase graphOptions program worldSize inst = some base := by
  by_cases hop : inst.op = .d2dReduce
  · simp only [inputBases, hop, List.mem_cons, List.not_mem_nil, or_false] at hb
    rcases hb with rfl | rfl
    · exact Or.inl (by simp [sourceBases, inputBases, hop])
    · exact Or.inr (by simp [producedBase, hop])
  · exact Or.inl (by rw [sourceBases, if_neg hop]; exact hb)

theorem mem_hostBases {keys : List ProgressKey} {base : BaseKey} :
    base ∈ hostBases keys ↔ (∃ k ∈ keys, k.base = base) ∧ base.space = .host := by
  simp [hostBases]

/-- The node's operands are among its keys. -/
theorem mem_nodeKeys_of_resolved {n : InstructionNode} {k : ProgressKey}
    (hk : k ∈ resolvedKeys n) : k ∈ nodeKeys n := by
  simp only [resolvedKeys, List.mem_cons, List.mem_map] at hk
  simp only [nodeKeys, List.mem_append, List.mem_map, List.mem_singleton]
  rcases hk with rfl | ⟨x, hx, rfl⟩
  · exact Or.inr rfl
  · exact Or.inl (Or.inl ⟨x, List.mem_of_mem_take hx, rfl⟩)

/-- The uses of a graph whose nodes touch only active keys, by what they index. -/
theorem graphUses_iff {g : CompiledGraph}
    (hnodes : ∀ n ∈ g.nodes, ∀ k ∈ nodeKeys n, k ∈ g.activeProgressKeys) :
    (∀ u ∈ graphUses program g, u.InBounds) ↔
      (∀ inst ∈ program.allInstructions, ∀ base ∈ hostMarks inst, InArrays base) ∧
      (∀ k ∈ g.readerAssignment.map (·.key), InArrays k.base) ∧
      (∀ k ∈ g.activeProgressKeys, InArrays k.base) ∧ g.worldSize ≤ maxRanks := by
  have hmeta : (∀ u ∈ hostMetaUses program g, u.InBounds) ↔
      (∀ inst ∈ program.allInstructions, ∀ base ∈ hostMarks inst, InArrays base) ∧
      (∀ base ∈ hostBases (g.readerAssignment.map (·.key)), InArrays base) ∧
      ∀ base ∈ hostBases (g.nodes.flatMap fun n => n.inputs.map (·.key) ++ [n.output]),
        InArrays base := by
    rw [hostMetaUses, flatMap_chunkUses]
    simp only [List.forall_mem_append, and_assoc, List.mem_flatMap, forall_exists_index,
      and_imp]
    exact and_congr_left' ⟨fun h inst hi base hb => h base inst hi hb,
      fun h base inst hi hb => h inst hi base hb⟩
  have hprogress : (∀ u ∈ progressUses g, u.InBounds) ↔
      (∀ k ∈ g.activeProgressKeys, InArrays k.base) ∧
      ∀ k ∈ g.readerAssignment.map (·.key), InArrays k.base := by
    rw [progressUses, flatMap_chunkUses, List.forall_mem_map, List.forall_mem_append]
  rw [graphUses, List.forall_mem_append, List.forall_mem_append, hmeta, hprogress]
  constructor
  · rintro ⟨⟨⟨hmarks, -, -⟩, hactive, hreaders⟩, hbinding⟩
    refine ⟨hmarks, hreaders, hactive, ?_⟩
    by_contra hlt
    have hu := hbinding ⟨((g.worldSize - 1 : ℕ) : ℤ), maxRanks⟩
      (List.mem_append_left _ (List.mem_append_left _ (List.mem_map.2
        ⟨g.worldSize - 1, List.mem_range.2 (by omega), rfl⟩)))
    have := hu.2
    simp only at this
    omega
  · rintro ⟨hmarks, hreaders, hactive, hworld⟩
    have howner : ∀ k ∈ g.activeProgressKeys, (ownerUse k).InBounds := fun k hk =>
      ⟨(hactive k hk).1, (hactive k hk).2.1⟩
    refine ⟨⟨⟨hmarks, fun base hb => ?_, fun base hb => ?_⟩, hactive, hreaders⟩, fun u hu => ?_⟩
    · obtain ⟨⟨k, hk, rfl⟩, -⟩ := mem_hostBases.1 hb
      exact hreaders k hk
    · obtain ⟨⟨k, hk, rfl⟩, -⟩ := mem_hostBases.1 hb
      obtain ⟨n, hn, hk⟩ := List.mem_flatMap.1 hk
      refine hactive k (hnodes n hn k ?_)
      simp only [List.mem_append, List.mem_singleton] at hk
      simp only [nodeKeys, List.mem_append, List.mem_singleton]
      exact hk.imp_left Or.inl
    · simp only [bindingUses, List.mem_append, List.mem_map, List.mem_range, List.mem_filter,
        List.mem_flatMap] at hu
      rcases hu with (⟨r, hr, rfl⟩ | ⟨-, hu⟩) | ⟨k, ⟨n, hn, hk⟩, rfl⟩
      · exact ⟨Int.natCast_nonneg r, Int.ofNat_lt.2 (lt_of_lt_of_le hr hworld)⟩
      · simpa [IndexUse.InBounds] using hu
      · exact howner k (hnodes n hn k (mem_nodeKeys_of_resolved hk))

/-- **Programs.**  The compiler and the graph of a rank index within bounds just if the program
fits. -/
theorem graphUses_inBounds (plan : Plan graphOptions program worldSize) (hrank : rank < worldSize) :
    (∀ u ∈ graphUses program (plan.graph env rank), u.InBounds) ↔
      ProgramFits env program worldSize rank := by
  have hnodes : ∀ n ∈ (plan.graph env rank).nodes, ∀ k ∈ nodeKeys n,
      k ∈ (plan.graph env rank).activeProgressKeys :=
    fun n hn k hk => plan.mem_activeKeys.2 (Or.inr (Or.inl ⟨n, hn, hk⟩))
  rw [graphUses_iff hnodes]
  constructor
  · rintro ⟨hmarks, hreaders, hactive, hworld⟩
    have hbase : ∀ base ∈ rankBases env graphOptions program worldSize rank, InArrays base := by
      intro base hb
      obtain ⟨k, hk, rfl⟩ := plan.bases_active.2 hb
      exact hactive k hk
    have hsource : ∀ inst ∈ program.allInstructions, inst.op ≠ .nop →
        ∀ base ∈ sourceBases graphOptions program worldSize inst, InArrays base := by
      intro inst hi hop base hb
      obtain ⟨k, hk, rfl⟩ := plan.bases_readerAssignment.2 ⟨inst, hi, hop, hb⟩
      exact hreaders k hk
    refine ⟨hworld, fun inst hi => ?_, ?_, ?_⟩
    · by_cases hop : inst.op = .nop
      · simp [InstFits, hop]
      · refine instFits_iff.2 ⟨hsource inst hi hop, fun base hb hwhere => ?_⟩
        rcases hwhere with hhost | hexec
        · exact hmarks inst hi base (mem_hostMarks_of_produced hb hhost)
        · exact hbase base (mem_rankBases.2 (Or.inl
            ⟨inst, hi, hop, hexec, mem_instBases.2 (Or.inr hb)⟩))
    · by_contra hlt
      have hlast := hbase _ (mem_rankBases.2 (Or.inr (mem_ownBases.2 (Or.inl
        ⟨maxInputChunkCount program rank - 1, by omega, rfl⟩))))
      have := (inArrays_deviceKey.1 hlast).2.2.2
      omega
    · by_contra hlt
      have hlast := hbase _ (mem_rankBases.2 (Or.inr (mem_ownBases.2 (Or.inr (Or.inl
        ⟨program.outputChunkCount - 1, by omega, rfl⟩)))))
      have := (inArrays_deviceKey.1 hlast).2.2.2
      omega
  · rintro ⟨hworld, hinsts, hinputs, houtputs⟩
    have hown : ∀ kind (c : ℕ), c < maxChunks → InArrays (deviceKey kind rank c) := by
      intro kind c hc
      rw [inArrays_deviceKey, RankFits]
      omega
    have hread : ∀ inst ∈ program.allInstructions,
        ∀ base ∈ sourceBases graphOptions program worldSize inst, InArrays base :=
      fun inst hi => (instFits_iff.1 (hinsts inst hi)).1
    have hwrite : ∀ inst ∈ program.allInstructions,
        ∀ base ∈ producedBase graphOptions program worldSize inst,
          base.space = .host ∨ executionRank env inst = rank → InArrays base :=
      fun inst hi => (instFits_iff.1 (hinsts inst hi)).2
    refine ⟨fun inst hi base hb => ?_, fun k hk => ?_, fun k hk => ?_, hworld⟩
    · rcases instBases_of_hostMarks hb with hb | ⟨hb, hhost⟩
      · exact hread inst hi base hb
      · exact hwrite inst hi base hb (Or.inl hhost)
    · obtain ⟨inst, hi, -, hb⟩ := plan.bases_readerAssignment.1 ⟨k, hk, rfl⟩
      exact hread inst hi _ hb
    · have hb := plan.bases_active.1 ⟨k, hk, rfl⟩
      rcases mem_rankBases.1 hb with ⟨inst, hi, -, hexec, hb⟩ | hb
      · rcases mem_instBases.1 hb with hb | hb
        · rcases source_or_produced hb with hb | hb
          · exact hread inst hi _ hb
          · exact hwrite inst hi _ hb (Or.inr hexec)
        · exact hwrite inst hi _ hb (Or.inr hexec)
      · rcases mem_ownBases.1 hb with ⟨c, hc, heq⟩ | ⟨c, hc, heq⟩ | ⟨c, hc, -, heq⟩
        · rw [← heq]
          exact hown _ c (by omega)
        · rw [← heq]
          exact hown _ c (by omega)
        · rw [← heq]
          exact hown _ c (by omega)

end

/-! ## Documents -/

section

variable {env : Env} {rank : ℕ} {topo : Option LocalTopology} {program : IRProgram}

/-- The numbers of an element are those of its instruction. -/
theorem elementFits_iff {r e : Element} {inst : Instruction}
    (h : parseInstructionCommon e (rankId r) (defaultNuma topo (rankId r)) = .ok inst) :
    ElementFits env rank topo r e ↔
      InstFits env rank inst ∧ (writesOutput inst → inst.dst.chunkIdx < maxChunks) := by
  rw [parseInstructionCommon] at h
  obtain ⟨op, hop, h⟩ := bind_eq_ok.1 h
  obtain ⟨srcBuf, -, h⟩ := bind_eq_ok.1 h
  obtain ⟨dstBuf, hdst, h⟩ := bind_eq_ok.1 h
  cases h
  rw [ElementFits, hop, hdst]
  cases op <;>
    simp [InstFits, writesOutput, executionRank, Instruction.sourceRank, and_assoc]

/-- The chunks of the rank's `INPUT` buffer are chunks that instructions read. -/
theorem maxInputChunkCount_le {doc : List Element} {loading : ℤ}
    (hload : parseDocument doc loading topo = .ok program)
    (h : ∀ inst ∈ program.allInstructions, InstFits env rank inst) :
    maxInputChunkCount program rank ≤ maxChunks := by
  have hfold : ∀ (insts : List Instruction) (count : ℕ), count ≤ maxChunks →
      (∀ inst ∈ insts, InstFits env rank inst) →
      insts.foldl (fun count inst =>
        if (inst.op = .d2d ∨ inst.op = .d2dReduce) ∧ inst.srcBuf = .input ∧
            inst.srcRank = (rank : ℤ)
        then max count (inst.src.chunkIdx + 1).toNat else count) count ≤ maxChunks := by
    intro insts
    induction insts with
    | nil => intro count hcount _; exact hcount
    | cons inst insts ih =>
      intro count hcount hall
      rw [List.foldl_cons]
      refine ih _ ?_ fun i hi => hall i (List.mem_cons_of_mem _ hi)
      split
      · next hread =>
        have hfit := hall inst List.mem_cons_self
        have hchunk : inst.src.chunkIdx < maxChunks := by
          rcases hread.1 with hop | hop <;> simp only [InstFits, hop] at hfit <;>
            exact hfit.1.2.2.2
        exact max_le hcount (by omega)
      · exact hcount
  refine hfold _ _ ((inputChunkCount_le_iff hload).2 fun inst hi hread => ?_) h
  have hfit := h inst hi
  rcases hread.1 with hop | hop | hop <;> simp only [InstFits, hop] at hfit <;>
    exact hfit.1.2.2.2

end

/-- One rank copies its chunk to a host chunk. -/
def stagingDocument (chunk : String) : List Element :=
  [.mk "ir_program" [("name", "staging")] [.mk "rank" [("id", "0")]
    [.mk "instruction" [("op", "D2H"), ("src_chunk", "0"), ("dst_chunk", chunk)] []]]]

/-- What the loader makes of it. -/
def stagingProgram (chunk : ℤ) : IRProgram where
  inputChunkCount := 1
  outputChunkCount := 0
  allInstructions := [{ op := .d2h, rank := 0, srcRank := 0, src := ⟨0, 0⟩, dst := ⟨0, chunk⟩ }]

theorem staging_loads : parseDocument (stagingDocument "127") 0 none = .ok (stagingProgram 127) ∧
    parseDocument (stagingDocument "200") 0 none = .ok (stagingProgram 200) := by
  decide +kernel

end IndexBounds
end Api
end HyLink
