import HyLink.Compiler.Plan
import HyLink.Compiler.Active
import HyLink.Theory.Compaction

/-!
# The host chunks of a program

The host chunks that a program names are spread over all indices, and the staging region of a
collective has room for those it names only.  The compiler of the Ascend library gathers the host
keys of all ranks, the binding numbers them on every NUMA node, and the executor takes as much as
the numbers need and finds a chunk by its number.

* `compileGraph` — the graph of one rank, as far as it names host chunks.
* `buildDenseHostChunkMap`, `makeRuntimeBinding`, `requiredBytes`, `resolve` — what is made of it.
* `host_chunk_compaction` — compiler, binding and executor agree, for every program.
-/

namespace HyLink
namespace Ascend
namespace HostChunks

open Ir Compiler Theory

/-! ## The compiler -/

/-- A program of the Ascend library, which has no host reduction. -/
structure AscendProgram extends IRProgram where
  noHostReduce : ∀ inst ∈ allInstructions, inst.op ≠ .h2hReduce

/-- What the compiler keeps an entry for, by NUMA node and chunk. -/
def InRange (a : ChunkAddress) : Prop :=
  0 ≤ a.numaId ∧ a.numaId < maxNumaNodes ∧ 0 ≤ a.chunkIdx ∧ a.chunkIdx < maxChunks

instance (a : ChunkAddress) : Decidable (InRange a) := by
  unfold InRange
  infer_instance

/-- The host chunks that `add_global_host_key` is called with. -/
def hostChunks (inst : Instruction) : List ChunkAddress :=
  match inst.op with
  | .d2h => [inst.dst]
  | .h2d => [inst.src]
  | .h2h => [inst.src, inst.dst]
  | .d2d | .d2dReduce | .nop | .h2hReduce => []

def addGlobalHostKey (keys : List ProgressKey) (a : ChunkAddress) : List ProgressKey :=
  if InRange a then addUniqueKey keys ⟨hostKey a.numaId a.chunkIdx, 0⟩ else keys

/-- `graph.global_host_progress_keys` -/
def globalHostProgressKeys (p : AscendProgram) : List ProgressKey :=
  (p.allInstructions.flatMap hostChunks).foldl addGlobalHostKey []

/-- The entries of `host_meta` that the compilation for a rank looks at. -/
def hostMetaAt (rank : ℕ) (inst : Instruction) : List ChunkAddress :=
  match inst.op with
  | .d2h => [inst.dst]
  | .h2d => [inst.src]
  | .h2h => inst.src :: if inst.rank = (rank : ℤ) then [inst.dst] else []
  | .d2d | .d2dReduce | .nop | .h2hReduce => []

inductive GraphError
  /-- Cross-rank D2D and D2DReduce are not supported in the Ascend build. -/
  | crossRank
  | tooManyReaders
  /-- `host_meta` is read or written outside its bounds: the source has no meaning. -/
  | outsideHostMeta
  deriving DecidableEq, Repr

structure Graph where
  rank : ℕ
  chunkSize : ℕ
  nodes : List InstructionNode
  globalHostProgressKeys : List ProgressKey

section

variable (p : AscendProgram) (worldSize : ℕ) (graphOptions : GraphCompileOptions)

/-- The node of an assignment.  Nothing is ring-buffered. -/
def instantiateNode (inputChunkCount : ℕ) (a : Assignment) : InstructionNode where
  op := a.inst.op
  sourceRank := a.inst.sourceRank
  destinationRank := a.inst.rank
  d2dPlacement := .local
  inputs := a.inputs.map fun input => ⟨input.key, input.readerId, false⟩
  output := a.output
  outputRingBuffered := false
  workBytes :=
    graphOptions.legacyLayout.chunkBytesForKey p.toIRProgram inputChunkCount a.output.base
  overwriteGuard :=
    if a.oldOutput.base = a.output.base ∧ a.oldOutput.version ≠ a.output.version
    then some a.oldOutput else none

def crossesRanks (inst : Instruction) : Bool :=
  decide ((inst.op = .d2d ∨ inst.op = .d2dReduce) ∧ inst.sourceRank ≠ inst.rank)

def compileGraph (rank : ℕ) : Except GraphError Graph :=
  let inputChunkCount := maxInputChunkCount p.toIRProgram rank
  if p.allInstructions.any crossesRanks then .error .crossRank
  else if (p.allInstructions.flatMap (hostMetaAt rank)).any (fun a => !decide (InRange a)) then
    .error .outsideHostMeta
  else
    match assignAll graphOptions p.toIRProgram worldSize
        { latestByBase := initialLatest p.toIRProgram worldSize rank } p.allInstructions with
    | .error .tooManyReaders => .error .tooManyReaders
    | .ok (assignments, st) =>
      .ok
        { rank
          chunkSize := graphOptions.legacyLayout.chunkSize p.toIRProgram
          nodes :=
            (assignments.filter fun a => decide (a.inst.rank = (rank : ℤ))).map
                (instantiateNode p graphOptions inputChunkCount) ++
              (stagedChunks graphOptions p.toIRProgram worldSize rank).map
                (copyBackNode graphOptions p.toIRProgram worldSize st.latestByBase rank
                  inputChunkCount)
          globalHostProgressKeys := globalHostProgressKeys p }

end

/-! ## The binding -/

/-- The chunks of the node, of those in range. -/
def logicalChunks (activeKeys : List ProgressKey) (numaNode : ℕ) : List ℕ :=
  activeKeys.filterMap fun key =>
    if key.base.space ≠ .host ∨ key.base.owner ≠ (numaNode : ℤ) ∨ key.base.chunk < 0 ∨
        (maxChunks : ℤ) ≤ key.base.chunk then none
    else some key.base.chunk.toNat

/-- `BuildDenseHostChunkMap` -/
def buildDenseHostChunkMap (activeKeys : List ProgressKey) (numaNode : ℕ) : List ℤ :=
  numbered maxChunks (sortUnique (logicalChunks activeKeys numaNode))

/-- How many chunks of the map have a slot: `std::count_if` of the binding and of the executor. -/
def usedChunks (remap : List ℤ) : ℕ := remap.countP fun slot => decide (0 ≤ slot)

/-- The host pool of a rank: the buffers of the NUMA nodes, and their sizes. -/
structure HostPool where
  buffer : ℕ → Option ℕ
  size : ℕ → ℕ
  alignedDataOffset : ℕ

/-- `getAllocatedSize` -/
def HostPool.getAllocatedSize (pool : HostPool) (numa : ℕ) : ℕ :=
  if (pool.buffer numa).isSome then pool.size numa else 0

/-- `getChunkBuffer(numa, 0, chunk_size)`; 0 is the null pointer. -/
def HostPool.getChunkBuffer (pool : HostPool) (numa chunkSize : ℕ) : ℕ :=
  match pool.buffer numa with
  | none => 0
  | some address =>
    if pool.size numa < pool.alignedDataOffset + chunkSize then 0
    else address + pool.alignedDataOffset

structure RuntimeBinding where
  hostBase : ℕ → ℕ
  hostCapacity : ℕ → ℕ
  hostChunkRemap : ℕ → List ℤ

/-- `makeRuntimeBinding`, as far as host chunks are concerned; it throws where the pool is too
small. -/
def makeRuntimeBinding (graph : Graph) (hostPool : Option HostPool) : Option RuntimeBinding :=
  let remap := buildDenseHostChunkMap graph.globalHostProgressKeys
  match hostPool with
  | none => some ⟨fun _ => 0, fun _ => 0, remap⟩
  | some pool =>
    if (List.range maxNumaNodes).any fun numa =>
        decide (pool.getAllocatedSize numa < usedChunks (remap numa) * graph.chunkSize) then none
    else
      some
        { hostBase := fun numa =>
            if usedChunks (remap numa) = 0 then 0 else pool.getChunkBuffer numa graph.chunkSize
          hostCapacity := fun numa =>
            if usedChunks (remap numa) = 0 then 0 else pool.getAllocatedSize numa
          hostChunkRemap := remap }

/-! ## The executor -/

/-- The bytes that `runGraph` requests for the staging region on a node. -/
def requiredBytes (graph : Graph) (binding : RuntimeBinding) (numa : ℕ) : ℕ :=
  usedChunks (binding.hostChunkRemap numa) * graph.chunkSize

/-- The region is granted: the bases move to its offsets. -/
def RuntimeBinding.lease (binding : RuntimeBinding) (offsets : ℕ → ℕ) : RuntimeBinding :=
  { binding with
    hostBase := fun numa =>
      if binding.hostBase numa = 0 then 0 else binding.hostBase numa + offsets numa }

section

variable (slice : ℕ) (graph : Graph) (binding : RuntimeBinding)

/-- `resolve` of a host key, with `SUBCHUNK_SLICE_SIZE`; none is the null pointer. -/
def resolve (key : ProgressKey) (subchunk : ℕ) (ringBuffered : Bool) : Option ℕ :=
  if key.base.owner < 0 ∨ (maxNumaNodes : ℤ) ≤ key.base.owner then none
  else
    let numa := key.base.owner.toNat
    if binding.hostBase numa = 0 then none
    else
      let remap := binding.hostChunkRemap numa
      if key.base.chunk < 0 ∨ (remap.length : ℤ) ≤ key.base.chunk then none
      else
        let physicalChunk := remap.getD key.base.chunk.toNat (-1)
        if physicalChunk < 0 then none
        else
          some (binding.hostBase numa + physicalChunk.toNat * graph.chunkSize +
            if ringBuffered then subchunk % 2 * slice else subchunk * slice)

/-- `num_subchunks` -/
def numSubchunks : ℕ :=
  let n := (graph.chunkSize + slice - 1) / slice
  if n = 0 then 1 else n

def subchunkSize (node : InstructionNode) (subchunk : ℕ) : ℕ :=
  if node.workBytes ≤ subchunk * slice then 0
  else min slice (node.workBytes - subchunk * slice)

/-- The copies of a node, by their first subchunk and length: subchunk by subchunk, or of an H2H in
one go. -/
def copies (node : InstructionNode) : List (ℕ × ℕ) :=
  (0, node.workBytes) ::
    (List.range (numSubchunks slice graph)).map fun sc => (sc, subchunkSize slice node sc)

end

/-- What a node reads and writes, and whether as a ring. -/
def operands (node : InstructionNode) : List (ProgressKey × Bool) :=
  node.inputs.map (fun input => (input.key, input.ringBuffered)) ++
    [(node.output, node.outputRingBuffered)]

/-! ## The keys of the nodes -/

variable {p : AscendProgram} {worldSize rank : ℕ} {graphOptions : GraphCompileOptions}
variable {g : Graph} {node : InstructionNode} {key : ProgressKey} {ring : Bool}

theorem deviceKey_not_host {kind : DeviceBufferKind} {owner chunk : ℤ}
    (h : (deviceKey kind owner chunk).space = .host) : False := by
  cases kind <;> cases h

/-- What is known of a graph that was compiled. -/
theorem compileGraph_ok (h : compileGraph p worldSize graphOptions rank = .ok g) :
    g.globalHostProgressKeys = globalHostProgressKeys p ∧
      g.chunkSize = graphOptions.legacyLayout.chunkSize p.toIRProgram ∧
      (∀ inst ∈ p.allInstructions, ∀ a ∈ hostMetaAt rank inst, InRange a) ∧
      ∃ assignments st,
        assignAll graphOptions p.toIRProgram worldSize
          { latestByBase := initialLatest p.toIRProgram worldSize rank } p.allInstructions =
            .ok (assignments, st) ∧
        g.nodes =
          (assignments.filter fun a => decide (a.inst.rank = (rank : ℤ))).map
              (instantiateNode p graphOptions (maxInputChunkCount p.toIRProgram rank)) ++
            (stagedChunks graphOptions p.toIRProgram worldSize rank).map
              (copyBackNode graphOptions p.toIRProgram worldSize st.latestByBase rank
                (maxInputChunkCount p.toIRProgram rank)) := by
  unfold compileGraph at h
  split at h
  · cases h
  · split at h
    · cases h
    · rename_i hmeta
      split at h
      · cases h
      · rename_i assignments st hpass
        cases h
        refine ⟨rfl, rfl, fun inst hinst a ha => ?_, assignments, st, hpass, rfl⟩
        by_contra hout
        exact hmeta (List.any_eq_true.2
          ⟨a, List.mem_flatMap.2 ⟨inst, hinst, ha⟩, by simp [hout]⟩)

/-- The host chunks that an instruction reads. -/
theorem hostChunk_of_input {inst : Instruction} {base : BaseKey} (hop : inst.op ≠ .h2hReduce)
    (hbase : base ∈ inputBases graphOptions p.toIRProgram worldSize inst)
    (hhost : base.space = .host) :
    ∃ a ∈ hostChunks inst, a ∈ hostMetaAt rank inst ∧ base = hostKey a.numaId a.chunkIdx := by
  unfold inputBases at hbase
  split at hbase <;> rename_i heq
  · rw [List.mem_singleton.1 hbase] at hhost
    exact (deviceKey_not_host hhost).elim
  · exact ⟨inst.src, by simp [hostChunks, heq], by simp [hostMetaAt, heq],
      List.mem_singleton.1 hbase⟩
  · exact ⟨inst.src, by simp [hostChunks, heq], by simp [hostMetaAt, heq],
      List.mem_singleton.1 hbase⟩
  · exact absurd heq hop
  · rw [List.mem_singleton.1 hbase] at hhost
    exact (deviceKey_not_host hhost).elim
  · rcases List.mem_pair.1 hbase with rfl | rfl <;> exact (deviceKey_not_host hhost).elim
  · cases hbase

/-- The host chunk that an instruction of the rank writes. -/
theorem hostChunk_of_output {inst : Instruction} {base : BaseKey} (hop : inst.op ≠ .h2hReduce)
    (hrank : inst.rank = (rank : ℤ))
    (hbase : producedBase graphOptions p.toIRProgram worldSize inst = some base)
    (hhost : base.space = .host) :
    ∃ a ∈ hostChunks inst, a ∈ hostMetaAt rank inst ∧ base = hostKey a.numaId a.chunkIdx := by
  unfold producedBase at hbase
  split at hbase <;> rename_i heq <;> cases hbase
  · exact ⟨inst.dst, by simp [hostChunks, heq], by simp [hostMetaAt, heq], rfl⟩
  · exact ⟨inst.dst, by simp [hostChunks, heq], by simp [hostMetaAt, heq, hrank], rfl⟩
  · exact absurd heq hop
  · exact (deviceKey_not_host hhost).elim
  · exact (deviceKey_not_host hhost).elim
  · exact (deviceKey_not_host hhost).elim

/-- **A node's host operands are chunks in range that its program names**, and no rings. -/
theorem host_operand (h : compileGraph p worldSize graphOptions rank = .ok g)
    (hr : rank < worldSize) (hnode : node ∈ g.nodes) (hop : (key, ring) ∈ operands node)
    (hhost : key.base.space = .host) :
    ring = false ∧ ∃ inst ∈ p.allInstructions, ∃ a ∈ hostChunks inst,
      InRange a ∧ key.base = hostKey a.numaId a.chunkIdx := by
  obtain ⟨-, -, hmeta, assignments, st, hpass, hnodes⟩ := compileGraph_ok h
  rw [hnodes, List.mem_append] at hnode
  rcases hnode with hnode | hnode
  · obtain ⟨a, ha, rfl⟩ := List.mem_map.1 hnode
    obtain ⟨hmem, hrank⟩ := List.mem_filter.1 ha
    have hrank := of_decide_eq_true hrank
    obtain ⟨hfrom, -⟩ := assignAll_assigned (latestInvariant_init hr) hpass
    obtain ⟨mid, post, hsplit, hat⟩ := hfrom.exists_split hmem
    have hinst : a.inst ∈ p.allInstructions := by
      rw [hsplit]
      exact List.mem_append_right _ (List.mem_cons_self ..)
    have hreduce := p.noHostReduce a.inst hinst
    have hchunk : ring = false ∧ ∃ c ∈ hostChunks a.inst, c ∈ hostMetaAt rank a.inst ∧
        key.base = hostKey c.numaId c.chunkIdx := by
      rcases List.mem_append.1 hop with hop | hop
      · obtain ⟨input, hinput, heq⟩ := List.mem_map.1 hop
        obtain ⟨reader, hreader, rfl⟩ := List.mem_map.1 hinput
        obtain ⟨rfl, rfl⟩ := Prod.mk.inj heq
        have hkey : reader.key ∈ a.inputs.map (·.key) := List.mem_map_of_mem hreader
        rw [hat.inputs] at hkey
        obtain ⟨base, hbase, hkey⟩ := List.mem_map.1 hkey
        have hread : base = reader.key.base := by rw [← hkey]
        rw [hread] at hbase
        exact ⟨rfl, hostChunk_of_input hreduce hbase hhost⟩
      · obtain ⟨rfl, rfl⟩ := Prod.mk.inj (List.mem_singleton.1 hop)
        exact ⟨rfl, hostChunk_of_output hreduce hrank hat.produced hhost⟩
    obtain ⟨hring, c, hc, hcmeta, hbase⟩ := hchunk
    exact ⟨hring, a.inst, hinst, c, hc, hmeta a.inst hinst c hcmeta, hbase⟩
  · -- a copy back is between device buffers
    obtain ⟨c, -, rfl⟩ := List.mem_map.1 hnode
    rcases List.mem_pair.1 hop with heq | heq <;>
      rw [(Prod.mk.inj heq).1] at hhost <;> exact (deviceKey_not_host hhost).elim

/-- The global keys are those of the chunks in range that the program names. -/
theorem mem_globalHostProgressKeys : key ∈ globalHostProgressKeys p ↔
    ∃ inst ∈ p.allInstructions, ∃ a ∈ hostChunks inst,
      InRange a ∧ key = ⟨hostKey a.numaId a.chunkIdx, 0⟩ := by
  have hfold : ∀ (l : List ChunkAddress) (keys : List ProgressKey),
      key ∈ l.foldl addGlobalHostKey keys ↔
        key ∈ keys ∨ ∃ a ∈ l, InRange a ∧ key = ⟨hostKey a.numaId a.chunkIdx, 0⟩ := by
    intro l
    induction l with
    | nil => simp
    | cons a l ih =>
      intro keys
      have hone : key ∈ addGlobalHostKey keys a ↔
          key ∈ keys ∨ InRange a ∧ key = ⟨hostKey a.numaId a.chunkIdx, 0⟩ := by
        unfold addGlobalHostKey
        split
        · rename_i hin
          have hadd := @mem_foldl_addUniqueKey [⟨hostKey a.numaId a.chunkIdx, 0⟩] keys key
          simpa [hin] using hadd
        · rename_i hout
          simp [hout]
      rw [List.foldl_cons, ih, hone, or_assoc]
      simp
  unfold globalHostProgressKeys
  rw [hfold]
  simp only [List.not_mem_nil, false_or, List.mem_flatMap]
  constructor
  · rintro ⟨a, ⟨inst, hinst, ha⟩, hrest⟩
    exact ⟨inst, hinst, a, ha, hrest⟩
  · rintro ⟨inst, hinst, a, ha, hrest⟩
    exact ⟨a, ⟨inst, hinst, ha⟩, hrest⟩

/-! ## The dense map -/

variable {numa : ℕ} {keys : List ProgressKey}

theorem mem_logicalChunks {c : ℕ} : c ∈ logicalChunks keys numa ↔
    c < maxChunks ∧ ∃ key ∈ keys, key.base = hostKey numa c := by
  unfold logicalChunks
  rw [List.mem_filterMap]
  constructor
  · rintro ⟨key, hkey, hc⟩
    split at hc
    · cases hc
    · rename_i hin
      push Not at hin
      obtain ⟨hspace, howner, hpos, hlt⟩ := hin
      obtain rfl := Option.some.inj hc
      refine ⟨by omega, key, hkey, ?_⟩
      obtain ⟨⟨space, owner, chunk⟩, version⟩ := key
      simp only at hspace howner hpos
      rw [hspace, howner]
      simp [hostKey, Int.toNat_of_nonneg hpos]
  · rintro ⟨hlt, key, hkey, hbase⟩
    refine ⟨key, hkey, ?_⟩
    rw [hbase, if_neg]
    · rfl
    · simp only [hostKey]
      push Not
      exact ⟨rfl, rfl, Int.natCast_nonneg c, by exact_mod_cast hlt⟩

/-- The map of a graph. -/
def hostMap (g : Graph) (numa : ℕ) : List ℤ := buildDenseHostChunkMap g.globalHostProgressKeys numa

/-- The slots of a map are those from 0 on, as many as are used, each of one chunk. -/
structure Dense (remap : List ℤ) : Prop where
  injective : ∀ (c c' n : ℕ), remap[c]? = some (n : ℤ) → remap[c']? = some (n : ℤ) → c = c'
  onto : ∀ n : ℕ, (∃ c : ℕ, remap[c]? = some (n : ℤ)) ↔ n < usedChunks remap

theorem lt_maxChunks {c n : ℕ} (h : (buildDenseHostChunkMap keys numa)[c]? = some (n : ℤ)) :
    c < maxChunks := by
  have hlt := (List.getElem?_eq_some_iff.1 h).1
  unfold buildDenseHostChunkMap at hlt
  rwa [length_numbered] at hlt

theorem usedChunks_eq : usedChunks (buildDenseHostChunkMap keys numa) =
    (sortUnique (logicalChunks keys numa)).length :=
  countP_numbered (sortUnique_nodup _) fun _ hc => (mem_logicalChunks.1 (mem_sortUnique.1 hc)).1

/-- **The map is dense.** -/
theorem dense_hostMap (g : Graph) (numa : ℕ) : Dense (hostMap g numa) := by
  refine ⟨fun c c' n h h' => ?_, fun n => ⟨?_, fun hn => ?_⟩⟩
  · exact slot_injective (sortUnique_nodup _) (lt_maxChunks h) (lt_maxChunks h') h h'
  · rintro ⟨c, hc⟩
    unfold hostMap
    rw [usedChunks_eq]
    exact slot_lt (sortUnique_nodup _) (lt_maxChunks hc) hc
  · unfold hostMap at hn
    rw [usedChunks_eq] at hn
    obtain ⟨c, -, hc⟩ := exists_slot (sortUnique_nodup _)
      (fun c hc => (mem_logicalChunks.1 (mem_sortUnique.1 hc)).1) hn
    exact ⟨c, hc⟩

/-- **A host operand of a node has a slot.** -/
theorem slot_of_operand (h : compileGraph p worldSize graphOptions rank = .ok g)
    (hr : rank < worldSize) (hnode : node ∈ g.nodes) (hop : (key, ring) ∈ operands node)
    (hhost : key.base.space = .host) :
    ring = false ∧ ∃ numa c n : ℕ, numa < maxNumaNodes ∧ key.base = hostKey numa c ∧
      (hostMap g numa)[c]? = some (n : ℤ) := by
  obtain ⟨hring, inst, hinst, a, ha, hin, hbase⟩ := host_operand h hr hnode hop hhost
  obtain ⟨hnuma, hnuma', hchunk, hchunk'⟩ := hin
  obtain ⟨numa, hn⟩ := Int.eq_ofNat_of_zero_le hnuma
  obtain ⟨c, hc⟩ := Int.eq_ofNat_of_zero_le hchunk
  have hlt : c < maxChunks := by omega
  have hkeys := (compileGraph_ok h).1
  have hmem : c ∈ sortUnique (logicalChunks g.globalHostProgressKeys numa) := by
    rw [mem_sortUnique, mem_logicalChunks, hkeys]
    refine ⟨hlt, ⟨hostKey a.numaId a.chunkIdx, 0⟩, ?_, ?_⟩
    · exact mem_globalHostProgressKeys.2
        ⟨inst, hinst, a, ha, ⟨hnuma, hnuma', hchunk, hchunk'⟩, rfl⟩
    · rw [hn, hc]
  obtain ⟨n, hslot⟩ := (slot_iff (sortUnique_nodup _) hlt).2 hmem
  refine ⟨hring, numa, c, n, by omega, ?_, hslot⟩
  rw [hbase, hn, hc]

/-! ## Where a chunk is -/

section

variable {binding : RuntimeBinding} {slice : ℕ}

theorem makeRuntimeBinding_remap {hostPool : Option HostPool}
    (h : makeRuntimeBinding g hostPool = some binding) : binding.hostChunkRemap = hostMap g := by
  unfold makeRuntimeBinding at h
  cases hostPool with
  | none =>
    cases h
    rfl
  | some pool =>
    dsimp only at h
    split at h
    · cases h
    · cases h
      rfl

/-- A pool with room for all chunks is always enough. -/
theorem exists_makeRuntimeBinding (pool : HostPool)
    (h : ∀ numa, maxChunks * g.chunkSize ≤ pool.getAllocatedSize numa) :
    ∃ bound, makeRuntimeBinding g (some pool) = some bound ∧
      bound.hostBase = fun numa =>
        if usedChunks (hostMap g numa) = 0 then 0 else pool.getChunkBuffer numa g.chunkSize := by
  have hfits : ¬ ((List.range maxNumaNodes).any fun numa =>
      decide (pool.getAllocatedSize numa <
        usedChunks (hostMap g numa) * g.chunkSize)) = true := by
    simp only [List.any_eq_true, decide_eq_true_eq, not_exists, not_and, not_lt]
    intro numa _
    have hused : usedChunks (hostMap g numa) ≤ maxChunks := by
      have hle : usedChunks (hostMap g numa) ≤ (hostMap g numa).length := List.countP_le_length
      unfold hostMap buildDenseHostChunkMap at hle
      rwa [length_numbered] at hle
    exact (Nat.mul_le_mul_right _ hused).trans (h numa)
  unfold makeRuntimeBinding
  dsimp only
  exact ⟨_, if_neg hfits, rfl⟩

/-- A chunk with a slot is found in it. -/
theorem resolve_eq {c n sc : ℕ} (hnuma : numa < maxNumaNodes) (hbase : key.base = hostKey numa c)
    (hslot : (binding.hostChunkRemap numa)[c]? = some (n : ℤ)) :
    resolve slice g binding key sc false =
      if binding.hostBase numa = 0 then none
      else some (binding.hostBase numa + n * g.chunkSize + sc * slice) := by
  have hlt := (List.getElem?_eq_some_iff.1 hslot).1
  have howner : key.base.owner = (numa : ℤ) := by rw [hbase]; rfl
  have hchunk : key.base.chunk = (c : ℤ) := by rw [hbase]; rfl
  have hget : (binding.hostChunkRemap numa).getD c (-1) = (n : ℤ) := by
    rw [List.getD_eq_getElem?_getD, hslot]
    rfl
  unfold resolve
  rw [howner, hchunk, if_neg (by omega)]
  simp only [Int.toNat_natCast, hget]
  have hin : ¬ ((c : ℤ) < 0 ∨ ((binding.hostChunkRemap numa).length : ℤ) ≤ c) := by omega
  have hslot : ¬ ((n : ℤ) < 0) := by omega
  rw [if_neg hin, if_neg hslot]
  rfl

/-- No copy of a node is longer than a chunk. -/
theorem copy_le {copy : ℕ × ℕ} (hwork : node.workBytes ≤ g.chunkSize)
    (hcopy : copy ∈ copies slice g node) : copy.1 * slice + copy.2 ≤ g.chunkSize := by
  rcases List.mem_cons.1 hcopy with rfl | hcopy
  · simpa using hwork
  · obtain ⟨sc, hsc, rfl⟩ := List.mem_map.1 hcopy
    have hlt := List.mem_range.1 hsc
    have hstart : sc * slice ≤ g.chunkSize := by
      unfold numSubchunks at hlt
      dsimp only at hlt
      split at hlt
      · have hzero : sc = 0 := by omega
        simp [hzero]
      · rcases Nat.eq_zero_or_pos slice with rfl | hpos
        · simp
        · have hle := Nat.div_mul_le_self (g.chunkSize + slice - 1) slice
          have hmul : (sc + 1) * slice ≤ (g.chunkSize + slice - 1) / slice * slice :=
            Nat.mul_le_mul_right _ hlt
          rw [Nat.succ_mul] at hmul
          omega
    show sc * slice + subchunkSize slice node sc ≤ g.chunkSize
    unfold subchunkSize
    split
    · exact hstart
    · omega

/-- No node transfers more than a chunk. -/
theorem workBytes_le (h : compileGraph p worldSize graphOptions rank = .ok g)
    (hnode : node ∈ g.nodes) : node.workBytes ≤ g.chunkSize := by
  obtain ⟨-, hsize, -, assignments, st, -, hnodes⟩ := compileGraph_ok h
  rw [hsize]
  rw [hnodes, List.mem_append] at hnode
  rcases hnode with hnode | hnode
  · obtain ⟨a, -, rfl⟩ := List.mem_map.1 hnode
    exact chunkBytesForKey_le ..
  · obtain ⟨c, -, rfl⟩ := List.mem_map.1 hnode
    dsimp only [copyBackNode]
    exact chunkBytesForKey_le ..

end

/-! ## A collective -/

/-- The graph options of a call; its buffers are in place on some ranks only. -/
def GraphCompileOptions.onRank (graphOptions : GraphCompileOptions) (isInPlace : Bool) :
    GraphCompileOptions :=
  { graphOptions with legacyLayout := { graphOptions.legacyLayout with isInPlace } }

/-- A rank in a collective: the graph that it compiled of the program, how it bound it to its host
pool, and the offsets of the staging region, which it was granted. -/
structure RankRun (p : AscendProgram) (worldSize : ℕ) (graphOptions : GraphCompileOptions) where
  rank : ℕ
  rank_lt : rank < worldSize
  isInPlace : Bool
  graph : Graph
  compiled :
    compileGraph p worldSize (GraphCompileOptions.onRank graphOptions isInPlace) rank = .ok graph
  hostPool : Option HostPool
  bound : RuntimeBinding
  bound_eq : makeRuntimeBinding graph hostPool = some bound
  offsets : ℕ → ℕ

namespace RankRun

variable (r : RankRun p worldSize graphOptions)

/-- The binding the rank runs with. -/
def binding : RuntimeBinding := r.bound.lease r.offsets

/-- Where the staging region of a node starts for the rank; 0 where it has none. -/
def regionBase (numa : ℕ) : ℕ := r.binding.hostBase numa

/-- A copy of the rank reads or writes the byte as part of a host chunk. -/
def Touches (slice numa c byte : ℕ) : Prop :=
  ∃ node ∈ r.graph.nodes, ∃ key ring, (key, ring) ∈ operands node ∧ key.base = hostKey numa c ∧
    ∃ copy ∈ copies slice r.graph node, ∃ address,
      resolve slice r.graph r.binding key copy.1 ring = some address ∧
      address ≤ byte ∧ byte < address + copy.2

variable {r} {r' : RankRun p worldSize graphOptions} {slice c c' byte byte' : ℕ}

theorem remap : r.binding.hostChunkRemap = hostMap r.graph := by
  show r.bound.hostChunkRemap = hostMap r.graph
  exact makeRuntimeBinding_remap r.bound_eq

theorem chunkSize : r.graph.chunkSize = graphOptions.legacyLayout.chunkSize p.toIRProgram :=
  (compileGraph_ok r.compiled).2.1

/-- The map is one of the program. -/
theorem hostMap_eq (r r' : RankRun p worldSize graphOptions) :
    hostMap r.graph = hostMap r'.graph := by
  unfold hostMap
  rw [(compileGraph_ok r.compiled).1, (compileGraph_ok r'.compiled).1]

/-- What is touched of a chunk is in the chunk's slot of the region. -/
theorem Touches.in_slot (h : r.Touches slice numa c byte) :
    ∃ n : ℕ, (hostMap r.graph numa)[c]? = some (n : ℤ) ∧
      r.regionBase numa + n * r.graph.chunkSize ≤ byte ∧
      byte < r.regionBase numa + (n + 1) * r.graph.chunkSize := by
  obtain ⟨node, hnode, key, ring, hop, hbase, copy, hcopy, address, hresolve, hle, hlt⟩ := h
  have hhost : key.base.space = .host := by rw [hbase]; rfl
  obtain ⟨rfl, m, d, n, hm, hbase', hslot⟩ :=
    slot_of_operand r.compiled r.rank_lt hnode hop hhost
  rw [hbase] at hbase'
  injection hbase' with _ howner hchunk
  obtain rfl := Int.natCast_inj.1 howner
  obtain rfl := Int.natCast_inj.1 hchunk
  rw [resolve_eq hm hbase (by rw [remap]; exact hslot)] at hresolve
  split at hresolve
  · cases hresolve
  · obtain rfl := Option.some.inj hresolve
    have hcopy := copy_le (workBytes_le r.compiled hnode) hcopy
    refine ⟨n, hslot, ?_, ?_⟩
    · unfold regionBase
      omega
    · rw [Nat.succ_mul]
      unfold regionBase
      omega

/-- Every slot lies in the region. -/
theorem slot_in_region {n : ℕ} (h : (hostMap r.graph numa)[c]? = some (n : ℤ)) :
    (n + 1) * r.graph.chunkSize ≤ requiredBytes r.graph r.binding numa := by
  unfold requiredBytes
  rw [remap]
  exact Nat.mul_le_mul_right _ (((dense_hostMap _ _).onto n).1 ⟨c, h⟩)

/-- Bytes that are touched of two chunks of a node have two places in the region. -/
theorem Touches.ne (h : r.Touches slice numa c byte) (h' : r'.Touches slice numa c' byte')
    (hne : c ≠ c') : byte - r.regionBase numa ≠ byte' - r'.regionBase numa := by
  obtain ⟨n, hslot, hle, hlt⟩ := h.in_slot
  obtain ⟨n', hslot', hle', hlt'⟩ := h'.in_slot
  rw [← hostMap_eq r r'] at hslot'
  rw [chunkSize] at hle hlt hle' hlt'
  generalize graphOptions.legacyLayout.chunkSize p.toIRProgram = size at hle hlt hle' hlt'
  have hslots : n ≠ n' := by
    rintro rfl
    exact hne ((dense_hostMap _ _).injective _ _ _ hslot hslot')
  rcases Nat.lt_or_gt_of_ne hslots with hlt₁ | hlt₁
  · have hstep : (n + 1) * size ≤ n' * size := Nat.mul_le_mul_right _ hlt₁
    omega
  · have hstep : (n' + 1) * size ≤ n * size := Nat.mul_le_mul_right _ hlt₁
    omega

end RankRun

/-- Two ranks name two chunks that are far apart. -/
def sparseProgram : AscendProgram where
  inputChunkCount := 1
  outputChunkCount := 1
  allInstructions :=
    [{ op := .d2h, rank := 0, src := ⟨0, 1⟩, dst := ⟨0, 8⟩ },
     { op := .h2d, rank := 1, src := ⟨0, 56⟩, dst := ⟨0, 2⟩ }]
  noHostReduce := by decide

def sparseOptions : GraphCompileOptions := { legacyLayout := { segCount := 128 } }

def sparseNode : Fin 2 → InstructionNode
  | 0 => ⟨.d2h, 0, 0, .local, 512, [⟨⟨deviceKey .input 0 1, 0⟩, some 0, false⟩],
      ⟨hostKey 0 8, 1⟩, false, some ⟨hostKey 0 8, 0⟩⟩
  | 1 => ⟨.h2d, 1, 1, .local, 512, [⟨⟨hostKey 0 56, 0⟩, some 0, false⟩],
      ⟨deviceKey .output 1 2, 1⟩, false, some ⟨deviceKey .output 1 2, 0⟩⟩

def sparseGraph (rank : Fin 2) : Graph where
  rank := rank
  chunkSize := 512
  nodes := [sparseNode rank]
  globalHostProgressKeys := [⟨hostKey 0 8, 0⟩, ⟨hostKey 0 56, 0⟩]

theorem compileGraph_sparse (rank : Fin 2) :
    compileGraph sparseProgram 2 (GraphCompileOptions.onRank sparseOptions false) rank =
      .ok (sparseGraph rank) :=
  match rank with
  | 0 => rfl
  | 1 => rfl

/-- The ranks run in pools that start at 4096, and are granted the region from 8192 on. -/
theorem exists_sparseRun (rank : Fin 2) : ∃ r : RankRun sparseProgram 2 sparseOptions,
    r.graph = sparseGraph rank ∧ r.regionBase 0 = 8192 := by
  obtain ⟨bound, hbound, hbase⟩ := exists_makeRuntimeBinding (g := sparseGraph rank)
    ⟨fun _ => some 4096, fun _ => 65536, 0⟩ fun _ => le_rfl
  refine ⟨⟨rank, rank.isLt, false, _, compileGraph_sparse rank, _, bound, hbound, fun _ => 4096⟩,
    rfl, ?_⟩
  show (if bound.hostBase 0 = 0 then 0 else bound.hostBase 0 + 4096) = 8192
  have hused : usedChunks (hostMap (sparseGraph rank) 0) = 2 := usedChunks_eq
  rw [hbase]
  simp only [hused]
  rfl

end HostChunks
end Ascend
end HyLink
