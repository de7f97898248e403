import HyLink.Executor.Contents
import HyLink.Executor.Progress

/-!
# No hazards

Two accesses to the same bytes, one of them a write, have to happen in the order of the program.
Out of place, a chunk has one storage and its versions follow one another in it; the guards of the
versions in between carry the order from one write to any later one.

* `Disciplined` — what holds in a run whose steps publish in order and read settled counts.
* `Disciplined.done_of_later` — a version is done before a later one may be written.
* `Disciplined.done_of_reader` — and so are its readers.
* `Disciplined.no_later_writer` — so while a slice is being worked on, nobody may write a later
  version of what it reads, except the slice itself.
* `Disciplined.slot_passed` — in a ring, the readers of a slice are done before its slot is taken
  again.
-/

namespace HyLink
namespace Executor

open Ir Compiler

namespace Cluster

variable (c : Cluster)

/-- A step that publishes in order and reads the compiled reader counts. -/
def disciplined (s : State) (l : Label) : Bool :=
  c.h2hInOrder s l && c.shortcutsInOrder s l && c.countsSettled s l

/-- A ring-buffered chunk is written by one instruction. -/
def RingsWrittenOnce : Prop :=
  ∀ inst ∈ c.program.allInstructions, ∀ base ∈ producedBase c.graphOptions c.program c.worldSize inst,
    c.ring base = true → c.plan.finalVersion base ≤ 1

instance : Decidable c.RingsWrittenOnce := by unfold RingsWrittenOnce; infer_instance

/-- What the run theorems ask of a cluster: the words are distinct, the transfers are issued, every
instruction runs on a rank of the world, buffers do not overlap, and no ring is written twice. -/
structure Plain : Prop where
  words : c.DistinctWords
  issued : c.env.skipDma = false
  ranks : RanksInWorld c.env c.program c.worldSize
  outOfPlace : c.graphOptions.legacyLayout.isInPlace = false
  rings : c.RingsWrittenOnce

end Cluster

/-- What holds in a disciplined run, of its ledger and its state. -/
structure Disciplined (c : Cluster) (tr : List Piece) (s : State) : Prop where
  base : Base c s
  sound : Sound c (fun _ => true) s
  ledger : Ledger c tr s
  guarded : Guarded c s

section

variable {c : Cluster} {tr : List Piece} {s s' : State} {l : Label} {r r' i i' sc : ℕ}
  {n n' : InstructionNode}

/-! ## Disciplined runs -/

theorem earlierFinished_of_disciplined (hb : Base c s) (hl : c.disciplined s l = true)
    {w : SharedWords} {e : Exec} (hlocal : c.localStep l.rank s.words (s.execs l.rank) l = some (w, e))
    (hpub : (s.execs l.rank).published l = some (i, sc)) (hn : c.node? l.rank i = some n) :
    (s.execs l.rank).earlierFinished i n sc = true := by
  simp only [Cluster.disciplined, Bool.and_eq_true] at hl
  by_cases hop : n.op = .h2h ∨ n.op = .h2hReduce
  · exact earlierFinished_of_publishesInOrder hl.1.1 hpub hn (decide_eq_true hop)
  · have hdma : n.op = .d2h ∨ n.op = .h2d ∨ n.op = .d2d ∨ n.op = .d2dReduce := by
      have hnop := op_ne_nop_of_node? hn
      cases hk : n.op <;> simp_all
    exact earlierFinished_of_shortcutsInOrder (hb.tidy _) (Motion.of_localStep hlocal) hl.1.2 hpub hn
      (decide_eq_true hdma)

theorem Disciplined.init (stale : Word → ℕ) : Disciplined c [] (State.init stale) :=
  ⟨Base.init stale, Sound.init stale, Ledger.init stale, Guarded.init stale⟩

theorem Disciplined.step (hd : c.DistinctWords) (h : Disciplined c tr s)
    (hl : c.disciplined s l = true) (hstep : c.machine.step s l = some s') :
    Disciplined c (tr ++ c.effects s l) s' := by
  obtain ⟨-, w, e, hlocal, -⟩ := step_cases hstep
  have hcount : c.countsSettled s l = true := by
    simp only [Cluster.disciplined, Bool.and_eq_true] at hl
    exact hl.2
  exact ⟨h.base.step hstep,
    h.sound.step hd h.base (fun i sc n hpub hn _ =>
      earlierFinished_of_disciplined h.base hl hlocal hpub hn) hstep,
    h.ledger.step hstep, h.guarded.step hd h.base hcount hstep⟩

/-! ## Nodes of an out-of-place cluster -/

/-- Out of place every node is that of an instruction. -/
theorem Cluster.Plain.exists_assignment (hc : c.Plain) (hn : c.node? r i = some n) :
    ∃ a ∈ c.plan.assignments, executionRank c.env a.inst = r ∧ n = c.plan.instNode c.env r a := by
  rcases (c.plan.mem_nodes_iff).1 (mem_nodes_of_node? hn) with h | ⟨k, -, hs, -⟩
  · exact h
  · rw [stageOutputChunk_of_not_inPlace hc.outOfPlace] at hs
    cases hs

theorem Cluster.Plain.guard_eq (hc : c.Plain) (hn : c.node? r i = some n) :
    n.overwriteGuard = some ⟨n.output.base, n.output.version - 1⟩ := by
  obtain ⟨a, ha, -, rfl⟩ := hc.exists_assignment hn
  exact c.plan.instNode_guard ha

theorem Cluster.Plain.version_le (hc : c.Plain) (hn : c.node? r i = some n) :
    n.output.version ≤ c.plan.finalVersion n.output.base := by
  obtain ⟨a, ha, -, rfl⟩ := hc.exists_assignment hn
  exact c.plan.version_le ha

/-- Every version up to the last has its node. -/
theorem Cluster.Plain.exists_producer (hc : c.Plain) (base : BaseKey) {v : ℕ} (hv : 0 < v)
    (hle : v ≤ c.plan.finalVersion base) :
    ∃ r < c.worldSize, ∃ i n, c.node? r i = some n ∧ n.output = ⟨base, v⟩ := by
  obtain ⟨a, ha, hout⟩ := c.plan.exists_producer hv hle
  obtain ⟨r, hr, hexec⟩ := c.plan.exists_executionRank hc.ranks ha
  obtain ⟨i, hnode⟩ := c.plan.exists_node ha hexec
  exact ⟨r, hr, i, _, hnode, hout⟩

/-- The version of an operand in the chunk that the node writes: the one before its output, or, if
the chunk was not written before, a later one. -/
theorem Cluster.Plain.version_of_own_operand (hc : c.Plain) (hn : c.node? r i = some n)
    {a : NodeInput} (ha : a ∈ n.inputs) (hbase : a.key.base = n.output.base) :
    a.key.version = n.output.version - 1 ∨ n.output.version ≤ a.key.version := by
  obtain ⟨as, has, -, rfl⟩ := hc.exists_assignment hn
  obtain ⟨mid, post, hsplit, hat⟩ := c.plan.assignedFrom.exists_split has
  rw [List.nil_append] at hat
  simp only [Plan.instNode, instantiateNode, List.mem_map] at ha
  obtain ⟨x, hx, rfl⟩ := ha
  have hkey : x.key ∈ as.inputs.map (·.key) := List.mem_map_of_mem hx
  rw [hat.inputs, List.mem_map] at hkey
  obtain ⟨base, -, hkey⟩ := hkey
  have hversion : as.output.version ≤ c.plan.finalVersion as.output.base := c.plan.version_le has
  change x.key.base = as.output.base at hbase
  change x.key.version = as.output.version - 1 ∨ as.output.version ≤ x.key.version
  rw [← hkey] at hbase ⊢
  change base = as.output.base at hbase
  subst hbase
  rw [hat.version] at hversion ⊢
  simp only [readVersion]
  split
  · exact Or.inl rfl
  · split
    · left; omega
    · exact Or.inr hversion

/-- A node reads what it does not write through a reader cursor. -/
theorem Cluster.Plain.readerId_none (hc : c.Plain) (hn : c.node? r i = some n) {a : NodeInput}
    (ha : a ∈ n.inputs) (hid : a.readerId = none) :
    n.op = .d2dReduce ∧ a.key.base = n.output.base := by
  obtain ⟨as, has, -, rfl⟩ := hc.exists_assignment hn
  simp only [Plan.instNode, instantiateNode, List.mem_map] at ha
  obtain ⟨x, hx, rfl⟩ := ha
  exact c.plan.base_eq_of_readerId_none has hx hid

/-! ## What the guards order -/

/-- The checks on the version that a node replaces. -/
theorem Disciplined.guard_passed (hc : c.Plain) (hn : c.node? r i = some n)
    (had : c.Admitted s.words n sc) :
    (1 < n.output.version →
      sc < s.words.getWriteProgress ⟨n.output.base, n.output.version - 1⟩) ∧
    ∀ id < c.plan.numReaders ⟨n.output.base, n.output.version - 1⟩,
      sc < s.words.getReaderDone id ⟨n.output.base, n.output.version - 1⟩ := by
  have hguard := hc.guard_eq hn
  refine ⟨fun hlt => ?_, fun id hid => ?_⟩
  · have hpos : 0 < n.output.version - 1 := by omega
    exact had (.loadWriteProgress ⟨n.output.base, n.output.version - 1⟩ (sc + 1))
      (by simp [Cluster.checks, Cluster.overwriteReady, hguard, hpos])
  · exact had (.loadNumReaders ⟨n.output.base, n.output.version - 1⟩ (sc + 1))
      (by simp [Cluster.checks, Cluster.overwriteReady, hguard]) id hid

theorem Disciplined.input_passed (had : c.Admitted s.words n sc) {a : NodeInput}
    (ha : a ∈ n.inputs) : sc < s.words.getWriteProgress a.key :=
  had (.loadWriteProgress a.key (sc + 1)) (by
    simp only [Cluster.checks, inputsReady, List.mem_append, List.mem_map]
    exact Or.inl ⟨a, ha, rfl⟩)

/-- A done slice was let through. -/
theorem Disciplined.admitted (h : Disciplined c tr s) (hr : r < c.worldSize)
    (hn : c.node? r i = some n) (hdone : SliceDone (s.execs r) i sc) : c.Admitted s.words n sc :=
  h.guarded.admitted r hr i n hn sc hdone.1

/-- **A version is done before a later one may be written.**  By induction on how much later: the
guard of a write is the version before it. -/
theorem Disciplined.done_of_later (hc : c.Plain) (h : Disciplined c tr s) (hr : r < c.worldSize)
    (hn : c.node? r i = some n) (hr' : r' < c.worldSize) (hn' : c.node? r' i' = some n')
    (hbase : n'.output.base = n.output.base) (hlt : n.output.version < n'.output.version)
    (had : c.Admitted s.words n' sc) : SliceDone (s.execs r) i sc := by
  have hpos := version_pos_of_node? hn
  have hpassed := (Disciplined.guard_passed hc hn' had).1 (by omega)
  obtain ⟨k, hk⟩ : ∃ k, n'.output.version = n.output.version + 1 + k :=
    ⟨n'.output.version - (n.output.version + 1), by omega⟩
  induction k generalizing r' i' n' with
  | zero =>
    have hkey : (⟨n'.output.base, n'.output.version - 1⟩ : ProgressKey) = n.output := by
      rw [hbase, hk, Nat.add_zero, Nat.add_sub_cancel]
    rw [hkey] at hpassed
    exact h.sound.write r hr i n hn rfl sc hpassed
  | succ k ih =>
    obtain ⟨r₁, hr₁, i₁, n₁, hn₁, hout⟩ := hc.exists_producer n'.output.base
      (v := n'.output.version - 1) (by omega) (by have := hc.version_le hn'; omega)
    rw [← hout] at hpassed
    have hdone := h.sound.write r₁ hr₁ i₁ n₁ hn₁ rfl sc hpassed
    have hb₁ : n₁.output.base = n.output.base := by rw [hout]; exact hbase
    have hv₁ : n₁.output.version = n'.output.version - 1 := by rw [hout]
    have had₁ := h.admitted hr₁ hn₁ hdone
    exact ih hr₁ hn₁ hb₁ (by omega) had₁ ((Disciplined.guard_passed hc hn₁ had₁).1 (by omega))
      (by omega)

/-- **The readers of a version are done before a later one may be written.** -/
theorem Disciplined.done_of_reader (hc : c.Plain) (h : Disciplined c tr s) (hr : r < c.worldSize)
    (hn : c.node? r i = some n) {a : NodeInput} (ha : a ∈ n.inputs) {id : ℕ}
    (hid : a.readerId = some id) (hr' : r' < c.worldSize) (hn' : c.node? r' i' = some n')
    (hbase : n'.output.base = a.key.base) (hlt : a.key.version < n'.output.version)
    (had : c.Admitted s.words n' sc) : SliceDone (s.execs r) i sc := by
  -- the next version is `n'` or done
  obtain ⟨r₁, hr₁, i₁, n₁, hn₁, hout⟩ := hc.exists_producer n'.output.base
    (v := a.key.version + 1) (Nat.succ_pos _) (hlt.trans_le (hc.version_le hn'))
  have had₁ : c.Admitted s.words n₁ sc := by
    by_cases heq : n₁.output.version = n'.output.version
    · have hsame : n₁.output = n'.output := by
        rw [hout] at heq ⊢
        exact congrArg (ProgressKey.mk _) heq
      obtain ⟨rfl, rfl⟩ := node?_injective hn₁ hn' hsame
      rwa [Option.some.inj (hn₁.symm.trans hn')]
    · have hb₁ : n'.output.base = n₁.output.base := by rw [hout]
      have hlt₁ : n₁.output.version < n'.output.version := by
        rw [hout] at heq ⊢
        simp only at heq ⊢
        omega
      exact h.admitted hr₁ hn₁ (h.done_of_later hc hr₁ hn₁ hr' hn' hb₁ hlt₁ had)
  have hkey : (⟨n₁.output.base, n₁.output.version - 1⟩ : ProgressKey) = a.key := by
    rw [hout, Nat.add_sub_cancel, hbase]
  have hpassed := (Disciplined.guard_passed hc hn₁ had₁).2
  rw [hkey] at hpassed
  exact h.sound.reader r hr i n hn rfl a.key id ⟨n, hn, a, ha, rfl, hid⟩ sc
    (hpassed id (c.plan.readerId_lt_numReaders (mem_nodes_of_node? hn) ha hid))

/-- **While a slice is worked on, what it reads stays.**  Only the node itself may write a later
version of an operand: a device reduce writes its second operand. -/
theorem Disciplined.no_later_writer (hc : c.Plain) (h : Disciplined c tr s) (hr : r < c.worldSize)
    (hn : c.node? r i = some n) (hopen : ¬ SliceDone (s.execs r) i sc) {a : NodeInput}
    (ha : a ∈ n.inputs) (hr' : r' < c.worldSize) (hn' : c.node? r' i' = some n')
    (hbase : n'.output.base = a.key.base) (hlt : a.key.version < n'.output.version)
    (had' : c.Admitted s.words n' sc) : n.op = .d2dReduce ∧ r' = r ∧ i' = i := by
  cases hid : a.readerId with
  | some id => exact absurd (h.done_of_reader hc hr hn ha hid hr' hn' hbase hlt had') hopen
  | none =>
    obtain ⟨hop, hown⟩ := hc.readerId_none hn ha hid
    have hb : n'.output.base = n.output.base := hbase.trans hown
    rcases Nat.lt_trichotomy n'.output.version n.output.version with hv | hv | hv
    · rcases hc.version_of_own_operand hn ha hown with hver | hver <;> omega
    · have hsame : n'.output = n.output := by
        cases hx : n'.output
        cases hy : n.output
        simp_all
      exact ⟨hop, node?_injective hn' hn hsame⟩
    · exact absurd (h.done_of_later hc hr hn hr' hn' hb hv had') hopen

/-! ## Rings -/

/-- A ring holds one version. -/
theorem Cluster.Plain.ring_version (hc : c.Plain) (hn : c.node? r i = some n)
    (hring : c.ring n.output.base = true) : n.output.version = 1 := by
  have hle := hc.version_le hn
  have hpos := version_pos_of_node? hn
  obtain ⟨a, ha, -, rfl⟩ := hc.exists_assignment hn
  obtain ⟨mid, post, -, hat⟩ := c.plan.assignedFrom.exists_split ha
  have hone := hc.rings a.inst (c.plan.inst_mem ha) _ hat.produced hring
  change (c.plan.instNode c.env r a).output.version ≤ c.plan.finalVersion a.output.base at hle
  omega

/-- A ring that a node reads, and that somebody writes, is read in its one version. -/
theorem Cluster.Plain.ring_operand (hc : c.Plain) (hn : c.node? r i = some n) {a : NodeInput}
    (ha : a ∈ n.inputs) (hring : c.ring a.key.base = true)
    (hn' : c.node? r' i' = some n') (hbase : n'.output.base = a.key.base) :
    n'.output.version ≤ a.key.version := by
  have hone := hc.ring_version hn' (by rw [hbase]; exact hring)
  have hfinal := hc.version_le hn'
  obtain ⟨as, has, -, rfl⟩ := hc.exists_assignment hn
  obtain ⟨mid, post, hsplit, hat⟩ := c.plan.assignedFrom.exists_split has
  simp only [Plan.instNode, instantiateNode, List.mem_map] at ha
  obtain ⟨x, hx, rfl⟩ := ha
  have hkey : x.key ∈ as.inputs.map (·.key) := List.mem_map_of_mem hx
  rw [hat.inputs, List.mem_map] at hkey
  obtain ⟨base, -, hkey⟩ := hkey
  have hbase' : n'.output.base = base := by
    rw [hbase]
    change x.key.base = base
    rw [← hkey]
  change n'.output.version ≤ x.key.version
  rw [← hkey, hone]
  rw [hone, hbase'] at hfinal
  have hhost : base.space = .host := by
    change c.ring x.key.base = true at hring
    rw [← hkey] at hring
    exact space_of_ringChunk hring
  simp only [readVersion]
  split
  · omega
  · rw [if_neg fun hin => by rw [hin.1] at hhost; cases hhost]
    exact hfinal

/-- The ring flags of a node are those of its chunks. -/
theorem Cluster.Plain.output_ring (hc : c.Plain) (hn : c.node? r i = some n) :
    n.outputRingBuffered = c.ring n.output.base := by
  obtain ⟨a, ha, -, rfl⟩ := hc.exists_assignment hn
  rfl

theorem Cluster.Plain.input_ring (hc : c.Plain) (hn : c.node? r i = some n) {a : NodeInput}
    (ha : a ∈ n.inputs) : a.ringBuffered = c.ring a.key.base := by
  obtain ⟨as, has, -, rfl⟩ := hc.exists_assignment hn
  simp only [Plan.instNode, instantiateNode, List.mem_map] at ha
  obtain ⟨x, hx, rfl⟩ := ha
  rfl

/-- **In a ring, the readers of a slice are done before its slot is taken again.** -/
theorem Disciplined.slot_passed (hc : c.Plain)
    (hn : c.node? r i = some n) (hring : c.ring n.output.base = true)
    (had : c.Admitted s.words n sc) {sc₀ : ℕ} (hslot : sc₀ + c.ringSlots ≤ sc)
    {id : ℕ} (hid : id < c.plan.numReaders n.output) : sc₀ < s.words.getReaderDone id n.output := by
  have hflag := hc.output_ring hn
  rw [hring] at hflag
  have hpassed := had (.loadNumReaders n.output (sc - c.ringSlots + 1)) (by
    have hle : c.ringSlots ≤ sc := by omega
    simp [Cluster.checks, Cluster.overwriteReady, hflag, hle]) id hid
  omega

end

end Executor
end HyLink
