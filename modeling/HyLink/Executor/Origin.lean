import HyLink.Compiler.Active
import HyLink.Executor.Cursors

/-!
# Where operations come from

Every operation on a thread's list was put there for a reason: it is a start-up
store for a key of the rank's graph, it publishes a slice of one of the rank's
nodes, or it is a load of `trySubmitNode`.  Together with the bookkeeping of
`HyLink.Executor.Cursors` this holds in every reachable state (`Base`), whatever
the condition a run is under.

The module also collects the keys a cluster uses.  `DistinctWords` says that no
two of them share their words.
-/

namespace HyLink
namespace Executor

open Ir Compiler

namespace Cluster

variable (c : Cluster)

/-- The keys whose words a rank touches. -/
def usedKeys (r : ℕ) : List ProgressKey :=
  (c.graph r).activeProgressKeys ++ (c.graph r).readerAssignment.map (·.key)

/-- The keys whose words any rank touches. -/
def allKeys : List ProgressKey := (List.range c.worldSize).flatMap c.usedKeys

/-- No two chunk versions in use share their progress words. -/
def DistinctWords : Prop :=
  ∀ k ∈ c.allKeys, ∀ k' ∈ c.allKeys, wordOf k = wordOf k' → k = k'

instance : Decidable c.DistinctWords := by unfold DistinctWords; infer_instance

/-- Node `i` of rank `r` advances cursor `id` of `key`. -/
def Reads (r i : ℕ) (key : ProgressKey) (id : ℕ) : Prop :=
  ∃ n, c.node? r i = some n ∧ ∃ x ∈ n.inputs, x.key = key ∧ x.readerId = some id

end Cluster

/-- Why an operation is on the list of rank `r`. -/
def Origin (c : Cluster) (r : ℕ) : Op → Prop
  | .setNumReaders key count =>
      (key ∈ (c.graph r).activeProgressKeys ∧ count = 0) ∨
        (key ∈ (c.graph r).readerAssignment.map (·.key) ∧ count = c.plan.numReaders key)
  | .setWriteProgress key value => key ∈ (c.graph r).initialReadyInputs ∧ value = c.numSubchunks
  | .advanceWriteProgress key value =>
      (∃ i n, c.node? r i = some n ∧ n.output = key) ∧ value ≤ c.numSubchunks
  | .advanceReaderDone key id value => (∃ i, c.Reads r i key id) ∧ value ≤ c.numSubchunks
  | .scanReaders key _ _ | .scanReader key _ _ | .raiseConsumeProgress key _ =>
      ∃ i id, c.Reads r i key id
  | .loadWriteProgress key _ | .loadNumReaders key _ | .loadConsumeProgress key _ =>
      key ∈ (c.graph r).activeProgressKeys
  | _ => True

section

variable {c : Cluster} {r : ℕ} {w w' : SharedWords} {e e' : Exec} {l : Label}

/-! ## Keys of a graph -/

theorem mem_activeProgressKeys {k : ProgressKey} :
    k ∈ (c.graph r).activeProgressKeys ↔ k ∈ (c.graph r).initialReadyInputs ∨
      (∃ n ∈ (c.graph r).nodes, k ∈ nodeKeys n) ∨ k ∈ (c.graph r).terminalOutputs :=
  c.plan.mem_activeKeys

theorem mem_nodes_of_node? {i : ℕ} {n : InstructionNode} (h : c.node? r i = some n) :
    n ∈ (c.graph r).nodes := List.mem_of_getElem? h

theorem active_of_nodeKeys {i : ℕ} {n : InstructionNode} (h : c.node? r i = some n)
    {k : ProgressKey} (hk : k ∈ nodeKeys n) : k ∈ (c.graph r).activeProgressKeys :=
  mem_activeProgressKeys.2 (Or.inr (Or.inl ⟨n, mem_nodes_of_node? h, hk⟩))

theorem output_active {i : ℕ} {n : InstructionNode} (h : c.node? r i = some n) :
    n.output ∈ (c.graph r).activeProgressKeys :=
  active_of_nodeKeys h (by simp [nodeKeys])

theorem input_active {i : ℕ} {n : InstructionNode} (h : c.node? r i = some n) {x : NodeInput}
    (hx : x ∈ n.inputs) : x.key ∈ (c.graph r).activeProgressKeys := by
  refine active_of_nodeKeys h ?_
  simp only [nodeKeys, List.mem_append, List.mem_map]
  exact Or.inl (Or.inl ⟨x, hx, rfl⟩)

theorem guard_active {i : ℕ} {n : InstructionNode} (h : c.node? r i = some n) {k : ProgressKey}
    (hk : n.overwriteGuard = some k) : k ∈ (c.graph r).activeProgressKeys :=
  active_of_nodeKeys h (by simp [nodeKeys, hk])

theorem initial_active {k : ProgressKey} (hk : k ∈ (c.graph r).initialReadyInputs) :
    k ∈ (c.graph r).activeProgressKeys := mem_activeProgressKeys.2 (Or.inl hk)

theorem mem_allKeys_of_active (hr : r < c.worldSize) {k : ProgressKey}
    (hk : k ∈ (c.graph r).activeProgressKeys) : k ∈ c.allKeys :=
  List.mem_flatMap.2 ⟨r, List.mem_range.2 hr, List.mem_append_left _ hk⟩

theorem Cluster.Reads.mem_allKeys (hr : r < c.worldSize) {i id : ℕ} {k : ProgressKey}
    (h : c.Reads r i k id) : k ∈ c.allKeys := by
  obtain ⟨n, hn, x, hx, rfl, -⟩ := h
  exact mem_allKeys_of_active hr (input_active hn hx)

/-- Versions in use with the same words are the same. -/
theorem Cluster.DistinctWords.eq (hd : c.DistinctWords) {k k' : ProgressKey}
    (hk : k ∈ c.allKeys) (hk' : k' ∈ c.allKeys) (h : wordOf k = wordOf k') : k = k' :=
  hd k hk k' hk' h

/-! ## Facts about nodes -/

theorem node?_injective {r' i i' : ℕ} {n n' : InstructionNode} (h : c.node? r i = some n)
    (h' : c.node? r' i' = some n') (hout : n.output = n'.output) : r = r' ∧ i = i' :=
  c.plan.node_output_injective h h' hout

theorem Cluster.Reads.injective {r' i i' id : ℕ} {k : ProgressKey} (h : c.Reads r i k id)
    (h' : c.Reads r' i' k id) : r = r' ∧ i = i' := by
  obtain ⟨n, hn, x, hx, rfl, hid⟩ := h
  obtain ⟨n', hn', x', hx', hk, hid'⟩ := h'
  exact c.plan.node_reader_injective hn hn' hx hx' hk.symm hid hid'

theorem version_pos_of_node? {i : ℕ} {n : InstructionNode} (h : c.node? r i = some n) :
    0 < n.output.version := by
  rcases (c.plan.mem_nodes_iff).1 (mem_nodes_of_node? h) with ⟨a, ha, -, rfl⟩ | ⟨k, -, hs, rfl⟩
  · exact (c.plan.oldOutput_eq ha).2
  · rw [c.plan.copyBack_output hs]; exact Nat.one_pos

theorem version_of_initial {k : ProgressKey} (hk : k ∈ (c.graph r).initialReadyInputs) :
    k.version = 0 := by
  obtain ⟨m, -, rfl⟩ := List.mem_map.1 hk
  rfl

/-! ## Origins -/

theorem numReaders_of_readerAssignment {ch : ChunkVersion}
    (h : ch ∈ (c.graph r).readerAssignment) : ch.numReaders = c.plan.numReaders ch.key := by
  simp only [Cluster.graph, Plan.graph, readerAssignmentOf, List.mem_map] at h
  obtain ⟨k, -, rfl⟩ := h
  rfl

theorem Origin.of_startOps {op : Op} (h : op ∈ c.startOps r) : Origin c r op := by
  simp only [Cluster.startOps, List.mem_append, List.mem_cons, List.mem_map] at h
  rcases h with (⟨k, hk, rfl⟩ | ⟨ch, hch, rfl⟩) | rfl | ⟨k, hk, rfl⟩
  · exact Or.inl ⟨hk, rfl⟩
  · exact Or.inr ⟨List.mem_map_of_mem hch, numReaders_of_readerAssignment hch⟩
  · exact trivial
  · exact ⟨hk, rfl⟩

theorem Origin.of_publishOps {i sc : ℕ} {n : InstructionNode} (hn : c.node? r i = some n)
    (hsc : sc < c.numSubchunks) {op : Op} (h : op ∈ publishOps n sc) : Origin c r op := by
  simp only [publishOps, List.mem_cons, List.mem_filterMap, Option.map_eq_some_iff] at h
  rcases h with rfl | ⟨x, hx, id, hid, rfl⟩
  · exact ⟨⟨i, n, hn, rfl⟩, hsc⟩
  · exact ⟨⟨i, n, hn, x, hx, rfl, hid⟩, hsc⟩

theorem Origin.of_attemptOps {i sc : ℕ} {n : InstructionNode} (hn : c.node? r i = some n)
    {op : Op} (h : op ∈ c.attemptOps r i n sc) : Origin c r op := by
  simp only [Cluster.attemptOps, inputsReady, List.mem_append, List.mem_map] at h
  rcases h with ⟨x, hx, rfl⟩ | h | h
  · exact input_active hn hx
  · simp only [Cluster.overwriteReady, List.mem_append] at h
    rcases h with h | h
    · split at h <;> simp only [List.mem_singleton, List.not_mem_nil] at h
      subst h
      exact output_active hn
    · split at h
      · cases h
      · next guard hguard =>
        simp only [List.mem_append, List.mem_singleton] at h
        rcases h with h | rfl
        · split at h <;> simp only [List.mem_singleton, List.not_mem_nil] at h
          subst h
          exact guard_active hn hguard
        · exact guard_active hn hguard
  · simp only [Cluster.submitOps] at h
    split at h
    · rw [List.mem_singleton] at h
      subst h
      exact trivial
    · simp only [List.mem_append, Cluster.leadWindow, List.mem_singleton] at h
      rcases h with h | h
      · split at h <;> simp only [List.mem_singleton, List.not_mem_nil] at h
        subst h
        exact output_active hn
      · split at h <;> subst h <;> exact trivial

theorem Origin.of_fresh (ht : Tidy c r e) (ho : ∀ op ∈ e.todo, Origin c r op) {op : Op}
    (h : Fresh c r w e l op) : Origin c r op := by
  have hhead : ∀ {op}, e.todo.head? = some op → Origin c r op := fun h =>
    ho _ (List.mem_of_mem_head? h)
  cases h with
  | start hop => exact .of_startOps hop
  | attempt _ _ hn hop => exact .of_attemptOps hn hop
  | poll _ hentry _ hn hop =>
    refine .of_publishOps hn ?_ hop
    exact (ht.issued _ _ (List.mem_of_getElem? hentry)).trans_le (ht.next_le _)
  | finish hd hn hop => exact .of_publishOps hn (submits_head ht hd rfl) hop
  | scan hd =>
    obtain ⟨i, hi⟩ := (hhead hd).1
    exact ⟨i, _, hi⟩
  | scanReader hd =>
    have ho := hhead hd
    exact ho
  | scanEnd hd =>
    have ho := hhead hd
    exact ho
  | scanNext hd =>
    have ho := hhead hd
    exact ho
  | consume hd =>
    have ho := hhead hd
    exact ho
  | samePlace => exact trivial
  | record _ _ hop =>
    simp only [remoteReady, List.mem_append, List.mem_singleton] at hop
    rcases hop with hop | rfl
    · split at hop <;> simp only [List.mem_singleton, List.not_mem_nil] at hop
      subst hop
      exact trivial
    · exact trivial

/-! ## Cursors only rise -/

/-- The cursors of `w'` are at or past those of `w`. -/
structure Words.Le (w w' : SharedWords) : Prop where
  write : ∀ key, w.getWriteProgress key ≤ w'.getWriteProgress key
  done : ∀ id key, w.getReaderDone id key ≤ w'.getReaderDone id key
  consume : ∀ key, w.getConsumeProgress key ≤ w'.getConsumeProgress key

/-- Initial inputs are published as a whole, so even that store raises the cursor. -/
theorem Stores.le (h : Stores w w' e) (ho : ∀ op ∈ e.todo, Origin c r op)
    (hb : ∀ key, w.getWriteProgress key ≤ c.numSubchunks) : Words.Le w w' := by
  refine ⟨fun key => ?_, fun id key => ?_, fun key => ?_⟩
  · rcases h.writeProgress key with heq | ⟨k, v, -, ⟨hhead, heq⟩ | ⟨-, heq⟩⟩
    · exact heq.ge
    · obtain ⟨-, rfl⟩ := ho _ (List.mem_of_mem_head? hhead)
      exact (hb key).trans heq.ge
    · exact (le_max_left _ _).trans heq.ge
  · rcases h.readerDone id key with heq | ⟨k, v, -, -, heq⟩
    · exact heq.ge
    · exact (le_max_left _ _).trans heq.ge
  · rcases h.consumeProgress key with heq | ⟨k, v, -, -, heq⟩
    · exact heq.ge
    · exact (le_max_left _ _).trans heq.ge

theorem Stores.bounded (h : Stores w w' e) (ho : ∀ op ∈ e.todo, Origin c r op)
    (hb : ∀ key, w.getWriteProgress key ≤ c.numSubchunks) (key : ProgressKey) :
    w'.getWriteProgress key ≤ c.numSubchunks := by
  rcases h.writeProgress key with heq | ⟨k, v, -, ⟨hhead, heq⟩ | ⟨hhead, heq⟩⟩
  · exact heq.trans_le (hb key)
  · obtain ⟨-, rfl⟩ := ho _ (List.mem_of_mem_head? hhead)
    exact heq.le
  · obtain ⟨-, hv⟩ := ho _ (List.mem_of_mem_head? hhead)
    exact heq.trans_le (max_le (hb key) hv)

/-! ## The unconditional invariant -/

/-- What holds in every reachable state. -/
structure Base (c : Cluster) (s : State) : Prop where
  tidy : ∀ r, Tidy c r (s.execs r)
  origin : ∀ r, ∀ op ∈ (s.execs r).todo, Origin c r op
  bounded : ∀ key, s.words.getWriteProgress key ≤ c.numSubchunks

theorem Base.init (stale : Word → ℕ) : Base c (State.init stale) :=
  ⟨fun _ => Tidy.init, by simp [State.init], fun _ => Nat.zero_le _⟩

theorem Base.step {s s' : State} (h : Base c s) (hstep : c.machine.step s l = some s') :
    Base c s' := by
  obtain ⟨-, w, e, hlocal, rfl⟩ := step_cases hstep
  have key : Tidy c l.rank e ∧ ∀ op ∈ e.todo, Origin c l.rank op := by
    refine ⟨(h.tidy _).of_localStep hlocal, fun op hop => ?_⟩
    rcases Fresh.of_mem_todo hlocal hop with hop | hf
    · exact h.origin _ op hop
    · exact .of_fresh (h.tidy _) (h.origin _) hf
  constructor
  · intro r
    by_cases hr : r = l.rank
    · subst hr; simpa using key.1
    · simpa [hr] using h.tidy r
  · intro r
    by_cases hr : r = l.rank
    · subst hr; simpa using key.2
    · simpa [hr] using h.origin r
  · exact (Stores.of_localStep hlocal).bounded (h.origin _) h.bounded

end

end Executor
end HyLink
