import HyLink.Executor.Obligations
import HyLink.Executor.Readers

/-!
# Progress

When no work is in flight and no thread has anything left to do, all that has been
submitted has been published, the consume cursors have caught up with the reader
cursors, and every reader count is the compiled one.  Then the next subchunk of some
unfinished node can be submitted: of the nodes with the lowest subchunk cursor, one
that waits for none of the others.  The throttles — a node's own cursor, the ring
slots, the D2H lead window — only ever wait for lower subchunks, and the event rings
are empty.

* `Quiet.of_owed` — the cursors of a quiet state.
* `exists_enabled` — a quiet, unfinished cluster has a thread that can submit.
-/

namespace HyLink
namespace Executor

open Ir Compiler

/-! ## Waiting -/

/-- A node waits for another: for its output, or for its being through with the version
the node overwrites. -/
def WaitsOn (n m : InstructionNode) : Prop :=
  (∃ x ∈ n.inputs, x.key = m.output) ∨
    ∃ guard ∈ n.overwriteGuard, guard = m.output ∨
      ∃ x ∈ m.inputs, x.key = guard ∧ x.readerId ≠ none

instance (n m : InstructionNode) : Decidable (WaitsOn n m) := by
  unfold WaitsOn; infer_instance

namespace Cluster

variable (c : Cluster)

/-- The dependencies between the nodes of all ranks: inputs and overwrite guards. -/
def Waits (b a : ℕ × ℕ) : Prop :=
  b.1 < c.worldSize ∧ a.1 < c.worldSize ∧
    ∃ n ∈ c.node? b.1 b.2, ∃ m ∈ c.node? a.1 a.2, WaitsOn n m

instance (b a : ℕ × ℕ) : Decidable (c.Waits b a) := by unfold Waits; infer_instance

/-- What a program and its buffers have to provide. -/
structure WellPosed : Prop where
  words : c.DistinctWords
  /-- Every instruction is executed by a rank of the world. -/
  ranks : RanksInWorld c.env c.program c.worldSize
  /-- Every version that is read is written, or is there from the start. -/
  sources : ∀ r < c.worldSize, ∀ n ∈ (c.graph r).nodes, ∀ x ∈ n.inputs,
    (∃ r' < c.worldSize, ∃ m ∈ (c.graph r').nodes, m.output = x.key) ∨
      ∃ r' < c.worldSize, x.key ∈ (c.graph r').initialReadyInputs
  /-- Peer copies are between ranks of the world. -/
  peers : ∀ r < c.worldSize, ∀ n ∈ (c.graph r).nodes, n.op = .d2d → remoteRank n < c.worldSize
  /-- No buffer is null. -/
  bound : ∀ r < c.worldSize, ∀ n ∈ (c.graph r).nodes, ∀ sc < c.numSubchunks,
    c.resolve r n.output.base sc n.outputRingBuffered ≠ none ∧
      ∀ x ∈ n.inputs, c.resolve r x.key.base sc x.ringBuffered ≠ none

end Cluster

/-- Nothing is in flight, and no thread has anything left to do. -/
structure Quiet (c : Cluster) (s : State) : Prop where
  idle : ∀ r < c.worldSize, (s.execs r).idle = true
  landed : ∀ r < c.worldSize, ∀ q, (s.execs r).inflight q = []

section

variable {c : Cluster} {s s' : State} {r i : ℕ}

/-! ## The cursors of a quiet state -/

theorem Quiet.todo (h : Quiet c s) (hr : r < c.worldSize) : (s.execs r).todo = [] :=
  todo_of_idle (h.idle r hr)

theorem Quiet.not_flying (h : Quiet c s) (hr : r < c.worldSize) {sc : ℕ} :
    ¬ Flying (s.execs r) i sc := by
  rintro ⟨q, x, hx, -⟩
  rw [h.landed r hr q] at hx
  cases hx

theorem Quiet.next_le_write (h : Quiet c s) (ho : Owed c s) (hr : r < c.worldSize)
    {n : InstructionNode} (hn : c.node? r i = some n) :
    (s.execs r).next i ≤ s.words.getWriteProgress n.output := by
  by_contra hlt
  rcases ho.written r hr i n hn _ (Nat.lt_of_not_le hlt) with hw | hf | ⟨v, -, hop⟩
  · exact absurd hw (lt_irrefl _)
  · exact h.not_flying hr hf
  · rw [h.todo hr] at hop; cases hop

theorem Quiet.next_le_done (h : Quiet c s) (ho : Owed c s) (hr : r < c.worldSize) {id : ℕ}
    {key : ProgressKey} (hreads : c.Reads r i key id) :
    (s.execs r).next i ≤ s.words.getReaderDone id key := by
  by_contra hlt
  rcases ho.read r hr i key id hreads _ (Nat.lt_of_not_le hlt) with hw | hf | ⟨v, -, hop⟩
  · exact absurd hw (lt_irrefl _)
  · exact h.not_flying hr hf
  · rw [h.todo hr] at hop; cases hop

/-- When all readers of a key have submitted `v` slices, its consume cursor is at `v`. -/
theorem Quiet.le_consume (h : Quiet c s) (ho : Owed c s)
    (hranks : RanksInWorld c.env c.program c.worldSize) {key : ProgressKey}
    (hkey : key ∈ c.allKeys) (hpos : 0 < c.plan.numReaders key) {v : ℕ}
    (hv : ∀ r < c.worldSize, ∀ i id, c.Reads r i key id → v ≤ (s.execs r).next i) :
    v ≤ s.words.getConsumeProgress key := by
  have hdone : ∀ id < c.plan.numReaders key, v ≤ s.words.getReaderDone id key := by
    intro id hid
    obtain ⟨r, hr, i, n, hn, x, hx, hk, hxid⟩ := c.plan.exists_reader_node hranks hid
    have hreads : c.Reads r i key id := ⟨n, hn, x, hx, hk, hxid⟩
    exact (hv r hr i id hreads).trans (h.next_le_done ho hr hreads)
  rcases ho.consumed key hkey hpos v hdone with hc | ⟨r, hr, op, hop, -⟩
  · exact hc
  · rw [h.todo hr] at hop; cases hop

theorem Quiet.numReaders_eq (h : Quiet c s) (ho : Owed c s) (hr : r < c.worldSize)
    {key : ProgressKey} (hkey : key ∈ (c.graph r).activeProgressKeys) :
    s.words.getNumReaders key = c.plan.numReaders key := by
  rcases ho.settled r hr (started_of_idle (h.idle r hr)) key hkey with hset | ⟨r', hr', hop⟩
  · exact hset
  · rw [h.todo hr'] at hop; cases hop

theorem Quiet.initial_eq (h : Quiet c s) (ho : Owed c s) (hr : r < c.worldSize)
    {key : ProgressKey} (hkey : key ∈ (c.graph r).initialReadyInputs) :
    s.words.getWriteProgress key = c.numSubchunks := by
  refine (ho.initial r hr (started_of_idle (h.idle r hr)) key hkey).resolve_left fun hop => ?_
  rw [h.todo hr] at hop
  cases hop

theorem Quiet.userReady (h : Quiet c s) (ho : Owed c s) (hr : r < c.worldSize) :
    s.words.userReady r = true := by
  refine (ho.ready r hr (started_of_idle (h.idle r hr))).resolve_left fun hop => ?_
  rw [h.todo hr] at hop
  cases hop

/-! ## A thread on its own -/

/-- A load that goes through. -/
def Op.Ready (w : SharedWords) : Op → Prop
  | .loadWriteProgress key value => value ≤ w.getWriteProgress key
  | .loadNumReaders key value => w.getNumReaders key = 0 ∨ value ≤ w.getConsumeProgress key
  | .loadUserReady rank => w.userReady rank = true
  | _ => False

/-- Left to itself, the thread of rank `r` submits the next subchunk of node `i`. -/
def Submits (c : Cluster) (s : State) (r i : ℕ) : Prop :=
  ∃ k s', c.machine.runFrom Theory.Machine.anyStep s (List.replicate k (.run r)) = some s' ∧
    (s'.execs r).next i = (s.execs r).next i + 1

/-- The state after an operation of the thread of rank `r`. -/
def State.put (s : State) (r : ℕ) (e : Exec) : State :=
  { s with execs := Function.update s.execs r e }

theorem State.put_put (s : State) (r : ℕ) (e e' : Exec) : (s.put r e).put r e' = s.put r e' := by
  simp [State.put]

@[simp] theorem State.put_execs (s : State) (r : ℕ) (e : Exec) : (s.put r e).execs r = e := by
  simp [State.put]

@[simp] theorem State.put_words (s : State) (r : ℕ) (e : Exec) : (s.put r e).words = s.words := rfl

theorem step_run (hr : r < c.worldSize) {op : Op} {rest : List Op}
    (htodo : (s.execs r).todo = op :: rest) {e : Exec}
    (hrun : c.runOp r s.words (s.execs r) rest op = (s.words, e)) :
    c.machine.step s (.run r) = some (s.put r e) := by
  simp only [Cluster.machine, Cluster.step, Label.rank, if_pos hr, Cluster.localStep, htodo, hrun,
    Option.map_some, State.put]

theorem Submits.of_step {e : Exec}
    (hstep : c.machine.step s (.run r) = some (s.put r e)) (hnext : e.next i = (s.execs r).next i)
    (h : Submits c (s.put r e) r i) : Submits c s r i := by
  obtain ⟨k, s', hrun, hs'⟩ := h
  refine ⟨k + 1, s', ?_, ?_⟩
  · rw [List.replicate_succ, Theory.Machine.runFrom_cons_eq_some]
    exact ⟨rfl, _, hstep, hrun⟩
  · rw [hs', State.put_execs, hnext]

theorem Submits.of_last {e : Exec} (hstep : c.machine.step s (.run r) = some (s.put r e))
    (hnext : e.next i = (s.execs r).next i + 1) : Submits c s r i := by
  refine ⟨1, s.put r e, ?_, by rw [State.put_execs, hnext]⟩
  rw [List.replicate_one, Theory.Machine.runFrom_cons_eq_some]
  exact ⟨rfl, _, hstep, rfl⟩

/-- The state in which the thread of rank `r` goes on with `ops`. -/
def State.goOn (s : State) (r : ℕ) (ops : List Op) : State :=
  s.put r { s.execs r with todo := ops }

theorem State.goOn_goOn (s : State) (r : ℕ) (ops ops' : List Op) :
    (s.goOn r ops).goOn r ops' = s.goOn r ops' := by
  simp [State.goOn, State.put_put]

theorem State.goOn_self {ops : List Op} (h : (s.execs r).todo = ops) : s.goOn r ops = s := by
  simp [State.goOn, State.put, ← h]

@[simp] theorem State.goOn_todo (s : State) (r : ℕ) (ops : List Op) :
    ((s.goOn r ops).execs r).todo = ops := by simp [State.goOn]

@[simp] theorem State.goOn_words (s : State) (r : ℕ) (ops : List Op) :
    (s.goOn r ops).words = s.words := rfl

theorem Submits.of_goOn (ops : List Op) (hr : r < c.worldSize) {op : Op} {rest : List Op}
    (htodo : (s.execs r).todo = op :: rest)
    (hrun : c.runOp r s.words (s.execs r) rest op =
      (s.words, { s.execs r with todo := ops }))
    (h : Submits c (s.goOn r ops) r i) : Submits c s r i :=
  h.of_step (step_run hr htodo hrun) rfl

/-- Loads that go through lead to what stands behind them. -/
theorem Submits.of_loads (hr : r < c.worldSize) (rest : List Op) :
    ∀ {ops : List Op} {s : State}, (∀ op ∈ ops, op.Ready s.words) →
      (s.execs r).todo = ops ++ rest → Submits c (s.goOn r rest) r i → Submits c s r i
  | [], s, _, htodo, h => by
    rw [List.nil_append] at htodo
    rwa [State.goOn_self htodo] at h
  | op :: ops, s, hready, htodo, h => by
    have hop := hready op List.mem_cons_self
    have hrest : Submits c (s.goOn r (ops ++ rest)) r i := by
      refine Submits.of_loads hr rest
        (fun op hop => hready op (List.mem_cons_of_mem _ hop)) (State.goOn_todo _ _ _) ?_
      rwa [State.goOn_goOn]
    rw [List.cons_append] at htodo
    cases op with
    | loadWriteProgress key value =>
      have hop : value ≤ s.words.getWriteProgress key := hop
      exact hrest.of_goOn _ hr htodo (by simp only [Cluster.runOp, if_pos hop])
    | loadNumReaders key value =>
      by_cases h0 : s.words.getNumReaders key = 0
      · exact hrest.of_goOn _ hr htodo (by simp only [Cluster.runOp, if_pos h0])
      · have hop : value ≤ s.words.getConsumeProgress key :=
          (show _ ∨ _ from hop).resolve_left h0
        refine Submits.of_goOn (.loadConsumeProgress key value :: (ops ++ rest)) hr htodo
          (by simp only [Cluster.runOp, if_neg h0]) ?_
        refine Submits.of_goOn (ops ++ rest) hr (State.goOn_todo _ _ _) ?_ ?_
        · simp [Cluster.runOp, hop]
        · rwa [State.goOn_goOn]
    | loadUserReady rank =>
      have hop : s.words.userReady rank = true := hop
      exact hrest.of_goOn _ hr htodo (by simp only [Cluster.runOp, hop, if_true])
    | _ => cases hop

/-! ## Submitting -/

theorem inputs_ne_nil {n : InstructionNode} (hn : c.node? r i = some n) : n.inputs ≠ [] := by
  rcases (c.plan.mem_nodes_iff).1 (mem_nodes_of_node? hn) with ⟨a, ha, -, rfl⟩ | ⟨k, -, -, rfl⟩
  · obtain ⟨mid, post, -, hat⟩ := c.plan.assignedFrom.exists_split ha
    have hne : inputBases c.graphOptions c.program c.worldSize a.inst ≠ [] := by
      have := c.plan.op_ne_nop ha
      simp only [inputBases]
      split <;> simp_all
    intro hnil
    have hkeys := hat.inputs
    have hinputs : a.inputs = [] := by
      simpa [Plan.instNode, instantiateNode] using hnil
    rw [hinputs, List.map_nil, eq_comm, List.map_eq_nil_iff] at hkeys
    exact hne hkeys
  · rw [c.plan.copyBack_input]
    exact List.cons_ne_nil _ _

theorem Submits.of_finishNow (hr : r < c.worldSize) {n : InstructionNode}
    (hn : c.node? r i = some n) {rest : List Op} (htodo : (s.execs r).todo = .finishNow i :: rest) :
    Submits c s r i := by
  refine Submits.of_last (step_run hr htodo (e := (s.execs r).finish i
    (publishOps n ((s.execs r).next i))) ?_) ?_
  · simp only [Cluster.runOp, hn]
  · simp [Exec.finish]

theorem push_next (e : Exec) (q : Queue) (i : ℕ) (shares : List Share) :
    (e.push q i shares).next i = e.next i + 1 := by simp [Exec.push]

theorem Submits.of_recordDma (hr : r < c.worldSize) {n : InstructionNode}
    (hn : c.node? r i = some n) {rest : List Op} (htodo : (s.execs r).todo = .recordDma i :: rest) :
    Submits c s r i := by
  refine Submits.of_last (step_run hr htodo (e := (s.execs r).push (queueOf n) i
    (c.sharesOf n (c.subchunkSize n ((s.execs r).next i)))) ?_) (push_next _ _ _ _)
  simp only [Cluster.runOp, hn]

/-- Whether the buffers of the next slice of a node have addresses. -/
def Resolved (c : Cluster) (s : State) (r i : ℕ) (n : InstructionNode) : Prop :=
  c.resolve r n.output.base ((s.execs r).next i) n.outputRingBuffered ≠ none ∧
    ∀ x ∈ n.inputs, c.resolve r x.key.base ((s.execs r).next i) x.ringBuffered ≠ none

theorem Submits.of_submitH2h (hr : r < c.worldSize) {n : InstructionNode}
    (hn : c.node? r i = some n) (hop : n.op = .h2h ∨ n.op = .h2hReduce)
    (hresolved : Resolved c s r i n) {rest : List Op}
    (htodo : (s.execs r).todo = .submitH2h i :: rest) : Submits c s r i := by
  have haccepted : ¬ (¬ (n.op = .h2h ∨ n.op = .h2hReduce) ∨ n.inputs = [] ∨
      c.resolve r n.output.base ((s.execs r).next i) n.outputRingBuffered = none ∨
      ∃ x ∈ n.inputs, c.resolve r x.key.base ((s.execs r).next i) x.ringBuffered = none) := by
    rintro (h | h | h | ⟨x, hx, h⟩)
    · exact h hop
    · exact inputs_ne_nil hn h
    · exact hresolved.1 h
    · exact hresolved.2 x hx h
  refine Submits.of_last (step_run hr htodo (e := (s.execs r).push (queueOf n) i
    (c.sharesOf n (c.subchunkSize n ((s.execs r).next i)))) ?_) (push_next _ _ _ _)
  simp only [Cluster.runOp, hn, if_neg haccepted]

theorem Submits.of_submitDma (hr : r < c.worldSize) {n : InstructionNode}
    (hn : c.node? r i = some n) (hring : (s.execs r).inflight (queueOf n) = [])
    (hresolved : Resolved c s r i n) (hremote : ∀ op ∈ remoteReady n, op.Ready s.words)
    {rest : List Op} (htodo : (s.execs r).todo = .submitDma i :: rest) : Submits c s r i := by
  obtain ⟨x, xs, hinputs⟩ := List.exists_cons_of_ne_nil (inputs_ne_nil hn)
  obtain ⟨dst, hdst⟩ := Option.ne_none_iff_exists'.1 hresolved.1
  obtain ⟨src, hsrc⟩ := Option.ne_none_iff_exists'.1
    (hresolved.2 x (by rw [hinputs]; exact List.mem_cons_self))
  have hroom : ¬ eventRingCapacity ≤ ((s.execs r).inflight (queueOf n)).length := by
    rw [hring]; decide
  by_cases hsame : n.op = .d2d ∧ n.d2dPlacement = .local ∧ src = dst
  · refine Submits.of_goOn [.finishNow i] hr htodo ?_
      (.of_finishNow hr hn (State.goOn_todo _ _ _))
    simp only [Cluster.runOp, hn, if_neg hroom, hdst, hinputs, List.head?_cons, Option.bind_some,
      hsrc, if_pos hsame]
  · refine Submits.of_goOn (remoteReady n ++ [.recordDma i]) hr htodo ?_ ?_
    · simp only [Cluster.runOp, hn, if_neg hroom, hdst, hinputs, List.head?_cons,
        Option.bind_some, hsrc, if_neg hsame]
    · refine Submits.of_loads hr [.recordDma i] hremote (State.goOn_todo _ _ _) ?_
      exact .of_recordDma hr hn (State.goOn_todo _ _ _)

/-- A node whose loads go through is submitted. -/
theorem exists_submit (hr : r < c.worldSize) {n : InstructionNode} (hn : c.node? r i = some n)
    (hidle : (s.execs r).idle = true) (hlt : (s.execs r).next i < c.numSubchunks)
    (hring : (s.execs r).inflight (queueOf n) = []) (hresolved : Resolved c s r i n)
    (hchecks : ∀ op ∈ c.checks n ((s.execs r).next i), op.Ready s.words)
    (hlead : ∀ op ∈ c.leadWindow r n ((s.execs r).next i), op.Ready s.words)
    (hremote : ∀ op ∈ remoteReady n, op.Ready s.words) :
    ∃ k s', c.machine.runFrom Theory.Machine.anyStep s
        (.attempt r i :: List.replicate k (.run r)) = some s' ∧
      (s'.execs r).next i = (s.execs r).next i + 1 := by
  have hattempt : c.machine.step s (.attempt r i) =
      some (s.goOn r (c.attemptOps r i n ((s.execs r).next i))) := by
    simp only [Cluster.machine, Cluster.step, Label.rank, if_pos hr, Cluster.localStep, hidle,
      hlt, hn, Option.map_some, and_self, if_true]
    rfl
  have hnext : ∀ ops, ((s.goOn r ops).execs r).next = (s.execs r).next := fun ops => by
    simp [State.goOn]
  have hinflight : ∀ ops, ((s.goOn r ops).execs r).inflight = (s.execs r).inflight := fun ops => by
    simp [State.goOn]
  have hsubmit : Submits c (s.goOn r (c.attemptOps r i n ((s.execs r).next i))) r i := by
    refine Submits.of_loads hr (c.submitOps r i n ((s.execs r).next i)) hchecks
      (by rw [State.goOn_todo, attemptOps_eq]) ?_
    rw [State.goOn_goOn]
    by_cases himm : c.immediate n ((s.execs r).next i) = true
    · have htodo : ((s.goOn r (c.submitOps r i n ((s.execs r).next i))).execs r).todo =
          [.finishNow i] := by rw [State.goOn_todo, Cluster.submitOps, if_pos himm]
      exact .of_finishNow hr hn htodo
    · have hresolved' : ∀ ops, Resolved c (s.goOn r ops) r i n := fun ops => by
        rw [Resolved, hnext]; exact hresolved
      by_cases hop : n.op = .h2h ∨ n.op = .h2hReduce
      · refine Submits.of_loads hr [.submitH2h i] hlead ?_ ?_
        · rw [State.goOn_todo, Cluster.submitOps, if_neg himm, if_pos hop]
        · rw [State.goOn_goOn]
          exact .of_submitH2h hr hn hop (hresolved' _) (State.goOn_todo _ _ _)
      · refine Submits.of_loads hr [.submitDma i] hlead ?_ ?_
        · rw [State.goOn_todo, Cluster.submitOps, if_neg himm, if_neg hop]
        · rw [State.goOn_goOn]
          refine .of_submitDma hr hn ?_ (hresolved' _) hremote (State.goOn_todo _ _ _)
          rw [hinflight]
          exact hring
  obtain ⟨k, s', hrun, hs'⟩ := hsubmit
  refine ⟨k, s', ?_, by rw [hs', hnext]⟩
  rw [Theory.Machine.runFrom_cons_eq_some]
  exact ⟨rfl, _, hattempt, hrun⟩

/-! ## The node to go on with -/

/-- A guarded version that is not the first has its node. -/
theorem exists_guard_producer (hranks : RanksInWorld c.env c.program c.worldSize)
    {n : InstructionNode} (hn : c.node? r i = some n) {guard : ProgressKey}
    (hguard : n.overwriteGuard = some guard) (hpos : 0 < guard.version) :
    ∃ r' < c.worldSize, ∃ i' m, c.node? r' i' = some m ∧ m.output = guard := by
  have hproducer : guard.version ≤ c.plan.finalVersion guard.base →
      ∃ r' < c.worldSize, ∃ i' m, c.node? r' i' = some m ∧ m.output = guard := fun hle => by
    obtain ⟨a, ha, hout⟩ := c.plan.exists_producer hpos hle
    obtain ⟨r', hr', hexec⟩ := c.plan.exists_executionRank hranks ha
    obtain ⟨i', hnode⟩ := c.plan.exists_node ha hexec
    exact ⟨r', hr', i', _, hnode, hout⟩
  rcases (c.plan.mem_nodes_iff).1 (mem_nodes_of_node? hn) with ⟨a, ha, -, rfl⟩ | ⟨k, -, hs, rfl⟩
  · rw [c.plan.instNode_guard ha, Option.some.injEq] at hguard
    subst hguard
    exact hproducer ((Nat.sub_le _ _).trans (c.plan.version_le ha))
  · rw [c.plan.copyBack_guard hs, Option.some.injEq] at hguard
    split at hguard <;> subst hguard
    · exact hproducer le_rfl
    · exact absurd hpos (lt_irrefl _)

/-- The nodes of the world. -/
def Cluster.nodeIndices (c : Cluster) : List (ℕ × ℕ) :=
  (List.range c.worldSize).flatMap fun r => (List.range (c.graph r).nodes.length).map (r, ·)

theorem mem_nodeIndices {a : ℕ × ℕ} :
    a ∈ c.nodeIndices ↔ a.1 < c.worldSize ∧ ∃ n, c.node? a.1 a.2 = some n := by
  obtain ⟨r, i⟩ := a
  simp only [Cluster.nodeIndices, List.mem_flatMap, List.mem_range, List.mem_map, Prod.mk.injEq,
    Cluster.node?]
  constructor
  · rintro ⟨r', hr', i', hi', rfl, rfl⟩
    exact ⟨hr', _, List.getElem?_eq_getElem hi'⟩
  · rintro ⟨hr, n, hn⟩
    exact ⟨r, hr, i, (List.getElem?_eq_some_iff.1 hn).1, rfl, rfl⟩

/-- Of the unfinished nodes with the lowest cursor, one waits for none of the others. -/
theorem exists_lowest (hacyclic : ∀ a, ¬ Relation.TransGen c.Waits a a) (next : ℕ × ℕ → ℕ)
    (hleft : ∃ a ∈ c.nodeIndices, next a < c.numSubchunks) :
    ∃ a ∈ c.nodeIndices, next a < c.numSubchunks ∧
      (∀ b ∈ c.nodeIndices, next a ≤ next b) ∧
      ∀ b ∈ c.nodeIndices, c.Waits a b → next a < next b := by
  classical
  have hexists : ∃ k, ∃ a ∈ c.nodeIndices, next a = k ∧ k < c.numSubchunks := by
    obtain ⟨a, ha, hlt⟩ := hleft
    exact ⟨next a, a, ha, rfl, hlt⟩
  set k := Nat.find hexists with hk
  obtain ⟨a₀, ha₀, hnext₀, hlt₀⟩ := Nat.find_spec hexists
  have hlow : ∀ b ∈ c.nodeIndices, k ≤ next b := fun b hb => by
    by_cases hlt : next b < c.numSubchunks
    · exact Nat.find_min' hexists ⟨b, hb, rfl, hlt⟩
    · exact (hlt₀.trans_le (Nat.le_of_not_lt hlt)).le
  have hfin : {b | b ∈ c.nodeIndices ∧ next b = k}.Finite :=
    (List.finite_toSet c.nodeIndices).subset fun b hb => hb.1
  obtain ⟨m, ⟨hm, hmk⟩, hmin⟩ :=
    Theory.exists_minimal_pending hfin ⟨a₀, ha₀, hnext₀⟩ hacyclic
  refine ⟨m, hm, hmk ▸ hlt₀, fun b hb => hmk ▸ hlow b hb, fun b hb hw => ?_⟩
  have hne : next b ≠ k := fun heq => hmin b ⟨hb, heq⟩ hw
  have := hlow b hb
  omega

end

/-- **Deadlock freedom.**  Of a well-posed program without a cycle of dependencies, every
reachable state in which no work is in flight, no thread has anything left to do and some
node is unfinished has a thread that can submit a node's next subchunk. -/
theorem exists_enabled {c : Cluster} (hp : c.WellPosed)
    (hacyclic : ∀ a, ¬ Relation.TransGen c.Waits a a) {stale : Word → ℕ} {ls : List Label}
    {s : State} (hrun : c.machine.runFrom Theory.Machine.anyStep (State.init stale) ls = some s)
    (hq : Quiet c s)
    (hleft : ∃ r < c.worldSize, ∃ i n, c.node? r i = some n ∧
      (s.execs r).completed i < c.numSubchunks) :
    ∃ r < c.worldSize, ∃ i k s', c.machine.runFrom Theory.Machine.anyStep s
        (.attempt r i :: List.replicate k (.run r)) = some s' ∧
      (s'.execs r).next i = (s.execs r).next i + 1 := by
  obtain ⟨hb, ho⟩ : Base c s ∧ Owed c s :=
    c.machine.invariant (I := fun s => Base c s ∧ Owed c s)
      (fun s l s' h _ hstep => ⟨h.1.step hstep, h.2.step hp.words h.1 hstep⟩)
      ⟨Base.init stale, Owed.init stale⟩ hrun
  obtain ⟨r₁, hr₁, i₁, n₁, hn₁, hlt₁⟩ := hleft
  have hnext₁ : (s.execs r₁).next i₁ < c.numSubchunks := by
    have := (hb.tidy r₁).completed i₁ n₁ hn₁
    rw [hq.landed r₁ hr₁] at this
    simp only [List.countP_nil, Nat.add_zero] at this
    omega
  obtain ⟨⟨r, i⟩, hmem, hlt, hlow, hwaits⟩ := exists_lowest hacyclic
    (fun a => (s.execs a.1).next a.2) ⟨(r₁, i₁), mem_nodeIndices.2 ⟨hr₁, n₁, hn₁⟩, hnext₁⟩
  obtain ⟨hr, n, hn⟩ := mem_nodeIndices.1 hmem
  simp only at hr hn hlt hlow hwaits
  -- a node that is waited for is past the subchunk, any other has reached it
  have hpast : ∀ r' < c.worldSize, ∀ i' m, c.node? r' i' = some m → WaitsOn n m →
      (s.execs r).next i + 1 ≤ (s.execs r').next i' := fun r' hr' i' m hm hw =>
    hwaits (r', i') (mem_nodeIndices.2 ⟨hr', m, hm⟩) ⟨hr, hr', n, hn, m, hm, hw⟩
  have hreached : ∀ r' < c.worldSize, ∀ i' key id, c.Reads r' i' key id →
      (s.execs r).next i ≤ (s.execs r').next i' := by
    rintro r' hr' i' key id ⟨m, hm, -⟩
    exact hlow (r', i') (mem_nodeIndices.2 ⟨hr', m, hm⟩)
  have hcount : ∀ {key v}, key ∈ (c.graph r).activeProgressKeys →
      (∀ r' < c.worldSize, ∀ i' id, c.Reads r' i' key id → v ≤ (s.execs r').next i') →
      Op.Ready s.words (.loadNumReaders key v) := fun {key v} hkey hv => by
    rcases Nat.eq_zero_or_pos (c.plan.numReaders key) with h0 | hpos
    · exact Or.inl ((hq.numReaders_eq ho hr hkey).trans h0)
    · exact Or.inr (hq.le_consume ho hp.ranks (mem_allKeys_of_active hr hkey) hpos hv)
  have hnode := mem_nodes_of_node? hn
  refine ⟨r, hr, i, exists_submit hr hn (hq.idle r hr) hlt (hq.landed r hr _) ?_ ?_ ?_ ?_⟩
  · exact hp.bound r hr n hnode _ hlt
  · intro op hop
    simp only [Cluster.checks, inputsReady, Cluster.overwriteReady, List.mem_append,
      List.mem_map] at hop
    rcases hop with ⟨x, hx, rfl⟩ | hop | hop
    · rcases hp.sources r hr n hnode x hx with ⟨r', hr', m, hm, hout⟩ | ⟨r', hr', hinit⟩
      · obtain ⟨i', hi'⟩ := List.getElem?_of_mem hm
        have hm' : c.node? r' i' = some m := hi'
        have := hpast r' hr' i' m hm' (Or.inl ⟨x, hx, hout.symm⟩)
        exact this.trans (hout ▸ hq.next_le_write ho hr' hm')
      · exact (hq.initial_eq ho hr' hinit).ge.trans' hlt
    · split at hop <;> simp only [List.mem_singleton, List.not_mem_nil] at hop
      next hring =>
      subst hop
      refine hcount (output_active hn) fun r' hr' i' id hreads => ?_
      have := hreached r' hr' i' _ id hreads
      have hslots := two_le_pcclRingSlotsFor c.env
      have : c.ringSlots ≤ (s.execs r).next i := hring.2
      have : 2 ≤ c.ringSlots := hslots
      omega
    · split at hop
      · cases hop
      · next guard hguard =>
        simp only [List.mem_append, List.mem_singleton] at hop
        rcases hop with hop | rfl
        · split at hop <;> simp only [List.mem_singleton, List.not_mem_nil] at hop
          next hpos =>
          subst hop
          obtain ⟨r', hr', i', m, hm, hout⟩ := exists_guard_producer hp.ranks hn hguard hpos
          have := hpast r' hr' i' m hm (Or.inr ⟨guard, hguard, Or.inl hout.symm⟩)
          exact this.trans (hout ▸ hq.next_le_write ho hr' hm)
        · refine hcount (guard_active hn hguard) fun r' hr' i' id hreads => ?_
          obtain ⟨m, hm, x, hx, hk, hid⟩ := hreads
          exact hpast r' hr' i' m hm (Or.inr ⟨guard, hguard, Or.inr ⟨x, hx, hk, by simp [hid]⟩⟩)
  · intro op hop
    simp only [Cluster.leadWindow] at hop
    split at hop <;> simp only [List.mem_singleton, List.not_mem_nil] at hop
    subst hop
    refine hcount (output_active hn) fun r' hr' i' id hreads => ?_
    have := hreached r' hr' i' _ id hreads
    have : 0 < d2hLeadWindow := by decide
    omega
  · intro op hop
    simp only [remoteReady] at hop
    split at hop <;> simp only [List.mem_singleton, List.not_mem_nil] at hop
    next hpeer =>
    subst hop
    have hlt := hp.peers r hr n hnode hpeer.1
    have hready := hq.userReady ho (r := (remoteRank n).toNat) (by omega)
    rwa [Int.toNat_of_nonneg hpeer.2.1] at hready

/-- A cluster whose nodes wait for nodes with lower indices only. -/
theorem acyclic_of_lt {c : Cluster}
    (h : ∀ b ∈ c.nodeIndices, ∀ a ∈ c.nodeIndices, c.Waits b a → a.2 < b.2) (a : ℕ × ℕ) :
    ¬ Relation.TransGen c.Waits a a := by
  have hstep : ∀ {b a}, c.Waits b a → a.2 < b.2 := fun {b a} hw => by
    obtain ⟨hb, ha, n, hn, m, hm, -⟩ := id hw
    exact h b (mem_nodeIndices.2 ⟨hb, n, hn⟩) a (mem_nodeIndices.2 ⟨ha, m, hm⟩) hw
  have htrans : ∀ {b a}, Relation.TransGen c.Waits b a → a.2 < b.2 := fun htg => by
    induction htg with
    | single hw => exact hstep hw
    | tail _ hw ih => exact (hstep hw).trans ih
  exact fun htg => lt_irrefl _ (htrans htg)

/-- The host copy can go on once its rank has started. -/
theorem exists_enabled_hostCopy :
    ∃ s, hostCopy.machine.runFrom Theory.Machine.anyStep (State.init fun _ => 0)
        ([.start 0] ++ runs 0 12) = some s ∧
      ∃ r < 1, ∃ i k s', hostCopy.machine.runFrom Theory.Machine.anyStep s
          (.attempt r i :: List.replicate k (.run r)) = some s' ∧
        (s'.execs r).next i = (s.execs r).next i + 1 := by
  have hobs : ((hostCopy.machine.runFrom Theory.Machine.anyStep (State.init fun _ => 0)
      ([.start 0] ++ runs 0 12)).map fun s => ((s.execs 0).idle, (s.execs 0).completed 0,
        [Queue.d2h, .h2d, .d2dPeer, .d2dLocal, .d2dReduce, .h2h].map (s.execs 0).inflight)) =
      some (true, 0, [[], [], [], [], [], []]) := by decide +kernel
  obtain ⟨s, hrun, hobs⟩ := Option.map_eq_some_iff.1 hobs
  simp only [List.map_cons, List.map_nil, Prod.mk.injEq, List.cons.injEq] at hobs
  obtain ⟨hidle, hcompleted, h1, h2, h3, h4, h5, h6, -⟩ := hobs
  have hworld : ∀ r < hostCopy.worldSize, r = 0 := fun r hr => Nat.lt_one_iff.1 hr
  refine ⟨s, hrun, exists_enabled
    ⟨by decide +kernel, by decide +kernel, by decide +kernel, by decide +kernel, by decide +kernel⟩
    (acyclic_of_lt (by decide +kernel)) hrun ⟨fun r hr => ?_, fun r hr q => ?_⟩
    ⟨0, by decide, 0, (hostCopy.graph 0).nodes.head (by decide), by decide, ?_⟩⟩
  · rw [hworld r hr]; exact hidle
  · rw [hworld r hr]; cases q <;> assumption
  · rw [hcompleted]; decide

/-! ### A read that nobody serves -/

/-- A node whose first input is behind is not submitted. -/
theorem next_eq_of_input_behind {c : Cluster} {s s' : State} {r i : ℕ} {n : InstructionNode}
    (hn : c.node? r i = some n) {x : NodeInput} {xs : List NodeInput}
    (hinputs : n.inputs = x :: xs)
    (hbehind : s.words.getWriteProgress x.key ≤ (s.execs r).next i) {k : ℕ}
    (hrun : c.machine.runFrom Theory.Machine.anyStep s
      (.attempt r i :: List.replicate k (.run r)) = some s') :
    (s'.execs r).next i = (s.execs r).next i := by
  obtain ⟨-, s₁, hstep, hrun⟩ := (c.machine.runFrom_cons_eq_some).1 hrun
  obtain ⟨hr, w, e, hlocal, rfl⟩ := step_cases hstep
  obtain ⟨-, -, n', hn', rfl, rfl⟩ := attempt_eq hlocal
  cases hn.symm.trans hn'
  cases k with
  | zero => cases hrun; simp [Label.rank]
  | succ k =>
    obtain ⟨-, s₂, hstep, hrun⟩ := (c.machine.runFrom_cons_eq_some).1 hrun
    obtain ⟨-, w, e, hlocal, rfl⟩ := step_cases hstep
    obtain ⟨head, rest, htodo, hop⟩ := run_eq hlocal
    simp only [Label.rank, Function.update_self, Cluster.attemptOps, inputsReady, hinputs,
      List.map_cons, List.cons_append, List.cons.injEq] at htodo hop
    obtain ⟨rfl, rfl⟩ := htodo
    -- the load at the head fails, and the thread gives up
    simp only [Cluster.runOp, if_neg (Nat.not_le.2 (Nat.lt_succ_of_le hbehind)),
      Prod.mk.injEq] at hop
    obtain ⟨rfl, rfl⟩ := hop
    cases k with
    | zero => cases hrun; simp [Label.rank]
    | succ k =>
      obtain ⟨-, s₃, hstep, -⟩ := (c.machine.runFrom_cons_eq_some).1 hrun
      obtain ⟨-, w, e, hlocal, rfl⟩ := step_cases hstep
      obtain ⟨head, rest, htodo, -⟩ := run_eq hlocal
      simp [Label.rank] at htodo

/-- The host chunk is fetched, and nobody fills it. -/
def unservedProgram : IRProgram where
  inputChunkCount := 1
  outputChunkCount := 1
  allInstructions := [{ op := .h2d, rank := 0, src := ⟨0, 0⟩, dst := ⟨0, 0⟩ }]

def unserved : Cluster where
  env := {}
  graphOptions := { legacyLayout := { segCount := 1 } }
  program := unservedProgram
  worldSize := 1
  plan := (plan? _ _ _).get (by decide)
  binding := fun _ => plainBinding
  h2hThreads := 1
  h2hThreads_pos := Nat.one_pos

/-- No node waits for another, and the only one never gets its input. -/
theorem unserved_blocks :
    (∀ a, ¬ Relation.TransGen unserved.Waits a a) ∧
    ∃ s, unserved.machine.runFrom Theory.Machine.anyStep (State.init fun _ => 0)
        ([.start 0] ++ runs 0 7) = some s ∧ Quiet unserved s ∧
      (∃ n, unserved.node? 0 0 = some n ∧ (s.execs 0).completed 0 < unserved.numSubchunks) ∧
      ∀ r < 1, ∀ i k s', unserved.machine.runFrom Theory.Machine.anyStep s
          (.attempt r i :: List.replicate k (.run r)) = some s' →
        (s'.execs r).next i = (s.execs r).next i := by
  refine ⟨acyclic_of_lt (by decide +kernel), ?_⟩
  have hobs : ((unserved.machine.runFrom Theory.Machine.anyStep (State.init fun _ => 0)
      ([.start 0] ++ runs 0 7)).map fun s => ((s.execs 0).idle, (s.execs 0).completed 0,
        [Queue.d2h, .h2d, .d2dPeer, .d2dLocal, .d2dReduce, .h2h].map (s.execs 0).inflight,
        s.words.getWriteProgress ⟨hostKey 0 0, 0⟩)) =
      some (true, 0, [[], [], [], [], [], []], 0) := by decide +kernel
  obtain ⟨s, hrun, hobs⟩ := Option.map_eq_some_iff.1 hobs
  simp only [List.map_cons, List.map_nil, Prod.mk.injEq, List.cons.injEq] at hobs
  obtain ⟨hidle, hcompleted, ⟨h1, h2, h3, h4, h5, h6, -⟩, hwrite⟩ := hobs
  refine ⟨s, hrun, ⟨fun r hr => ?_, fun r hr q => ?_⟩,
    ⟨(unserved.graph 0).nodes.head (by decide), by decide, by rw [hcompleted]; decide⟩, ?_⟩
  · rw [Nat.lt_one_iff.1 hr]; exact hidle
  · rw [Nat.lt_one_iff.1 hr]; cases q <;> assumption
  · intro r hr i k s' hrun'
    obtain rfl := Nat.lt_one_iff.1 hr
    obtain ⟨-, s₁, hstep, -⟩ := (unserved.machine.runFrom_cons_eq_some).1 hrun'
    obtain ⟨-, w, e, hlocal, rfl⟩ := step_cases hstep
    obtain ⟨-, -, n, hn, -⟩ := attempt_eq hlocal
    obtain ⟨hi, hget⟩ := List.getElem?_eq_some_iff.1 hn
    obtain rfl : i = 0 := Nat.lt_one_iff.1 hi
    subst hget
    refine next_eq_of_input_behind hn (x := ⟨⟨hostKey 0 0, 0⟩, some 0, false⟩) rfl ?_ hrun'
    rw [hwrite]
    exact Nat.zero_le _

end Executor
end HyLink
