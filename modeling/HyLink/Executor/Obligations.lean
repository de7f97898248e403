import HyLink.Executor.Origin

/-!
# What the threads still owe

Progress rests on nothing being forgotten: whatever has been submitted is in
flight, or published, or about to be published by an operation that stands on a
list; whatever the reader cursors have reached, the consume cursor has reached or
is about to reach; and whatever a rank resets when it starts, it sets again.

* `Orderly.of_localStep` — a thread's list holds operations of one stage, and what
  it resets it will set.
* `Owed.step` — these obligations are preserved by every step.

None of this depends on what the threads read in `num_readers`: a reader count read
too early is too small, and a consume cursor raised too far holds nobody up.
-/

namespace HyLink
namespace Executor

open Ir Compiler

/-- A slice is in flight. -/
def Flying (e : Exec) (i sc : ℕ) : Prop := ∃ q, ∃ x ∈ e.inflight q, x.node = i ∧ x.sc = sc

/-- An operation that is going to raise the consume cursor of `key` to `v`, if no reader is
behind. -/
def Op.Carries (key : ProgressKey) (v : ℕ) : Op → Prop
  | .scanReaders k _ minRd | .scanReader k _ minRd | .raiseConsumeProgress k minRd =>
      k = key ∧ v ≤ minRd
  | _ => False

structure Orderly (c : Cluster) (r : ℕ) (e : Exec) : Prop where
  idle : e.started = false → e.todo = []
  uniform : ∀ op ∈ e.todo, ∀ op' ∈ e.todo, op.stage = op'.stage
  restores : ∀ pre post key v, e.todo = pre ++ .setNumReaders key v :: post →
    v = c.plan.numReaders key ∨ .setNumReaders key (c.plan.numReaders key) ∈ post

structure Owed (c : Cluster) (s : State) : Prop where
  orderly : ∀ r, Orderly c r (s.execs r)
  written : ∀ r < c.worldSize, ∀ i n, c.node? r i = some n → ∀ sc < (s.execs r).next i,
    sc < s.words.getWriteProgress n.output ∨ Flying (s.execs r) i sc ∨
      ∃ v, sc < v ∧ .advanceWriteProgress n.output v ∈ (s.execs r).todo
  read : ∀ r < c.worldSize, ∀ i key id, c.Reads r i key id → ∀ sc < (s.execs r).next i,
    sc < s.words.getReaderDone id key ∨ Flying (s.execs r) i sc ∨
      ∃ v, sc < v ∧ .advanceReaderDone key id v ∈ (s.execs r).todo
  consumed : ∀ key ∈ c.allKeys, 0 < c.plan.numReaders key → ∀ v,
    (∀ id < c.plan.numReaders key, v ≤ s.words.getReaderDone id key) →
    v ≤ s.words.getConsumeProgress key ∨
      ∃ r < c.worldSize, ∃ op ∈ (s.execs r).todo, op.Carries key v
  inRange : ∀ r < c.worldSize, ∀ key i minRd, .scanReader key i minRd ∈ (s.execs r).todo →
    i < c.plan.numReaders key
  counts : ∀ r < c.worldSize, (s.execs r).started = true →
    ∀ key ∈ (c.graph r).activeProgressKeys, .setNumReaders key 0 ∈ (s.execs r).todo ∨
      s.words.getNumReaders key = 0 ∨ s.words.getNumReaders key = c.plan.numReaders key
  settled : ∀ r < c.worldSize, (s.execs r).started = true →
    ∀ key ∈ (c.graph r).activeProgressKeys,
      s.words.getNumReaders key = c.plan.numReaders key ∨
      ∃ r' < c.worldSize, .setNumReaders key (c.plan.numReaders key) ∈ (s.execs r').todo
  initial : ∀ r < c.worldSize, (s.execs r).started = true →
    ∀ key ∈ (c.graph r).initialReadyInputs,
      .setWriteProgress key c.numSubchunks ∈ (s.execs r).todo ∨
      s.words.getWriteProgress key = c.numSubchunks
  ready : ∀ r < c.worldSize, (s.execs r).started = true →
    .publishUserReady ∈ (s.execs r).todo ∨ s.words.userReady r = true

section

variable {c : Cluster} {r : ℕ} {w w' : SharedWords} {e e' : Exec} {s s' : State} {l : Label}

/-! ## Stages -/

theorem stage_startOps {op : Op} (h : op ∈ c.startOps r) : op.stage = .start := by
  simp only [Cluster.startOps, List.mem_append, List.mem_cons, List.mem_map] at h
  rcases h with (⟨k, -, rfl⟩ | ⟨k, -, rfl⟩) | rfl | ⟨k, -, rfl⟩ <;> rfl

theorem stage_publishOps {n : InstructionNode} {sc : ℕ} {op : Op} (h : op ∈ publishOps n sc) :
    op.stage = .publish := by
  simp only [publishOps, List.mem_cons, List.mem_filterMap, Option.map_eq_some_iff] at h
  rcases h with rfl | ⟨x, -, id, -, rfl⟩ <;> rfl

theorem stage_attemptOps {n : InstructionNode} {i sc : ℕ} {op : Op}
    (h : op ∈ c.attemptOps r i n sc) : op.stage = .attempt := by
  rcases kind_attemptOps h with h | h <;> cases op <;> first | rfl | cases h

theorem stage_remoteReady {n : InstructionNode} {op : Op} (h : op ∈ remoteReady n) :
    op.stage = .attempt := by
  simp only [remoteReady] at h
  split at h <;> simp only [List.mem_singleton, List.not_mem_nil] at h
  subst h
  rfl

theorem stage_of_scans {op : Op} (h : op.scans = true) : op.stage = .publish := by
  cases op <;> first | rfl | cases h

/-! ## Order within a thread -/

theorem uniform_of_stage {ops : List Op} (st : Stage) (h : ∀ op ∈ ops, op.stage = st) :
    ∀ op ∈ ops, ∀ op' ∈ ops, op.stage = op'.stage :=
  fun op hop op' hop' => (h op hop).trans (h op' hop').symm

theorem Orderly.stage_eq (h : Orderly c r e) {head : Op} (hhead : e.todo.head? = some head) :
    ∀ op ∈ e.todo, op.stage = head.stage :=
  fun op hop => h.uniform op hop head (List.mem_of_mem_head? hhead)

theorem Orderly.uniform_of_agenda (h : Orderly c r e) (ha : Agenda c r w e e' l) :
    ∀ op ∈ e'.todo, ∀ op' ∈ e'.todo, op.stage = op'.stage := by
  cases ha with
  | same htodo => rw [htodo]; exact h.uniform
  | clear _ _ htodo => rw [htodo]; simp
  | start _ htodo => rw [htodo]; exact uniform_of_stage _ fun op hop => stage_startOps hop
  | attempt _ _ _ htodo => rw [htodo]; exact uniform_of_stage _ fun op hop => stage_attemptOps hop
  | publish _ htodo => rw [htodo]; exact uniform_of_stage _ fun op hop => stage_publishOps hop
  | @pass _ head rest htodo₀ _ htodo =>
    have hst := h.stage_eq (by rw [htodo₀]; rfl)
    rw [htodo₀] at hst
    rw [htodo]
    exact uniform_of_stage _ fun op hop => hst op (List.mem_cons_of_mem _ hop)
  | @scan _ head op rest htodo₀ hhead hop htodo =>
    have hst := h.stage_eq (by rw [htodo₀]; rfl)
    rw [htodo₀, stage_of_scans hhead] at hst
    rw [htodo]
    refine uniform_of_stage .publish fun op' hop' => ?_
    rcases List.mem_cons.1 hop' with rfl | hop'
    · exact stage_of_scans hop
    · exact hst op' (List.mem_cons_of_mem _ hop')
  | @consume _ value key rest htodo₀ htodo =>
    have hst := h.stage_eq (by rw [htodo₀]; rfl)
    rw [htodo₀] at hst
    rw [htodo]
    refine uniform_of_stage .attempt fun op' hop' => ?_
    rcases List.mem_cons.1 hop' with rfl | hop'
    · rfl
    · exact hst op' (List.mem_cons_of_mem _ hop')
  | samePlace _ htodo => rw [htodo]; simp
  | record _ _ htodo =>
    rw [htodo]
    refine uniform_of_stage .attempt fun op' hop' => ?_
    rcases List.mem_append.1 hop' with hop' | hop'
    · exact stage_remoteReady hop'
    · rw [List.mem_singleton] at hop'
      subst hop'
      rfl

/-- Every key that is read counts its readers in the tables of all ranks. -/
theorem mem_readerAssignment {key : ProgressKey} (h : 0 < c.plan.numReaders key) :
    ∃ chunk ∈ (c.graph r).readerAssignment, chunk.key = key := by
  have htouched := (c.plan.readerCounts_valid.mem_touched key).2 h
  simp only [Cluster.graph, Plan.graph, readerAssignmentOf, List.mem_map, List.mem_insertionSort]
  exact ⟨_, ⟨key, htouched, rfl⟩, rfl⟩

theorem setNumReaders_startOps {key : ProgressKey} (hkey : key ∈ (c.graph r).activeProgressKeys) :
    .setNumReaders key (c.plan.numReaders key) ∈ c.startOps r := by
  simp only [Cluster.startOps, List.mem_append, List.mem_map]
  rcases Nat.eq_zero_or_pos (c.plan.numReaders key) with h0 | hpos
  · exact Or.inl (Or.inl ⟨key, hkey, by rw [h0]⟩)
  · obtain ⟨chunk, hchunk, rfl⟩ := mem_readerAssignment hpos
    exact Or.inl (Or.inr ⟨chunk, hchunk, by rw [numReaders_of_readerAssignment hchunk]⟩)

/-- A start sets every count it resets. -/
theorem restores_startOps {pre post : List Op} {key : ProgressKey} {v : ℕ}
    (h : c.startOps r = pre ++ .setNumReaders key v :: post) :
    v = c.plan.numReaders key ∨ .setNumReaders key (c.plan.numReaders key) ∈ post := by
  have hrest : ∀ {k v}, Op.setNumReaders k v ∈
      (c.graph r).readerAssignment.map (fun chunk => .setNumReaders chunk.key chunk.numReaders) ++
        .publishUserReady :: (c.graph r).initialReadyInputs.map
          (fun key => .setWriteProgress key c.numSubchunks) → v = c.plan.numReaders k := by
    intro k v hmem
    simp only [List.mem_append, List.mem_map, List.mem_cons] at hmem
    rcases hmem with ⟨chunk, hchunk, heq⟩ | heq | ⟨_, _, heq⟩ <;> cases heq
    exact numReaders_of_readerAssignment hchunk
  simp only [Cluster.startOps, List.append_assoc] at h
  rcases List.append_eq_append_iff.1 h with ⟨as, -, hr⟩ | ⟨bs, hl, hr⟩
  · exact Or.inl (hrest (by rw [hr]; simp))
  · cases bs with
    | nil => exact Or.inl (hrest (by rw [← List.nil_append (_ ++ _), ← hr]; simp))
    | cons b bs =>
      rw [List.cons_append, List.cons.injEq] at hr
      obtain ⟨rfl, rfl⟩ := hr
      have hmem : Op.setNumReaders key v ∈
          (c.graph r).activeProgressKeys.map fun key => Op.setNumReaders key 0 := by
        rw [hl]; simp
      obtain ⟨k, -, heq⟩ := List.mem_map.1 hmem
      cases heq
      rcases Nat.eq_zero_or_pos (c.plan.numReaders key) with h0 | hpos
      · exact Or.inl h0.symm
      · obtain ⟨chunk, hchunk, rfl⟩ := mem_readerAssignment (r := r) hpos
        refine Or.inr (List.mem_append_right _ (List.mem_append_left _ ?_))
        exact List.mem_map.2 ⟨chunk, hchunk, by rw [numReaders_of_readerAssignment hchunk]⟩

theorem Orderly.restores_of_agenda (h : Orderly c r e) (ha : Agenda c r w e e' l)
    {pre post : List Op} {key : ProgressKey} {v : ℕ}
    (htodo' : e'.todo = pre ++ .setNumReaders key v :: post) :
    v = c.plan.numReaders key ∨ .setNumReaders key (c.plan.numReaders key) ∈ post := by
  have hmem : Op.setNumReaders key v ∈ e'.todo := by rw [htodo']; simp
  have hno : ∀ st, st ≠ Stage.start → ¬ ∀ op ∈ e'.todo, op.stage = st :=
    fun st hst hall => hst (hall _ hmem).symm
  have hu := h.uniform_of_agenda ha _ hmem
  cases ha with
  | same htodo => exact h.restores pre post key v (htodo ▸ htodo')
  | clear _ _ htodo => rw [htodo] at hmem; cases hmem
  | start _ htodo => exact restores_startOps (htodo ▸ htodo')
  | attempt _ _ _ htodo =>
    exact absurd (fun op hop => stage_attemptOps (htodo ▸ hop)) (hno .attempt nofun)
  | publish _ htodo =>
    exact absurd (fun op hop => stage_publishOps (htodo ▸ hop)) (hno .publish nofun)
  | @pass _ head rest htodo₀ _ htodo =>
    refine h.restores (head :: pre) post key v ?_
    rw [htodo₀, ← htodo, htodo']
    rfl
  | @scan _ head op rest htodo₀ hhead hop htodo =>
    have := hu op (by rw [htodo]; exact List.mem_cons_self)
    rw [stage_of_scans hop] at this
    cases this
  | @consume _ value key' rest htodo₀ htodo =>
    have := hu (.loadConsumeProgress key' value) (by rw [htodo]; exact List.mem_cons_self)
    cases this
  | samePlace _ htodo => rw [htodo, List.mem_singleton] at hmem; cases hmem
  | record _ _ htodo =>
    rw [htodo, List.mem_append, List.mem_singleton] at hmem
    rcases hmem with hmem | hmem
    · have := stage_remoteReady hmem
      cases this
    · cases hmem

theorem Orderly.of_localStep (hlocal : c.localStep r w e l = some (w', e')) (h : Orderly c r e) :
    Orderly c r e' := by
  have ha := Agenda.of_localStep hlocal
  refine ⟨fun hstarted => ?_, h.uniform_of_agenda ha, fun pre post key v => h.restores_of_agenda ha⟩
  rcases started_of_localStep hlocal with ⟨heq, hl⟩ | ⟨_, _, _, heq, _⟩
  · have htodo := h.idle (heq ▸ hstarted)
    have hidle : e.idle ≠ true := fun hidle => by
      have := started_of_idle hidle
      rw [← heq, hstarted] at this
      cases this
    cases ha with
    | same htodo' => rw [htodo', htodo]
    | clear hhead => rw [htodo] at hhead; cases hhead
    | start => exact absurd rfl (hl _)
    | attempt hi => exact absurd hi hidle
    | publish hhead =>
      rcases hhead with hi | ⟨i, hhead⟩
      · exact absurd hi hidle
      · rw [htodo] at hhead; cases hhead
    | pass htodo₀ => rw [htodo] at htodo₀; cases htodo₀
    | scan htodo₀ => rw [htodo] at htodo₀; cases htodo₀
    | consume htodo₀ => rw [htodo] at htodo₀; cases htodo₀
    | samePlace hhead => rw [htodo] at hhead; cases hhead
    | record hhead => rw [htodo] at hhead; cases hhead
  · rw [heq] at hstarted; cases hstarted

/-- An operation that cannot be given up stays on the list until it is performed. -/
theorem Orderly.kept (h : Orderly c r e) (hlocal : c.localStep r w e l = some (w', e')) {op : Op}
    (hop : op ∈ e.todo) (hstage : op.stage ≠ .attempt) :
    op ∈ e'.todo ∨ ∃ rest, e.todo = op :: rest ∧ c.runOp r w e rest op = (w', e') := by
  have hnone : ∀ {head}, e.todo.head? = some head → head.stage ≠ .attempt := fun hhead heq =>
    hstage ((h.stage_eq hhead op hop).trans heq)
  have hne : e.todo ≠ [] := fun hnil => by rw [hnil] at hop; cases hop
  cases Agenda.of_localStep hlocal with
  | same htodo => exact Or.inl (htodo ▸ hop)
  | clear hhead hst => exact absurd hst (hnone hhead)
  | start hstarted => exact absurd (h.idle hstarted) hne
  | attempt hidle => exact absurd (todo_of_idle hidle) hne
  | publish hhead =>
    rcases hhead with hidle | ⟨i, hhead⟩
    · exact absurd (todo_of_idle hidle) hne
    · exact absurd rfl (hnone hhead)
  | @pass _ head rest htodo₀ _ htodo =>
    obtain ⟨head', rest', htodo', hrun⟩ := run_eq hlocal
    rw [htodo₀, List.cons.injEq] at htodo'
    obtain ⟨rfl, rfl⟩ := htodo'
    rw [htodo₀] at hop
    rcases List.mem_cons.1 hop with rfl | hop
    · exact Or.inr ⟨rest, htodo₀, hrun⟩
    · exact Or.inl (htodo ▸ hop)
  | @scan _ head op' rest htodo₀ _ _ htodo =>
    obtain ⟨head', rest', htodo', hrun⟩ := run_eq hlocal
    rw [htodo₀, List.cons.injEq] at htodo'
    obtain ⟨rfl, rfl⟩ := htodo'
    rw [htodo₀] at hop
    rcases List.mem_cons.1 hop with rfl | hop
    · exact Or.inr ⟨rest, htodo₀, hrun⟩
    · exact Or.inl (htodo ▸ List.mem_cons_of_mem _ hop)
  | consume htodo₀ => exact absurd rfl (hnone (by rw [htodo₀]; rfl))
  | samePlace hhead => exact absurd rfl (hnone hhead)
  | record hhead => exact absurd rfl (hnone hhead)

/-! ## Slices in flight -/

/-- A submitted slice is in flight, or being published, or neither as before. -/
theorem flying_of_motion (hm : Motion c r e e' l) {i sc : ℕ} {n : InstructionNode}
    (hn : c.node? r i = some n) (hsc : sc < e'.next i) :
    Flying e' i sc ∨ e'.todo = publishOps n sc ∨ (sc < e.next i ∧ ¬ Flying e i sc) := by
  by_cases hfly : Flying e i sc
  · obtain ⟨q, x, hx, rfl, rfl⟩ := hfly
    cases hm with
    | still _ _ hin => exact Or.inl ⟨q, x, by rw [hin]; exact hx, rfl, rfl⟩
    | finish _ _ _ _ hin => exact Or.inl ⟨q, x, by rw [hin]; exact hx, rfl, rfl⟩
    | @push _ k n₀ _ _ _ _ hin =>
      refine Or.inl ⟨q, x, ?_, rfl, rfl⟩
      rw [hin]
      by_cases hq : q = queueOf n₀
      · subst hq; rw [Function.update_self]; exact List.mem_append_left _ hx
      · rwa [Function.update_of_ne hq]
    | @poll _ q₀ j entry n₀ _ _ hentry _ hnode _ _ hin htodo =>
      by_cases hx' : x ∈ e'.inflight q
      · exact Or.inl ⟨q, x, hx', rfl, rfl⟩
      · -- the entry that was polled
        have hxe : x = entry := by
          by_contra hne
          refine hx' ?_
          rw [hin]
          by_cases hq : q = q₀
          · subst hq
            rw [Function.update_self]
            obtain ⟨hj, hget⟩ := List.getElem?_eq_some_iff.1 hentry
            have hperm := (List.getElem_cons_eraseIdx_perm hj).mem_iff.2 hx
            rw [hget, List.mem_cons] at hperm
            exact hperm.resolve_left hne
          · rwa [Function.update_of_ne hq]
        subst hxe
        cases hn.symm.trans hnode
        exact Or.inr (Or.inl htodo)
    | @work _ q₀ j t _ _ _ _ _ _ _ _ _ _ he =>
      subst he
      obtain ⟨y, hy, hyn, hysc⟩ := mem_key_updateShare (q := q₀) (j := j) (t := t)
        (f := fun s => { s with pos := s.pos + _ }) hx
      exact Or.inl ⟨q, y, hy, hyn, hysc⟩
    | @count _ q₀ j t _ _ _ _ _ he =>
      subst he
      obtain ⟨y, hy, hyn, hysc⟩ := mem_key_updateShare (q := q₀) (j := j) (t := t)
        (f := fun s => { s with counted := true }) hx
      exact Or.inl ⟨q, y, hy, hyn, hysc⟩
  · by_cases hlt : sc < e.next i
    · exact Or.inr (Or.inr ⟨hlt, hfly⟩)
    · have hupdate : ∀ k, e'.next = Function.update e.next k (e.next k + 1) →
          k = i ∧ sc = e.next i := fun k hnext => by
        rw [hnext] at hsc
        by_cases hik : i = k
        · subst hik
          rw [Function.update_self] at hsc
          exact ⟨rfl, by omega⟩
        · rw [Function.update_of_ne hik] at hsc
          exact absurd hsc hlt
      cases hm with
      | still hnext => rw [hnext] at hsc; exact absurd hsc hlt
      | finish _ hnode hnext _ _ htodo =>
        obtain ⟨rfl, rfl⟩ := hupdate _ hnext
        cases hn.symm.trans hnode
        exact Or.inr (Or.inl htodo)
      | @push _ k n₀ _ hnode hnext _ hin =>
        obtain ⟨rfl, hsc'⟩ := hupdate _ hnext
        refine Or.inl ⟨queueOf n₀, ⟨k, e.next k, c.sharesOf n₀ (c.subchunkSize n₀ (e.next k))⟩,
          ?_, rfl, hsc'.symm⟩
        rw [hin, Function.update_self]
        exact List.mem_append_right _ (List.mem_singleton_self _)
      | poll _ _ _ _ _ hnext => rw [hnext] at hsc; exact absurd hsc hlt
      | work _ _ _ _ _ _ he => subst he; exact absurd hsc hlt
      | count _ _ _ he => subst he; exact absurd hsc hlt

/-! ## What is owed after a step -/

theorem advance_mem_publishOps (n : InstructionNode) (sc : ℕ) :
    .advanceWriteProgress n.output (sc + 1) ∈ publishOps n sc := List.mem_cons_self

theorem reader_mem_publishOps {n : InstructionNode} {x : NodeInput} (hx : x ∈ n.inputs) {id : ℕ}
    (hid : x.readerId = some id) (sc : ℕ) :
    .advanceReaderDone x.key id (sc + 1) ∈ publishOps n sc :=
  List.mem_cons_of_mem _ (List.mem_filterMap.2 ⟨x, hx, by rw [hid]; rfl⟩)

/-- A submitted slice stays accounted for. -/
theorem Owed.written_step (h : Owed c s) (hlocal : c.localStep r s.words (s.execs r) l = some (w, e))
    (hr : r < c.worldSize) (hle : Words.Le s.words w) {i : ℕ} {n : InstructionNode}
    (hn : c.node? r i = some n) {sc : ℕ} (hsc : sc < e.next i) :
    sc < w.getWriteProgress n.output ∨ Flying e i sc ∨
      ∃ v, sc < v ∧ .advanceWriteProgress n.output v ∈ e.todo := by
  rcases flying_of_motion (Motion.of_localStep hlocal) hn hsc with hfly | htodo | ⟨hlt, hfly⟩
  · exact Or.inr (Or.inl hfly)
  · exact Or.inr (Or.inr ⟨sc + 1, Nat.lt_succ_self _, htodo ▸ advance_mem_publishOps n sc⟩)
  · rcases h.written r hr i n hn sc hlt with hw | hf | ⟨v, hv, hop⟩
    · exact Or.inl (hw.trans_le (hle.write _))
    · exact absurd hf hfly
    · rcases (h.orderly r).kept hlocal hop nofun with hop | ⟨rest, -, hrun⟩
      · exact Or.inr (Or.inr ⟨v, hv, hop⟩)
      · left
        simp only [Cluster.runOp, Prod.mk.injEq] at hrun
        rw [← hrun.1, getWriteProgress_advance, if_pos rfl]
        exact hv.trans_le (le_max_right _ _)

theorem Owed.read_step (h : Owed c s) (hlocal : c.localStep r s.words (s.execs r) l = some (w, e))
    (hr : r < c.worldSize) (hle : Words.Le s.words w) {i id : ℕ} {key : ProgressKey}
    (hreads : c.Reads r i key id) {sc : ℕ} (hsc : sc < e.next i) :
    sc < w.getReaderDone id key ∨ Flying e i sc ∨
      ∃ v, sc < v ∧ .advanceReaderDone key id v ∈ e.todo := by
  obtain ⟨n, hn, x, hx, rfl, hid⟩ := hreads
  rcases flying_of_motion (Motion.of_localStep hlocal) hn hsc with hfly | htodo | ⟨hlt, hfly⟩
  · exact Or.inr (Or.inl hfly)
  · exact Or.inr (Or.inr ⟨sc + 1, Nat.lt_succ_self _, htodo ▸ reader_mem_publishOps hx hid sc⟩)
  · rcases h.read r hr i x.key id ⟨n, hn, x, hx, rfl, hid⟩ sc hlt with hw | hf | ⟨v, hv, hop⟩
    · exact Or.inl (hw.trans_le (hle.done _ _))
    · exact absurd hf hfly
    · rcases (h.orderly r).kept hlocal hop nofun with hop | ⟨rest, -, hrun⟩
      · exact Or.inr (Or.inr ⟨v, hv, hop⟩)
      · left
        have hlt32 : id < maxProgressReaders :=
          (c.plan.readerId_lt_numReaders (mem_nodes_of_node? hn) hx hid).trans_le
            (c.plan.numReaders_le x.key)
        simp only [Cluster.runOp, if_neg (Nat.not_le.2 hlt32), Prod.mk.injEq] at hrun
        rw [← hrun.1, getReaderDone_raise, if_pos ⟨rfl, rfl⟩]
        exact hv.trans_le (le_max_right _ _)

/-- A key of a rank's list is in use. -/
theorem mem_allKeys_of_setNumReaders (hr : r < c.worldSize) {key : ProgressKey} {v : ℕ}
    (h : Origin c r (.setNumReaders key v)) : key ∈ c.allKeys := by
  rcases h with ⟨hk, -⟩ | ⟨hk, -⟩
  · exact mem_allKeys_of_active hr hk
  · exact List.mem_flatMap.2 ⟨r, List.mem_range.2 hr, List.mem_append_right _ hk⟩

/-- Reader counts are only ever set to zero or to the compiled count. -/
theorem numReaders_step (hd : c.DistinctWords) (hr : r < c.worldSize)
    (ho : ∀ op ∈ e.todo, Origin c r op) (hstores : Stores w w' e) {key : ProgressKey}
    (hkey : key ∈ c.allKeys) : w'.getNumReaders key = w.getNumReaders key ∨
      ∃ v, e.todo.head? = some (.setNumReaders key v) ∧ w'.getNumReaders key = v ∧
        (v = 0 ∨ v = c.plan.numReaders key) := by
  rcases hstores.numReadersWord key with heq | ⟨k, v, hword, hhead, heq⟩
  · exact Or.inl heq
  · have horigin : Origin c r (.setNumReaders k v) := ho _ (List.mem_of_mem_head? hhead)
    obtain rfl := hd.eq hkey (mem_allKeys_of_setNumReaders hr horigin) hword
    exact Or.inr ⟨v, hhead, heq, horigin.imp (·.2) (·.2)⟩

/-- Only a running thread has something to do. -/
theorem Orderly.started (h : Orderly c r e) {op : Op} (hop : op ∈ e.todo) :
    e.started = true := by
  by_contra hno
  rw [h.idle (by simpa using hno)] at hop
  cases hop

/-- A scan never counts readers there are not. -/
theorem Owed.inRange_step (h : Owed c s) (hb : Base c s) (hr : r < c.worldSize)
    (hlocal : c.localStep r s.words (s.execs r) l = some (w, e)) {key : ProgressKey} {i minRd : ℕ}
    (hop : .scanReader key i minRd ∈ e.todo) : i < c.plan.numReaders key := by
  rcases Fresh.of_mem_todo hlocal hop with hop | hf
  · exact h.inRange r hr key i minRd hop
  · cases hf with
    | start hop => cases stage_startOps hop
    | attempt _ _ _ hop => cases stage_attemptOps hop
    | poll _ _ _ _ hop => simp [publishOps] at hop
    | finish _ _ hop => simp [publishOps] at hop
    | scanReader hhead hlt =>
      have hmem := List.mem_of_mem_head? hhead
      obtain ⟨i', id, n, hn, x, hx, rfl, -⟩ := hb.origin r _ hmem
      have hstarted := (h.orderly r).started hmem
      rcases h.counts r hr hstarted _ (input_active hn hx) with hset | h0 | hn
      · cases (h.orderly r).uniform _ hset _ hmem
      · omega
      · omega
    | record _ _ hop =>
      rcases List.mem_append.1 hop with hop | hop
      · cases stage_remoteReady hop
      · rw [List.mem_singleton] at hop; cases hop

/-- What the readers have passed, the consume cursor reaches. -/
theorem Owed.consumed_step (hd : c.DistinctWords) (h : Owed c s) (hb : Base c s)
    (hr : r < c.worldSize) (hlocal : c.localStep r s.words (s.execs r) l = some (w, e))
    (hle : Words.Le s.words w) {key : ProgressKey} (hkey : key ∈ c.allKeys)
    (hn : 0 < c.plan.numReaders key) {v : ℕ}
    (hv : ∀ id < c.plan.numReaders key, v ≤ w.getReaderDone id key) :
    v ≤ w.getConsumeProgress key ∨
      ∃ r' < c.worldSize, ∃ op ∈ (Function.update s.execs r e r').todo, op.Carries key v := by
  by_cases hold : ∀ id < c.plan.numReaders key, v ≤ s.words.getReaderDone id key
  · rcases h.consumed key hkey hn v hold with hc | ⟨r', hr', op, hop, hcarries⟩
    · exact Or.inl (hc.trans (hle.consume key))
    · by_cases hrank : r' = r
      · subst hrank
        have hstage : op.stage ≠ .attempt := fun hst => by
          cases op <;> first | exact hcarries | cases hst
        rcases (h.orderly r').kept hlocal hop hstage with hop | ⟨rest, -, hrun⟩
        · exact Or.inr ⟨r', hr', op, by rwa [Function.update_self], hcarries⟩
        · -- the scan goes on, or is over and raises the cursor
          cases op with
          | scanReaders k i minRd =>
            obtain ⟨rfl, hm⟩ := hcarries
            simp only [Cluster.runOp, Prod.mk.injEq] at hrun
            refine Or.inr ⟨r', hr', if i < s.words.getNumReaders k then .scanReader k i minRd
              else .raiseConsumeProgress k minRd, ?_, ?_⟩
            · rw [Function.update_self, ← hrun.2]; exact List.mem_cons_self
            · split <;> exact ⟨rfl, hm⟩
          | scanReader k i minRd =>
            obtain ⟨rfl, hm⟩ := hcarries
            simp only [Cluster.runOp, Prod.mk.injEq] at hrun
            refine Or.inr ⟨r', hr',
              .scanReaders k (i + 1) (min minRd (s.words.getReaderDone i k)), ?_, rfl,
              le_min hm (hold i (h.inRange r' hr k i minRd hop))⟩
            rw [Function.update_self, ← hrun.2]
            exact List.mem_cons_self
          | raiseConsumeProgress k minRd =>
            obtain ⟨rfl, hm⟩ := hcarries
            simp only [Cluster.runOp, Prod.mk.injEq] at hrun
            left
            rw [← hrun.1, getConsumeProgress_raise, if_pos rfl]
            exact hm.trans (le_max_right _ _)
          | _ => cases hcarries
      · exact Or.inr ⟨r', hr', op, by rwa [Function.update_of_ne hrank], hcarries⟩
  · -- a reader has just passed `v`, and its scan begins
    push Not at hold
    obtain ⟨id, hid, hlt⟩ := hold
    rcases (Stores.of_localStep hlocal).readerDone id key with heq | ⟨k, v', hword, hhead, heq⟩
    · have := hv id hid
      omega
    · obtain ⟨⟨i, hreads⟩, -⟩ := hb.origin r _ (List.mem_of_mem_head? hhead)
      obtain rfl := hd.eq hkey (hreads.mem_allKeys hr) hword
      have hv' : v ≤ v' := by
        have := hv id hid
        rw [heq] at this
        omega
      have hlt32 : id < maxProgressReaders := hid.trans_le (c.plan.numReaders_le key)
      rcases words_eq_or_run hlocal with hw | ⟨head, rest, htodo, hrun⟩
      · rw [hw] at hv
        exact absurd (hv id hid) (Nat.not_le.2 hlt)
      · rw [htodo, List.head?_cons, Option.some.injEq] at hhead
        subst hhead
        simp only [Cluster.runOp, if_neg (Nat.not_le.2 hlt32), Prod.mk.injEq] at hrun
        refine Or.inr ⟨r, hr, .scanReaders key 0 v', ?_, rfl, hv'⟩
        rw [Function.update_self, ← hrun.2]
        exact List.mem_cons_self

/-! ### Starts -/

/-- What a start store is to bring about is still on the list of a started rank, or it
was stored. -/
theorem Orderly.kept_start (h : Orderly c r e) (hlocal : c.localStep r w e l = some (w', e'))
    (hstarted : e'.started = true) {op : Op} (hop : op ∈ c.startOps r) {P : Prop}
    (hold : e.started = true → op ∈ e.todo ∨ P)
    (hstored : ∀ rest, c.runOp r w e rest op = (w', e') → P) : op ∈ e'.todo ∨ P := by
  rcases started_of_localStep hlocal with ⟨heq, -⟩ | ⟨_, _, _, _, _, htodo⟩
  · rcases hold (heq ▸ hstarted) with hmem | hp
    · rcases h.kept hlocal hmem (by rw [stage_startOps hop]; nofun) with hmem | ⟨rest, -, hrun⟩
      · exact Or.inl hmem
      · exact Or.inr (hstored rest hrun)
    · exact Or.inr hp
  · exact Or.inl (htodo ▸ hop)

theorem mem_startOps_reset {key : ProgressKey} (hkey : key ∈ (c.graph r).activeProgressKeys) :
    .setNumReaders key 0 ∈ c.startOps r := by
  simp only [Cluster.startOps, List.mem_append, List.mem_map]
  exact Or.inl (Or.inl ⟨key, hkey, rfl⟩)

theorem mem_startOps_initial {key : ProgressKey} (hkey : key ∈ (c.graph r).initialReadyInputs) :
    .setWriteProgress key c.numSubchunks ∈ c.startOps r := by
  simp only [Cluster.startOps, List.mem_append, List.mem_cons, List.mem_map]
  exact Or.inr (Or.inr ⟨key, hkey, rfl⟩)

theorem mem_startOps_ready : .publishUserReady ∈ c.startOps r := by
  simp [Cluster.startOps]

/-- The words of a rank that has started hold no count of a former collective. -/
theorem Owed.counts_step (hd : c.DistinctWords) (h : Owed c s) (hb : Base c s) {r₀ : ℕ}
    (hr₀ : r₀ < c.worldSize) (hlocal : c.localStep r₀ s.words (s.execs r₀) l = some (w, e))
    (hr : r < c.worldSize) (hstarted : (Function.update s.execs r₀ e r).started = true)
    {key : ProgressKey} (hkey : key ∈ (c.graph r).activeProgressKeys) :
    .setNumReaders key 0 ∈ (Function.update s.execs r₀ e r).todo ∨
      (w.getNumReaders key = 0 ∨ w.getNumReaders key = c.plan.numReaders key) := by
  have hword : s.words.getNumReaders key = 0 ∨
      s.words.getNumReaders key = c.plan.numReaders key →
      w.getNumReaders key = 0 ∨ w.getNumReaders key = c.plan.numReaders key := fun hold => by
    rcases numReaders_step hd hr₀ (hb.origin r₀) (Stores.of_localStep hlocal)
      (mem_allKeys_of_active hr hkey) with heq | ⟨v, -, heq, hv⟩
    · rwa [heq]
    · rwa [heq]
  by_cases hrank : r = r₀
  · subst hrank
    rw [Function.update_self] at hstarted ⊢
    refine (h.orderly r).kept_start hlocal hstarted (mem_startOps_reset hkey) (fun hs => ?_)
      fun rest hrun => ?_
    · exact (h.counts r hr hs key hkey).imp_right hword
    · simp only [Cluster.runOp, Prod.mk.injEq] at hrun
      rw [← hrun.1, getNumReaders_set, if_pos rfl]
      exact Or.inl rfl
  · rw [Function.update_of_ne hrank] at hstarted ⊢
    exact (h.counts r hr hstarted key hkey).imp_right hword

/-- What a rank has reset, it or another will set. -/
theorem Owed.settled_step (hd : c.DistinctWords) (h : Owed c s) (hb : Base c s) {r₀ : ℕ}
    (hr₀ : r₀ < c.worldSize) (hlocal : c.localStep r₀ s.words (s.execs r₀) l = some (w, e))
    (hr : r < c.worldSize) (hstarted : (Function.update s.execs r₀ e r).started = true)
    {key : ProgressKey} (hkey : key ∈ (c.graph r).activeProgressKeys) :
    w.getNumReaders key = c.plan.numReaders key ∨ ∃ r' < c.worldSize,
      .setNumReaders key (c.plan.numReaders key) ∈ (Function.update s.execs r₀ e r').todo := by
  -- a pending store stays pending, or has just been made
  have hpending : ∀ r' < c.worldSize,
      .setNumReaders key (c.plan.numReaders key) ∈ (s.execs r').todo →
      w.getNumReaders key = c.plan.numReaders key ∨ ∃ r' < c.worldSize,
        .setNumReaders key (c.plan.numReaders key) ∈ (Function.update s.execs r₀ e r').todo := by
    intro r' hr' hop
    by_cases hrank : r' = r₀
    · subst hrank
      rcases (h.orderly r').kept hlocal hop nofun with hop | ⟨rest, -, hrun⟩
      · exact Or.inr ⟨r', hr', by rwa [Function.update_self]⟩
      · simp only [Cluster.runOp, Prod.mk.injEq] at hrun
        rw [← hrun.1, getNumReaders_set, if_pos rfl]
        exact Or.inl rfl
    · exact Or.inr ⟨r', hr', by rwa [Function.update_of_ne hrank]⟩
  have hold : (s.execs r).started = true →
      w.getNumReaders key = c.plan.numReaders key ∨ ∃ r' < c.worldSize,
        .setNumReaders key (c.plan.numReaders key) ∈ (Function.update s.execs r₀ e r').todo := by
    intro hs
    rcases h.settled r hr hs key hkey with hset | ⟨r', hr', hop⟩
    · rcases numReaders_step hd hr₀ (hb.origin r₀) (Stores.of_localStep hlocal)
        (mem_allKeys_of_active hr hkey) with heq | ⟨v, hhead, heq, -⟩
      · exact Or.inl (heq.trans hset)
      · rcases words_eq_or_run hlocal with hw | ⟨head, rest, htodo, hrun⟩
        · rw [hw]; exact Or.inl hset
        · rw [htodo, List.head?_cons, Option.some.injEq] at hhead
          subst hhead
          -- a store of another value has the right one behind it
          rcases (h.orderly r₀).restores [] rest key v htodo with hv | hmem
          · exact Or.inl (heq.trans hv)
          · simp only [Cluster.runOp, Prod.mk.injEq] at hrun
            exact Or.inr ⟨r₀, hr₀, by rw [Function.update_self, ← hrun.2]; exact hmem⟩
    · exact hpending r' hr' hop
  by_cases hrank : r = r₀
  · subst hrank
    rw [Function.update_self] at hstarted
    rcases started_of_localStep hlocal with ⟨heq, -⟩ | ⟨_, _, _, _, _, htodo⟩
    · exact hold (heq ▸ hstarted)
    · refine Or.inr ⟨r, hr, ?_⟩
      rw [Function.update_self, htodo]
      exact setNumReaders_startOps hkey
  · rw [Function.update_of_ne hrank] at hstarted
    exact hold hstarted

theorem Stores.ready (h : Stores w w' e) {rank : ℤ} (hr : w.userReady rank = true) :
    w'.userReady rank = true := by
  cases h with
  | @userReady rank' _ hw =>
    subst hw
    by_cases heq : rank = rank'
    · subst heq; simp [SharedWords.publishUserReady]
    · simpa [SharedWords.publishUserReady, heq] using hr
  | none hw => subst hw; exact hr
  | numReaders _ hw => subst hw; exact hr
  | write _ hw => subst hw; exact hr
  | advance _ hw => subst hw; exact hr
  | done _ hw => subst hw; exact hr
  | consume _ hw => subst hw; exact hr

/-- **Obligations are preserved.** -/
theorem Owed.step (hd : c.DistinctWords) (hb : Base c s) (h : Owed c s)
    (hstep : c.machine.step s l = some s') : Owed c s' := by
  obtain ⟨hr₀, w, e, hlocal, rfl⟩ := step_cases hstep
  have hstores := Stores.of_localStep hlocal
  have hle := hstores.le (hb.origin _) hb.bounded
  constructor
  · intro r
    by_cases hrank : r = l.rank
    · subst hrank
      simp only [Function.update_self]
      exact (h.orderly _).of_localStep hlocal
    · simpa only [Function.update_of_ne hrank] using h.orderly r
  · intro r hr i n hn sc hsc
    by_cases hrank : r = l.rank
    · subst hrank
      simp only [Function.update_self] at hsc ⊢
      exact h.written_step hlocal hr hle hn hsc
    · simp only [Function.update_of_ne hrank] at hsc ⊢
      exact (h.written r hr i n hn sc hsc).imp_left fun hlt => hlt.trans_le (hle.write _)
  · intro r hr i key id hreads sc hsc
    by_cases hrank : r = l.rank
    · subst hrank
      simp only [Function.update_self] at hsc ⊢
      exact h.read_step hlocal hr hle hreads hsc
    · simp only [Function.update_of_ne hrank] at hsc ⊢
      exact (h.read r hr i key id hreads sc hsc).imp_left fun hlt => hlt.trans_le (hle.done _ _)
  · intro key hkey hn v hv
    exact h.consumed_step hd hb hr₀ hlocal hle hkey hn hv
  · intro r hr key i minRd hop
    by_cases hrank : r = l.rank
    · subst hrank
      simp only [Function.update_self] at hop
      exact h.inRange_step hb hr hlocal hop
    · simp only [Function.update_of_ne hrank] at hop
      exact h.inRange r hr key i minRd hop
  · intro r hr hstarted key hkey
    exact h.counts_step hd hb hr₀ hlocal hr hstarted hkey
  · intro r hr hstarted key hkey
    exact h.settled_step hd hb hr₀ hlocal hr hstarted hkey
  · intro r hr hstarted key hkey
    have hword : s.words.getWriteProgress key = c.numSubchunks →
        w.getWriteProgress key = c.numSubchunks := fun hold =>
      le_antisymm (hstores.bounded (hb.origin _) hb.bounded key) (hold ▸ hle.write key)
    by_cases hrank : r = l.rank
    · subst hrank
      simp only [Function.update_self] at hstarted ⊢
      refine (h.orderly _).kept_start hlocal hstarted (mem_startOps_initial hkey)
        (fun hs => (h.initial _ hr hs key hkey).imp_right hword) fun rest hrun => ?_
      simp only [Cluster.runOp, Prod.mk.injEq] at hrun
      rw [← hrun.1, getWriteProgress_set, if_pos rfl]
    · simp only [Function.update_of_ne hrank] at hstarted ⊢
      exact (h.initial r hr hstarted key hkey).imp_right hword
  · intro r hr hstarted
    by_cases hrank : r = l.rank
    · subst hrank
      simp only [Function.update_self] at hstarted ⊢
      refine (h.orderly _).kept_start hlocal hstarted mem_startOps_ready
        (fun hs => (h.ready _ hr hs).imp_right hstores.ready) fun rest hrun => ?_
      simp only [Cluster.runOp, Prod.mk.injEq] at hrun
      rw [← hrun.1]
      simp [SharedWords.publishUserReady]
    · simp only [Function.update_of_ne hrank] at hstarted ⊢
      exact (h.ready r hr hstarted).imp_right hstores.ready

theorem Owed.init (stale : Word → ℕ) : Owed c (State.init stale) := by
  refine ⟨fun r => ⟨fun _ => rfl, by simp [State.init], ?_⟩, ?_, ?_, ?_, by simp [State.init],
    by simp [State.init], by simp [State.init], by simp [State.init], by simp [State.init]⟩
  · intro pre post key v htodo
    simp [State.init] at htodo
  · exact fun r _ i n _ sc hsc => absurd hsc (Nat.not_lt_zero _)
  · exact fun r _ i key id _ sc hsc => absurd hsc (Nat.not_lt_zero _)
  · intro key _ hn v hv
    exact Or.inl (hv 0 hn)

end

end Executor
end HyLink
