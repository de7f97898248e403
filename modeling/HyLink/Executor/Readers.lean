import HyLink.Executor.Publication

/-!
# What the checks of a submission guarantee

A slice is submitted once the loads of `inputsReady` and `overwriteReady` have
gone through.  The cursors they compare only rise, so what a load has found holds
from then on — except for `num_readers`, which every rank resets and sets again
when it starts: a thread that reads it in between takes the readers to be fewer
than they are.

`Cluster.countsSettled` admits the steps that read the compiled count.  In a run of
such steps

* `Guarded.step` — the consume cursor of a chunk version is behind all of its
  compiled readers, and every submitted slice has been let through by all of its
  checks;
* `consume_progress_sound` — so no slice is overwritten before every compiled
  reader is through with it.
-/

namespace HyLink
namespace Executor

open Ir Compiler

/-! ## Checks -/

namespace Cluster

variable (c : Cluster)

/-- The loads slice `sc` of a node has to get through. -/
def checks (n : InstructionNode) (sc : ℕ) : List Op := inputsReady n sc ++ c.overwriteReady n sc

/-- A step that reads `num_readers` reads the compiled count. -/
def countsSettled (s : State) : Label → Bool
  | .run r =>
      match (s.execs r).todo.head? with
      | some (.loadNumReaders key _) | some (.scanReaders key _ _) =>
          decide (s.words.getNumReaders key = c.plan.numReaders key)
      | _ => true
  | _ => true

end Cluster

/-- What a load is there to establish. -/
def Op.Holds (c : Cluster) (w : SharedWords) : Op → Prop
  | .loadWriteProgress key value => value ≤ w.getWriteProgress key
  | .loadNumReaders key value => ∀ id < c.plan.numReaders key, value ≤ w.getReaderDone id key
  | _ => True

/-- A check that stands in a list; `num_readers` may have been loaded already. -/
def Op.Pending (chk : Op) (ops : List Op) : Prop :=
  chk ∈ ops ∨ ∃ key value, chk = .loadNumReaders key value ∧ .loadConsumeProgress key value ∈ ops

/-- All that the checks of a slice are there to establish. -/
def Cluster.Admitted (c : Cluster) (w : SharedWords) (n : InstructionNode) (sc : ℕ) : Prop :=
  ∀ chk ∈ c.checks n sc, chk.Holds c w

/-- The part of a scan that is over found no reader behind `minRd`. -/
def ScanSound (c : Cluster) (w : SharedWords) : Op → Prop
  | .scanReaders key i minRd | .scanReader key i minRd =>
      ∀ id < i, id < c.plan.numReaders key → minRd ≤ w.getReaderDone id key
  | .raiseConsumeProgress key value =>
      ∀ id < c.plan.numReaders key, value ≤ w.getReaderDone id key
  | _ => True

/-- The checks that have not gone through stand before the submission. -/
def ChecksAhead (c : Cluster) (w : SharedWords) (r : ℕ) (e : Exec) : Prop :=
  ∀ pre op post, e.todo = pre ++ op :: post → ∀ i n, op.submits = some i →
    c.node? r i = some n → ∀ chk ∈ c.checks n (e.next i), chk.Pending pre ∨ chk.Holds c w

structure Guarded (c : Cluster) (s : State) : Prop where
  scans : ∀ r < c.worldSize, ∀ op ∈ (s.execs r).todo, ScanSound c s.words op
  consumed : ∀ key ∈ c.allKeys, ∀ id < c.plan.numReaders key,
    s.words.getConsumeProgress key ≤ s.words.getReaderDone id key
  ahead : ∀ r < c.worldSize, ChecksAhead c s.words r (s.execs r)
  admitted : ∀ r < c.worldSize, ∀ i n, c.node? r i = some n →
    ∀ sc < (s.execs r).next i, c.Admitted s.words n sc

section

variable {c : Cluster} {r : ℕ} {w w' : SharedWords} {e e' : Exec} {s s' : State} {l : Label}

/-! ## What has been found holds on -/

theorem Op.Holds.mono (hle : Words.Le w w') {chk : Op} (h : chk.Holds c w) : chk.Holds c w' := by
  cases chk with
  | loadWriteProgress key value => exact le_trans h (hle.write key)
  | loadNumReaders key value => exact fun id hid => le_trans (h id hid) (hle.done id key)
  | _ => exact trivial

theorem ScanSound.mono (hle : Words.Le w w') {op : Op} (h : ScanSound c w op) :
    ScanSound c w' op := by
  cases op with
  | scanReaders key i minRd => exact fun id hi hid => le_trans (h id hi hid) (hle.done id key)
  | scanReader key i minRd => exact fun id hi hid => le_trans (h id hi hid) (hle.done id key)
  | raiseConsumeProgress key value => exact fun id hid => le_trans (h id hid) (hle.done id key)
  | _ => exact trivial

/-! ## Scans -/

theorem ScanSound.of_attemptOps {n : InstructionNode} {i sc : ℕ} {op : Op}
    (h : op ∈ c.attemptOps r i n sc) : ScanSound c w op := by
  rcases kind_attemptOps h with h | h <;> cases op <;> first | exact trivial | cases h

theorem ScanSound.of_publishOps {n : InstructionNode} {sc : ℕ} {op : Op}
    (h : op ∈ publishOps n sc) : ScanSound c w op := by
  simp only [publishOps, List.mem_cons, List.mem_filterMap, Option.map_eq_some_iff] at h
  rcases h with rfl | ⟨x, -, id, -, rfl⟩ <;> exact trivial

theorem ScanSound.of_startOps {op : Op} (h : op ∈ c.startOps r) : ScanSound c w op := by
  simp only [Cluster.startOps, List.mem_append, List.mem_cons, List.mem_map] at h
  rcases h with (⟨k, -, rfl⟩ | ⟨k, -, rfl⟩) | rfl | ⟨k, -, rfl⟩ <;> exact trivial

theorem ScanSound.of_record {n : InstructionNode} {i : ℕ} {op : Op}
    (h : op ∈ remoteReady n ++ [.recordDma i]) : ScanSound c w op := by
  simp only [remoteReady, List.mem_append, List.mem_singleton] at h
  rcases h with h | rfl
  · split at h <;> simp only [List.mem_singleton, List.not_mem_nil] at h
    subst h
    exact trivial
  · exact trivial

/-- A scan that reads the compiled count misses no reader. -/
theorem ScanSound.of_fresh (hs : ∀ op ∈ e.todo, ScanSound c w op)
    (hcount : ∀ r' key i minRd, l = .run r' → e.todo.head? = some (.scanReaders key i minRd) →
      w.getNumReaders key = c.plan.numReaders key) {op : Op} (h : Fresh c r w e l op) :
    ScanSound c w op := by
  cases h with
  | start hop => exact .of_startOps hop
  | attempt _ _ _ hop => exact .of_attemptOps hop
  | poll _ _ _ _ hop => exact .of_publishOps hop
  | finish _ _ hop => exact .of_publishOps hop
  | scan => exact fun id hid _ => absurd hid (Nat.not_lt_zero _)
  | @scanReader _ i minRd key hhead =>
    have hscan : ScanSound c w (.scanReaders key i minRd) := hs _ (List.mem_of_mem_head? hhead)
    exact hscan
  | @scanEnd _ i minRd key hhead hle =>
    have hscan : ScanSound c w (.scanReaders key i minRd) := hs _ (List.mem_of_mem_head? hhead)
    rw [hcount _ _ _ _ rfl hhead] at hle
    exact fun id hid => hscan id (hid.trans_le hle) hid
  | @scanNext _ i minRd key hhead =>
    have hscan : ScanSound c w (.scanReader key i minRd) := hs _ (List.mem_of_mem_head? hhead)
    intro id hi hid
    rcases Nat.lt_succ_iff_lt_or_eq.1 hi with hlt | rfl
    · exact (min_le_left _ _).trans (hscan id hlt hid)
    · exact min_le_right _ _
  | consume => exact trivial
  | samePlace => exact trivial
  | record _ _ hop => exact .of_record hop

/-! ## Checks -/

theorem submits_checks {n : InstructionNode} {sc : ℕ} {chk : Op} (h : chk ∈ c.checks n sc) :
    (∃ key value, chk = .loadWriteProgress key value) ∨
      ∃ key value, chk = .loadNumReaders key value := by
  simp only [Cluster.checks, inputsReady, Cluster.overwriteReady, List.mem_append,
    List.mem_map] at h
  rcases h with ⟨x, -, rfl⟩ | h | h
  · exact Or.inl ⟨_, _, rfl⟩
  · split at h <;> simp only [List.mem_singleton, List.not_mem_nil] at h
    exact Or.inr ⟨_, _, h⟩
  · split at h
    · cases h
    · simp only [List.mem_append, List.mem_singleton] at h
      rcases h with h | rfl
      · split at h <;> simp only [List.mem_singleton, List.not_mem_nil] at h
        exact Or.inl ⟨_, _, h⟩
      · exact Or.inr ⟨_, _, rfl⟩

theorem attemptOps_eq (r i : ℕ) (n : InstructionNode) (sc : ℕ) :
    c.attemptOps r i n sc = c.checks n sc ++ c.submitOps r i n sc := by
  simp only [Cluster.attemptOps, Cluster.checks, List.append_assoc]

/-- When the submission comes up, every check has gone through. -/
theorem ChecksAhead.admitted (h : ChecksAhead c w r e) {op : Op}
    (hhead : e.todo.head? = some op) {i : ℕ} {n : InstructionNode}
    (hi : op.submits = some i) (hn : c.node? r i = some n) : c.Admitted w n (e.next i) := by
  intro chk hchk
  obtain ⟨rest, htodo⟩ := List.head?_eq_some_iff.1 hhead
  rcases h [] op rest htodo i n hi hn chk hchk with hp | hp
  · rcases hp with hp | ⟨_, _, -, hp⟩ <;> cases hp
  · exact hp

/-- What a step leaves standing before a submission, stood there before; a check that
does not any more has gone through. -/
theorem ChecksAhead.of_agenda (h : ChecksAhead c w r e)
    (hcount : ∀ r' key value, l = .run r' → e.todo.head? = some (.loadNumReaders key value) →
      w.getNumReaders key = c.plan.numReaders key)
    (hconsumed : ∀ key value, e.todo.head? = some (.loadConsumeProgress key value) →
      ∀ id < c.plan.numReaders key, w.getConsumeProgress key ≤ w.getReaderDone id key)
    (ha : Agenda c r w e e' l) {pre post : List Op} {op : Op}
    (htodo' : e'.todo = pre ++ op :: post) {i : ℕ} {n : InstructionNode}
    (hi : op.submits = some i) (hn : c.node? r i = some n) {chk : Op}
    (hchk : chk ∈ c.checks n (e.next i)) : chk.Pending pre ∨ chk.Holds c w := by
  have hop : op ∈ e'.todo := by rw [htodo']; simp
  cases ha with
  | same htodo => exact h pre op post (htodo ▸ htodo') i n hi hn chk hchk
  | clear _ _ htodo => rw [htodo] at hop; cases hop
  | start _ htodo =>
    rw [htodo] at hop
    rw [submits_startOps hop] at hi
    cases hi
  | publish _ htodo =>
    rw [htodo] at hop
    rw [submits_publishOps hop] at hi
    cases hi
  | @attempt _ i' n' _ _ hnode htodo =>
    have hii' : i = i' := submits_attemptOps (htodo ▸ hop) hi
    subst hii'
    cases hnode.symm.trans hn
    rw [htodo, attemptOps_eq] at htodo'
    -- the submission is not among the checks, so they all stand before it
    have hcheck : op ∉ c.checks n (e.next i) := fun hmem => by
      rcases submits_checks hmem with ⟨k, v, rfl⟩ | ⟨k, v, rfl⟩ <;> cases hi
    rcases List.append_eq_append_iff.1 htodo' with ⟨as, hpre, -⟩ | ⟨bs, hchecks, hpost⟩
    · exact Or.inl (Or.inl (by rw [hpre]; exact List.mem_append_left _ hchk))
    · cases bs with
      | nil =>
        rw [List.append_nil] at hchecks
        exact Or.inl (Or.inl (hchecks ▸ hchk))
      | cons b bs =>
        rw [List.cons_append, List.cons.injEq] at hpost
        exact absurd (by rw [hchecks, hpost.1]; simp) hcheck
  | @pass _ head rest htodo₀ hpass htodo =>
    rw [htodo] at htodo'
    have hfull : e.todo = (head :: pre) ++ op :: post := by rw [htodo₀, htodo']; rfl
    rcases h _ op post hfull i n hi hn chk hchk with hp | hp
    · rcases hp with hp | ⟨key, value, rfl, hp⟩
      · rcases List.mem_cons.1 hp with rfl | hp
        · -- the check at the head has gone through
          right
          rcases submits_checks hchk with ⟨k, v, rfl⟩ | ⟨k, v, rfl⟩
          · exact hpass
          · have hsettled := hcount _ k v rfl (by rw [htodo₀]; rfl)
            have hpass : w.getNumReaders k = 0 := hpass
            intro id hid
            omega
        · exact Or.inl (Or.inl hp)
      · rcases List.mem_cons.1 hp with rfl | hp
        · right
          have hpass : value ≤ w.getConsumeProgress key := hpass
          exact fun id hid => hpass.trans (hconsumed key value (by rw [htodo₀]; rfl) id hid)
        · exact Or.inl (Or.inr ⟨key, value, rfl, hp⟩)
    · exact Or.inr hp
  | @scan _ head op' rest htodo₀ hhead hop' htodo =>
    rw [htodo] at htodo'
    cases pre with
    | nil =>
      rw [List.nil_append, List.cons.injEq] at htodo'
      obtain ⟨rfl, -⟩ := htodo'
      cases op' <;> first | (cases hi; done) | cases hop'
    | cons p pre =>
      rw [List.cons_append, List.cons.injEq] at htodo'
      have hfull : e.todo = (head :: pre) ++ op :: post := by
        rw [htodo₀, htodo'.2]; rfl
      rcases h _ op post hfull i n hi hn chk hchk with hp | hp
      · rcases hp with hp | ⟨key, value, rfl, hp⟩
        · rcases List.mem_cons.1 hp with rfl | hp
          · rcases submits_checks hchk with ⟨k, v, rfl⟩ | ⟨k, v, rfl⟩ <;> cases hhead
          · exact Or.inl (Or.inl (List.mem_cons_of_mem _ hp))
        · rcases List.mem_cons.1 hp with rfl | hp
          · cases hhead
          · exact Or.inl (Or.inr ⟨key, value, rfl, List.mem_cons_of_mem _ hp⟩)
      · exact Or.inr hp
  | @consume _ value key rest htodo₀ htodo =>
    rw [htodo] at htodo'
    cases pre with
    | nil =>
      rw [List.nil_append, List.cons.injEq] at htodo'
      rw [← htodo'.1] at hi
      cases hi
    | cons p pre =>
      rw [List.cons_append, List.cons.injEq] at htodo'
      obtain ⟨rfl, htodo'⟩ := htodo'
      have hfull : e.todo = (.loadNumReaders key value :: pre) ++ op :: post := by
        rw [htodo₀, htodo']; rfl
      rcases h _ op post hfull i n hi hn chk hchk with hp | hp
      · rcases hp with hp | ⟨key', value', rfl, hp⟩
        · rcases List.mem_cons.1 hp with rfl | hp
          · exact Or.inl (Or.inr ⟨key, value, rfl, List.mem_cons_self⟩)
          · exact Or.inl (Or.inl (List.mem_cons_of_mem _ hp))
        · rcases List.mem_cons.1 hp with heq | hp
          · cases heq
          · exact Or.inl (Or.inr ⟨key', value', rfl, List.mem_cons_of_mem _ hp⟩)
      · exact Or.inr hp
  | @samePlace _ i' hhead htodo =>
    rw [htodo, List.mem_singleton] at hop
    subst hop
    cases hi
    exact Or.inr (h.admitted hhead rfl hn chk hchk)
  | @record _ i' n' hhead _ htodo =>
    rw [htodo, List.mem_append, List.mem_singleton] at hop
    rcases hop with hop | rfl
    · rw [submits_remoteReady hop] at hi
      cases hi
    · cases hi
      exact Or.inr (h.admitted hhead rfl hn chk hchk)

/-! ## A step that reads the compiled counts -/

theorem Cluster.Admitted.mono (hle : Words.Le w w') {n : InstructionNode} {sc : ℕ}
    (h : c.Admitted w n sc) : c.Admitted w' n sc := fun chk hchk => (h chk hchk).mono hle

theorem ChecksAhead.mono (hle : Words.Le w w') (h : ChecksAhead c w r e) :
    ChecksAhead c w' r e :=
  fun pre op post htodo i n hi hn chk hchk =>
    (h pre op post htodo i n hi hn chk hchk).imp_right (Op.Holds.mono hle)

/-- A step leaves no submission behind that it has moved the cursor of. -/
theorem next_eq_of_submits (hm : Motion c r e e' l) {op : Op} (hop : op ∈ e'.todo) {i : ℕ}
    (hi : op.submits = some i) : e'.next = e.next := by
  cases hm with
  | still hnext => exact hnext
  | finish _ _ _ _ _ htodo =>
    rw [htodo] at hop
    rw [submits_publishOps hop] at hi
    cases hi
  | push _ _ _ _ _ htodo => rw [htodo] at hop; cases hop
  | poll _ _ _ _ _ hnext => exact hnext
  | work _ _ _ _ _ _ he => subst he; rfl
  | count _ _ _ he => subst he; rfl

/-- Of the slices submitted after a step, one at most is new, and its submission was next. -/
theorem lt_next_of_motion (hm : Motion c r e e' l) {i sc : ℕ} (hsc : sc < e'.next i) :
    sc < e.next i ∨ (sc = e.next i ∧
      ∃ op, e.todo.head? = some op ∧ op.submits = some i) := by
  have hupdate : ∀ k, e'.next = Function.update e.next k (e.next k + 1) →
      sc < e.next i ∨ (sc = e.next i ∧ i = k) := fun k hnext => by
    rw [hnext] at hsc
    by_cases hik : i = k
    · subst hik
      rw [Function.update_self] at hsc
      exact (Nat.lt_succ_iff_lt_or_eq.1 hsc).imp_right fun h => ⟨h, rfl⟩
    · rw [Function.update_of_ne hik] at hsc
      exact Or.inl hsc
  cases hm with
  | still hnext => exact Or.inl (hnext ▸ hsc)
  | finish hhead _ hnext =>
    exact (hupdate _ hnext).imp_right fun ⟨h, hik⟩ => ⟨h, _, hhead, by rw [hik]; rfl⟩
  | push hhead _ hnext =>
    refine (hupdate _ hnext).imp_right fun ⟨h, hik⟩ => ⟨h, ?_⟩
    rcases hhead with hhead | hhead <;> exact ⟨_, hhead, by rw [hik]; rfl⟩
  | poll _ _ _ _ _ hnext => exact Or.inl (hnext ▸ hsc)
  | work _ _ _ _ _ _ he => subst he; exact Or.inl hsc
  | count _ _ _ he => subst he; exact Or.inl hsc

theorem settled_of_load {r' value : ℕ} {key : ProgressKey}
    (h : c.countsSettled s (.run r') = true)
    (hhead : (s.execs r').todo.head? = some (.loadNumReaders key value)) :
    s.words.getNumReaders key = c.plan.numReaders key := by
  simpa [Cluster.countsSettled, hhead] using h

theorem settled_of_scan {r' i minRd : ℕ} {key : ProgressKey}
    (h : c.countsSettled s (.run r') = true)
    (hhead : (s.execs r').todo.head? = some (.scanReaders key i minRd)) :
    s.words.getNumReaders key = c.plan.numReaders key := by
  simpa [Cluster.countsSettled, hhead] using h

/-- **Guarding is preserved** by the steps that read the compiled counts. -/
theorem Guarded.step (hd : c.DistinctWords) (hb : Base c s) (h : Guarded c s)
    (hcount : c.countsSettled s l = true) (hstep : c.machine.step s l = some s') :
    Guarded c s' := by
  obtain ⟨hr₀, w, e, hlocal, rfl⟩ := step_cases hstep
  have hstores := Stores.of_localStep hlocal
  have hm := Motion.of_localStep hlocal
  have hle := hstores.le (hb.origin _) hb.bounded
  have horigin : ∀ {op}, (s.execs l.rank).todo.head? = some op → Origin c l.rank op :=
    fun hhead => hb.origin _ _ (List.mem_of_mem_head? hhead)
  have hscans : ∀ op ∈ e.todo, ScanSound c s.words op := by
    intro op hop
    rcases Fresh.of_mem_todo hlocal hop with hop | hf
    · exact h.scans _ hr₀ op hop
    · refine .of_fresh (h.scans _ hr₀) (fun r' key i minRd hl hhead => ?_) hf
      subst hl
      exact settled_of_scan hcount hhead
  have hahead : ChecksAhead c s.words l.rank e := by
    intro pre op post htodo i n hi hn chk hchk
    rw [next_eq_of_submits hm (by rw [htodo]; simp) hi] at hchk
    refine (h.ahead _ hr₀).of_agenda (fun r' key value hl hhead => ?_)
      (fun key value hhead => ?_) (Agenda.of_localStep hlocal) htodo hi hn hchk
    · subst hl
      exact settled_of_load hcount hhead
    · exact h.consumed key (mem_allKeys_of_active hr₀ (horigin hhead))
  constructor
  · intro r hr op hop
    by_cases hrank : r = l.rank
    · subst hrank
      simp only [Function.update_self] at hop
      exact (hscans op hop).mono hle
    · simp only [Function.update_of_ne hrank] at hop
      exact (h.scans r hr op hop).mono hle
  · intro key hkey id hid
    rcases hstores.consumeProgress key with heq | ⟨k, v, hword, hhead, heq⟩
    · exact heq.trans_le ((h.consumed key hkey id hid).trans (hle.done id key))
    · obtain ⟨_, _, hreads⟩ := horigin hhead
      obtain rfl := hd.eq hkey (hreads.mem_allKeys hr₀) hword
      have hscan : ScanSound c s.words (.raiseConsumeProgress key v) :=
        h.scans _ hr₀ _ (List.mem_of_mem_head? hhead)
      exact heq.trans_le (max_le ((h.consumed key hkey id hid).trans (hle.done id key))
        ((hscan id hid).trans (hle.done id key)))
  · intro r hr
    by_cases hrank : r = l.rank
    · subst hrank
      simp only [Function.update_self]
      exact hahead.mono hle
    · simp only [Function.update_of_ne hrank]
      exact (h.ahead r hr).mono hle
  · intro r hr i n hn sc hsc
    by_cases hrank : r = l.rank
    · subst hrank
      simp only [Function.update_self] at hsc
      rcases lt_next_of_motion hm hsc with hlt | ⟨rfl, op, hhead, hi⟩
      · exact (h.admitted _ hr i n hn sc hlt).mono hle
      · exact ((h.ahead _ hr).admitted hhead hi hn).mono hle
    · simp only [Function.update_of_ne hrank] at hsc
      exact (h.admitted r hr i n hn sc hsc).mono hle

theorem Guarded.init (stale : Word → ℕ) : Guarded c (State.init stale) := by
  refine ⟨by simp [State.init], fun _ _ _ _ => Nat.zero_le _, ?_, ?_⟩
  · intro r _ pre op post htodo
    simp [State.init] at htodo
  · intro r _ i n _ sc hsc
    exact absurd hsc (Nat.not_lt_zero _)

end

/-- **Readers are counted.**  In a run that reads compiled reader counts only, the consume
cursor of a chunk version is behind all its compiled readers, and when a slice has been
submitted, every compiled reader is through with the slice whose ring slot it takes, and
with the slice of the version it overwrites. -/
theorem consume_progress_sound {c : Cluster} (hd : c.DistinctWords) {stale : Word → ℕ}
    {ls : List Label} {s : State}
    (hrun : c.machine.runFrom c.countsSettled (State.init stale) ls = some s) :
    (∀ key ∈ c.allKeys, ∀ id < c.plan.numReaders key,
      s.words.getConsumeProgress key ≤ s.words.getReaderDone id key) ∧
    ∀ r < c.worldSize, ∀ i n, c.node? r i = some n → ∀ sc < (s.execs r).next i,
      (n.outputRingBuffered = true → c.ringSlots ≤ sc →
        ∀ id < c.plan.numReaders n.output, sc - c.ringSlots < s.words.getReaderDone id n.output) ∧
      ∀ guard, n.overwriteGuard = some guard →
        ∀ id < c.plan.numReaders guard, sc < s.words.getReaderDone id guard := by
  have hinv : Base c s ∧ Guarded c s :=
    c.machine.invariant (I := fun s => Base c s ∧ Guarded c s)
      (fun s l s' ⟨hb, hg⟩ hcount hstep => ⟨hb.step hstep, hg.step hd hb hcount hstep⟩)
      ⟨Base.init stale, Guarded.init stale⟩ hrun
  refine ⟨hinv.2.consumed, fun r hr i n hn sc hsc => ?_⟩
  have hadmitted := hinv.2.admitted r hr i n hn sc hsc
  refine ⟨fun hring hslots id hid => ?_, fun guard hguard id hid => ?_⟩
  · have hchk := hadmitted (.loadNumReaders n.output (sc - c.ringSlots + 1)) (by
      simp [Cluster.checks, Cluster.overwriteReady, hring, hslots])
    exact hchk id hid
  · have hchk := hadmitted (.loadNumReaders guard (sc + 1)) (by
      simp [Cluster.checks, Cluster.overwriteReady, hguard])
    exact hchk id hid

/-! ### A rank that starts late -/

/-- Rank 0 brings its two inputs to the same host chunk, one after the other, and both
ranks fetch each of them. -/
def reuseProgram : IRProgram where
  inputChunkCount := 2
  outputChunkCount := 2
  allInstructions :=
    [{ op := .d2h, rank := 0, src := ⟨0, 0⟩, dst := ⟨0, 0⟩ },
     { op := .h2d, rank := 0, src := ⟨0, 0⟩, dst := ⟨0, 0⟩ },
     { op := .h2d, rank := 1, src := ⟨0, 0⟩, dst := ⟨0, 0⟩ },
     { op := .d2h, rank := 0, src := ⟨0, 1⟩, dst := ⟨0, 0⟩ },
     { op := .h2d, rank := 0, src := ⟨0, 0⟩, dst := ⟨0, 1⟩ },
     { op := .h2d, rank := 1, src := ⟨0, 0⟩, dst := ⟨0, 1⟩ }]

def reuse : Cluster where
  env := {}
  graphOptions := { legacyLayout := { segCount := 2 } }
  program := reuseProgram
  worldSize := 2
  plan := (plan? _ _ _).get (by decide)
  binding := fun _ => plainBinding
  h2hThreads := 1
  h2hThreads_pos := Nat.one_pos

/-- Rank 0 brings its first input to the host and fetches it; `between` happens before it
publishes that it has. -/
def reuseFirst (between : List Label) : List Label :=
  [.attempt 0 0] ++ runs 0 4 ++ [.work 0 .d2h 0 0 4, .count 0 .d2h 0 0, .poll 0 .d2h 0] ++
  runs 0 6 ++ [.attempt 0 1] ++ runs 0 4 ++ [.work 0 .h2d 0 0 4, .count 0 .h2d 0 0] ++
  between ++ [.poll 0 .h2d 0]

/-- Both ranks are through with their starts, and with the first input. -/
def reuseInOrder : List Label :=
  [.start 0] ++ runs 0 16 ++ [.start 1] ++ runs 1 15 ++ reuseFirst [] ++ runs 0 8 ++
  [.attempt 1 0] ++ runs 1 4 ++ [.work 1 .h2d 0 0 4, .count 1 .h2d 0 0, .poll 1 .h2d 0] ++
  runs 1 8 ++ [.attempt 0 2] ++ runs 0 6

/-- When rank 0 counts the readers of the first input, rank 1 has just reset their
number. -/
def reuseSkewed : List Label :=
  [.start 0] ++ runs 0 16 ++ reuseFirst ([.start 1] ++ runs 1 3) ++ runs 0 4 ++ runs 1 12 ++
  [.attempt 0 2] ++ runs 0 6

/-- The host chunk is overwritten once both ranks have fetched it. -/
theorem consume_progress_sound_reuse :
    ∃ s n guard, reuse.machine.runFrom reuse.countsSettled (State.init fun _ => 0)
        reuseInOrder = some s ∧
      reuse.node? 0 2 = some n ∧ n.overwriteGuard = some guard ∧
      reuse.plan.numReaders guard = 2 ∧ 0 < (s.execs 0).next 2 ∧
      ∀ id < 2, 0 < s.words.getReaderDone id guard := by
  have hobs : ((reuse.machine.runFrom reuse.countsSettled (State.init fun _ => 0)
      reuseInOrder).map fun s => (reuse.node? 0 2).map fun n =>
        (n.overwriteGuard.map fun guard => (reuse.plan.numReaders guard,
          decide (0 < (s.execs 0).next 2)))) = some (some (some (2, true))) := by decide +kernel
  obtain ⟨s, hrun, hobs⟩ := Option.map_eq_some_iff.1 hobs
  obtain ⟨n, hn, hobs⟩ := Option.map_eq_some_iff.1 hobs
  obtain ⟨guard, hguard, hobs⟩ := Option.map_eq_some_iff.1 hobs
  simp only [Prod.mk.injEq, decide_eq_true_eq] at hobs
  refine ⟨s, n, guard, hrun, hn, hguard, hobs.1, hobs.2, fun id hid => ?_⟩
  exact ((consume_progress_sound (by decide) hrun).2 0 (by decide) 2 n hn 0 hobs.2).2 guard
    hguard id (by rw [hobs.1]; exact hid)

/-- The consume cursor of the first input passes the cursor of reader 1, and the host chunk
is overwritten before rank 1 has fetched it. -/
theorem late_start_overwrites :
    ∃ s n guard, reuse.machine.runFrom Theory.Machine.anyStep (State.init fun _ => 0)
        reuseSkewed = some s ∧
      reuse.node? 0 2 = some n ∧ n.overwriteGuard = some guard ∧
      reuse.plan.numReaders guard = 2 ∧
      s.words.getConsumeProgress guard = 1 ∧ s.words.getReaderDone 1 guard = 0 ∧
      0 < (s.execs 0).next 2 := by
  have hobs : ((reuse.machine.runFrom Theory.Machine.anyStep (State.init fun _ => 0)
      reuseSkewed).map fun s => (reuse.node? 0 2).map fun n =>
        (n.overwriteGuard.map fun guard => (reuse.plan.numReaders guard,
          s.words.getConsumeProgress guard, s.words.getReaderDone 1 guard,
          decide (0 < (s.execs 0).next 2)))) = some (some (some (2, 1, 0, true))) := by
    decide +kernel
  obtain ⟨s, hrun, hobs⟩ := Option.map_eq_some_iff.1 hobs
  obtain ⟨n, hn, hobs⟩ := Option.map_eq_some_iff.1 hobs
  obtain ⟨guard, hguard, hobs⟩ := Option.map_eq_some_iff.1 hobs
  simp only [Prod.mk.injEq, decide_eq_true_eq] at hobs
  exact ⟨s, n, guard, hrun, hn, hguard, hobs.1, hobs.2.1, hobs.2.2.1, hobs.2.2.2⟩

end Executor
end HyLink
