import HyLink.Executor.Progress
import HyLink.Theory.Halting

/-!
# The executors come to rest

Only `trySubmitNode` can go on for ever.  Everything else a thread, an H2H worker or a DMA engine
does brings what has been submitted closer to its end, so that without new attempts the cluster
comes to rest, and at rest it is quiet: every rank has started, no thread has anything left to do
and nothing is in flight.

* `Exec.left` — what an executor has still to do; `Exec.left_lt` — every step but an attempt makes
  it less.
* `Sane` — what holds in every reachable state of a well-posed cluster: no executor has failed.
* `quiet_of_halted` — a cluster in which nothing but an attempt is possible is quiet.
-/

namespace HyLink
namespace Executor

open Ir Compiler Theory

/-- Every step but trying a node. -/
def Label.goesOn : Label → Bool
  | .attempt .. => false
  | _ => true

/-! ## What is left to do -/

/-- What becomes of the slice that an operation submits, in steps. -/
def Op.slices : Op → ℕ
  | .submitDma _ => 3
  | .finishNow _ | .submitH2h _ | .recordDma _ => 2
  | _ => 0

/-- The steps that an operation takes at most. -/
def Op.steps : Op → ℕ
  | .advanceReaderDone .. => 2 * maxProgressReaders + 3
  | .scanReaders _ i _ => 2 * (maxProgressReaders - i) + 2
  | .scanReader _ i _ => 2 * (maxProgressReaders - i) + 1
  | .loadNumReaders .. => 2
  | _ => 1

def Share.left (s : Share) : ℕ := s.stop - s.pos + (!s.counted).toNat

def Inflight.left (x : Inflight) : ℕ := (x.shares.map Share.left).sum

/-- A sum over the queues. -/
def Queue.total (f : Queue → ℕ) : ℕ :=
  f .d2h + f .h2d + f .d2dPeer + f .d2dLocal + f .d2dReduce + f .h2h

/-- What an executor has still to do: slices to submit and to publish, then bytes to move, then
operations. -/
def Exec.left (e : Exec) : ℕ × ℕ × ℕ :=
  ((!e.started).toNat + (e.todo.map Op.slices).sum +
      Queue.total fun q => (e.inflight q).length,
    Queue.total fun q => ((e.inflight q).map Inflight.left).sum,
    (e.todo.map Op.steps).sum)

section

variable {c : Cluster} {r : ℕ} {w w' : SharedWords} {e e' : Exec} {l : Label}

theorem Queue.total_update {A : Type} (f : Queue → A) (g : A → ℕ) (q : Queue) (a : A) :
    (Queue.total fun q' => g (Function.update f q a q')) + g (f q) =
      (Queue.total fun q' => g (f q')) + g a := by
  cases q <;> simp [Queue.total] <;> omega

theorem Queue.le_total (f : Queue → ℕ) (q : Queue) : f q ≤ Queue.total f := by
  cases q <;> simp [Queue.total] <;> omega

theorem Queue.add_le_total (f : Queue → ℕ) {q q' : Queue} (h : q ≠ q') :
    f q + f q' ≤ Queue.total f := by
  cases q <;> cases q' <;> first | exact absurd rfl h | (simp only [Queue.total]; omega)

theorem slices_eq_zero {op : Op} (h : op.submits = none) : op.slices = 0 := by
  cases op <;> first | rfl | cases h

theorem sum_slices_eq_zero {ops : List Op} (h : ∀ op ∈ ops, op.submits = none) :
    (ops.map Op.slices).sum = 0 :=
  List.sum_eq_zero fun x hx => by
    obtain ⟨op, hop, rfl⟩ := List.mem_map.1 hx
    exact slices_eq_zero (h op hop)

theorem Op.steps_pos (op : Op) : 0 < op.steps := by
  cases op <;> simp [Op.steps]

/-- Going on with the rest of the list, or with nothing. -/
theorem left_lt_of_todo {op : Op} {rest ops : List Op} (htodo : e.todo = op :: rest)
    (hslices : (ops.map Op.slices).sum < op.slices + (rest.map Op.slices).sum ∨
      (ops.map Op.slices).sum = op.slices + (rest.map Op.slices).sum ∧
        (ops.map Op.steps).sum < op.steps + (rest.map Op.steps).sum)
    (hstarted : e'.started = e.started) (hinflight : e'.inflight = e.inflight)
    (htodo' : e'.todo = ops) : Lex3 e'.left e.left := by
  rw [lex3_iff]
  simp only [Exec.left, hstarted, hinflight, htodo, htodo', List.map_cons, List.sum_cons,
    true_and]
  omega

theorem left_lt_of_cut {op : Op} {rest ops : List Op} (htodo : e.todo = op :: rest)
    (hops : ops = rest ∨ ops = []) (hstarted : e'.started = e.started)
    (hinflight : e'.inflight = e.inflight) (htodo' : e'.todo = ops) : Lex3 e'.left e.left := by
  refine left_lt_of_todo htodo ?_ hstarted hinflight htodo'
  have := op.steps_pos
  rcases hops with rfl | rfl
  · omega
  · simp only [List.map_nil, List.sum_nil]
    omega

/-- Putting the slice into a queue. -/
theorem left_lt_of_push {op : Op} {rest : List Op} {q : Queue} {i : ℕ} {shares : List Share}
    (htodo : e.todo = op :: rest) (hop : op.slices = 2) : Lex3 (e.push q i shares).left e.left := by
  have hlen := Queue.total_update e.inflight List.length q (e.inflight q ++ [⟨i, e.next i, shares⟩])
  rw [lex3_iff]
  simp only [Exec.left, Exec.push, htodo, List.map_cons, List.sum_cons, List.map_nil, List.sum_nil,
    hop, List.length_append, List.length_singleton] at hlen ⊢
  omega

theorem left_lt_of_run {op : Op} {rest : List Op} (htodo : e.todo = op :: rest)
    (hscan : ∀ key i minRd, .scanReader key i minRd ∈ e.todo → i < maxProgressReaders)
    (h : c.runOp r w e rest op = (w', e')) : Lex3 e'.left e.left := by
  have hfail : Lex3 e.fail.left e.left := left_lt_of_cut htodo (Or.inr rfl) rfl rfl rfl
  cases op with
  | setNumReaders | publishUserReady | setWriteProgress | advanceWriteProgress |
    raiseConsumeProgress =>
    cases h
    exact left_lt_of_cut htodo (Or.inl rfl) rfl rfl rfl
  | advanceReaderDone key id value =>
    simp only [Cluster.runOp] at h
    split at h <;> cases h
    · exact left_lt_of_cut htodo (Or.inl rfl) rfl rfl rfl
    · exact left_lt_of_todo htodo (Or.inr (by simp [Op.slices, Op.steps])) rfl rfl rfl
  | scanReaders key i minRd =>
    cases h
    refine left_lt_of_todo htodo (Or.inr ?_) rfl rfl rfl
    split <;> simp [Op.slices, Op.steps]
  | scanReader key i minRd =>
    cases h
    have hlt := hscan key i minRd (by rw [htodo]; exact List.mem_cons_self)
    refine left_lt_of_todo htodo (Or.inr ?_) rfl rfl rfl
    constructor <;> simp [Op.slices, Op.steps]
    omega
  | loadWriteProgress key value | loadConsumeProgress key value | loadUserReady rank =>
    cases h
    refine left_lt_of_cut htodo ?_ rfl rfl rfl
    split
    · exact Or.inl rfl
    · exact Or.inr rfl
  | loadNumReaders key value =>
    cases h
    refine left_lt_of_todo htodo (Or.inr ?_) rfl rfl rfl
    split <;> simp [Op.slices, Op.steps]
  | finishNow i =>
    simp only [Cluster.runOp] at h
    split at h <;> cases h
    · exact hfail
    · refine left_lt_of_todo htodo (Or.inl ?_) rfl rfl rfl
      dsimp only [Exec.finish]
      rw [sum_slices_eq_zero fun op hop => submits_publishOps hop]
      simp [Op.slices]
  | submitH2h i =>
    simp only [Cluster.runOp] at h
    split at h
    · cases h; exact hfail
    · split at h <;> cases h
      · exact hfail
      · exact left_lt_of_push htodo rfl
  | submitDma i =>
    simp only [Cluster.runOp] at h
    split at h
    · cases h; exact hfail
    · split at h
      · cases h; exact left_lt_of_cut htodo (Or.inr rfl) rfl rfl rfl
      · split at h
        · split at h <;> cases h
          · exact left_lt_of_todo htodo (Or.inl (by simp [Op.slices]; omega)) rfl rfl rfl
          · refine left_lt_of_todo htodo (Or.inl ?_) rfl rfl rfl
            dsimp only
            rw [List.map_append, List.sum_append,
              sum_slices_eq_zero fun op hop => submits_remoteReady hop]
            simp [Op.slices]
            omega
        · cases h; exact hfail
  | recordDma i =>
    simp only [Cluster.runOp] at h
    split at h <;> cases h
    · exact hfail
    · exact left_lt_of_push htodo rfl

/-- A share that moves on, or is counted. -/
theorem left_lt_of_share {q : Queue} {j t : ℕ} {f : Share → Share} {entry : Inflight}
    {share : Share}
    (hentry : (e.inflight q)[j]? = some entry) (hshare : entry.shares[t]? = some share)
    (hlt : (f share).left < share.left) : Lex3 (e.updateShare q j t f).left e.left := by
  have hlen := Queue.total_update e.inflight List.length q
    ((e.inflight q).modify j fun x => { x with shares := x.shares.modify t f })
  have hleft := Queue.total_update e.inflight (fun l => (l.map Inflight.left).sum) q
    ((e.inflight q).modify j fun x => { x with shares := x.shares.modify t f })
  have hsum := sum_map_modify Inflight.left (fun x => { x with shares := x.shares.modify t f })
    hentry
  have hentries := sum_map_modify Share.left f hshare
  rw [List.length_modify] at hlen
  rw [lex3_iff]
  simp only [Exec.left, Exec.updateShare, Inflight.left] at hlen hleft hsum hentries ⊢
  omega

/-- **Everything but an attempt makes less to do.** -/
theorem left_lt (hgoes : l.goesOn = true) (hidle : e.started = false → e.todo = [])
    (hscan : ∀ key i minRd, .scanReader key i minRd ∈ e.todo → i < maxProgressReaders)
    (h : c.localStep r w e l = some (w', e')) : Lex3 e'.left e.left := by
  cases l with
  | attempt => cases hgoes
  | start r' =>
    obtain ⟨hstarted, -, rfl⟩ := start_eq h
    rw [lex3_iff]
    simp only [Exec.left, hstarted, hidle hstarted,
      sum_slices_eq_zero fun op hop => submits_startOps hop]
    simp
  | run r' =>
    obtain ⟨op, rest, htodo, h⟩ := run_eq h
    exact left_lt_of_run htodo hscan h
  | poll r' q j =>
    obtain ⟨hi, -, entry, n, hentry, -, -, -, rfl⟩ := poll_eq h
    have hlen := Queue.total_update e.inflight List.length q ((e.inflight q).eraseIdx j)
    have hj := (List.getElem?_eq_some_iff.1 hentry).1
    rw [List.length_eraseIdx_of_lt hj] at hlen
    rw [lex3_iff]
    simp only [Exec.left, todo_of_idle hi, sum_slices_eq_zero fun op hop => submits_publishOps hop,
      List.map_nil, List.sum_nil] at hlen ⊢
    omega
  | work r' q j t k =>
    obtain ⟨entry, share, n, hentry, hshare, -, hpos, hle, -, -, rfl⟩ := work_eq h
    refine left_lt_of_share hentry hshare ?_
    simp only [Share.left]
    omega
  | count r' q j t =>
    simp only [Cluster.localStep] at h
    obtain ⟨entry, hentry, h⟩ := Option.bind_eq_some_iff.1 h
    obtain ⟨share, hshare, h⟩ := Option.bind_eq_some_iff.1 h
    split at h
    · next hcond =>
      cases h
      refine left_lt_of_share hentry hshare ?_
      simp [Share.left, hcond.2]
    · cases h

end

/-! ## What holds of a well-posed cluster -/

structure Sane (c : Cluster) (s : State) : Prop where
  base : Base c s
  owed : Owed c s
  /-- No executor has given up. -/
  unfailed : ∀ r, (s.execs r).failed = false
  /-- Only host copies and reductions go to the H2H engine. -/
  suited : ∀ r i, .submitH2h i ∈ (s.execs r).todo → ∀ n, c.node? r i = some n →
    n.op = .h2h ∨ n.op = .h2hReduce
  within : ∀ r q, ∀ x ∈ (s.execs r).inflight q, ∀ share ∈ x.shares, share.pos ≤ share.stop

section

variable {c : Cluster} {r : ℕ} {w w' : SharedWords} {e e' : Exec} {s s' : State} {l : Label}

theorem failed_of_localStep (hp : c.WellPosed) (hr : r < c.worldSize) (ht : Tidy c r e)
    (hsuited : ∀ i, .submitH2h i ∈ e.todo → ∀ n, c.node? r i = some n →
      n.op = .h2h ∨ n.op = .h2hReduce)
    (h : c.localStep r w e l = some (w', e')) : e'.failed = e.failed := by
  cases l with
  | start r' => obtain ⟨-, -, rfl⟩ := start_eq h; rfl
  | attempt r' i => obtain ⟨-, -, n, -, -, rfl⟩ := attempt_eq h; rfl
  | poll r' q j => obtain ⟨-, -, entry, n, -, -, -, -, rfl⟩ := poll_eq h; rfl
  | work r' q j t k => obtain ⟨entry, share, n, -, -, -, -, -, -, -, rfl⟩ := work_eq h; rfl
  | count r' q j t => obtain ⟨entry, share, -, -, -, -, rfl⟩ := count_eq h; rfl
  | run r' =>
    obtain ⟨op, rest, htodo, h⟩ := run_eq h
    have hop : op ∈ e.todo := by rw [htodo]; exact List.mem_cons_self
    have hsubmits := ht.submits op hop
    cases op with
    | finishNow i | recordDma i =>
      obtain ⟨⟨n, hn⟩, -⟩ := hsubmits i rfl
      simp only [Cluster.runOp, hn] at h
      cases h
      rfl
    | submitH2h i =>
      obtain ⟨⟨n, hn⟩, hlt⟩ := hsubmits i rfl
      obtain ⟨hout, hin⟩ := hp.bound r hr n (mem_nodes_of_node? hn) _ hlt
      have haccepted : ¬ (¬ (n.op = .h2h ∨ n.op = .h2hReduce) ∨ n.inputs = [] ∨
          c.resolve r n.output.base (e.next i) n.outputRingBuffered = none ∨
          ∃ x ∈ n.inputs, c.resolve r x.key.base (e.next i) x.ringBuffered = none) := by
        rintro (hno | hno | hno | ⟨x, hx, hno⟩)
        · exact hno (hsuited i hop n hn)
        · exact inputs_ne_nil hn hno
        · exact hout hno
        · exact hin x hx hno
      simp only [Cluster.runOp, hn, if_neg haccepted] at h
      cases h
      rfl
    | submitDma i =>
      obtain ⟨⟨n, hn⟩, hlt⟩ := hsubmits i rfl
      obtain ⟨hout, hin⟩ := hp.bound r hr n (mem_nodes_of_node? hn) _ hlt
      obtain ⟨x, xs, hinputs⟩ := List.exists_cons_of_ne_nil (inputs_ne_nil hn)
      obtain ⟨dst, hdst⟩ := Option.ne_none_iff_exists'.1 hout
      obtain ⟨src, hsrc⟩ := Option.ne_none_iff_exists'.1
        (hin x (by rw [hinputs]; exact List.mem_cons_self))
      simp only [Cluster.runOp, hn, hdst, hinputs, List.head?_cons, Option.bind_some, hsrc] at h
      split at h
      · cases h; rfl
      · split at h <;> cases h <;> rfl
    | advanceReaderDone key id value =>
      simp only [Cluster.runOp] at h
      split at h <;> cases h <;> rfl
    | _ => cases h; rfl

theorem suited_of_localStep (hsuited : ∀ i, .submitH2h i ∈ e.todo → ∀ n, c.node? r i = some n →
      n.op = .h2h ∨ n.op = .h2hReduce) (h : c.localStep r w e l = some (w', e')) {i : ℕ}
    (hop : .submitH2h i ∈ e'.todo) {n : InstructionNode} (hn : c.node? r i = some n) :
    n.op = .h2h ∨ n.op = .h2hReduce := by
  have hnone : ∀ {op : Op}, op.submits = none → op ≠ .submitH2h i := by rintro op hno rfl; cases hno
  rcases Fresh.of_mem_todo h hop with hold | hfresh
  · exact hsuited i hold n hn
  cases hfresh with
  | start hop => exact absurd rfl (hnone (submits_startOps hop))
  | poll _ _ _ _ hop => exact absurd rfl (hnone (submits_publishOps hop))
  | finish _ _ hop => exact absurd rfl (hnone (submits_publishOps hop))
  | record _ _ hop =>
    rcases List.mem_append.1 hop with hop | hop
    · exact absurd rfl (hnone (submits_remoteReady hop))
    · cases List.mem_singleton.1 hop
  | @attempt _ j n' _ _ _ hnode hop =>
    simp only [Cluster.attemptOps, inputsReady, Cluster.overwriteReady, Cluster.submitOps,
      Cluster.leadWindow, List.mem_append, List.mem_map] at hop
    rcases hop with ⟨x, -, hop⟩ | (hop | hop) | hop
    · cases hop
    · split at hop <;> simp at hop
    · split at hop <;> simp at hop
    · split at hop
      · simp at hop
      · simp only [List.mem_append, List.mem_singleton] at hop
        rcases hop with hop | hop
        · split at hop <;> simp at hop
        · split at hop
          · next hkind =>
            cases hop
            rw [hnode, Option.some.injEq] at hn
            exact hn ▸ hkind
          · cases hop

theorem le_of_sharesOf {n : InstructionNode} {bytes : ℕ} {share : Share}
    (h : share ∈ c.sharesOf n bytes) : share.pos ≤ share.stop := by
  simp only [Cluster.sharesOf] at h
  split at h
  · obtain ⟨tid, -, rfl⟩ := List.mem_map.1 h
    simp only [Cluster.threadShare]
    omega
  · rw [List.mem_singleton] at h
    subst h
    exact Nat.zero_le _

theorem within_of_localStep
    (hwithin : ∀ q, ∀ x ∈ e.inflight q, ∀ share ∈ x.shares, share.pos ≤ share.stop)
    (h : c.localStep r w e l = some (w', e')) :
    ∀ q, ∀ x ∈ e'.inflight q, ∀ share ∈ x.shares, share.pos ≤ share.stop := by
  have hshare : ∀ {q j t entry share} {f : Share → Share}, (e.inflight q)[j]? = some entry →
      entry.shares[t]? = some share → (f share).pos ≤ (f share).stop →
      e' = e.updateShare q j t f →
      ∀ q, ∀ x ∈ e'.inflight q, ∀ share ∈ x.shares, share.pos ≤ share.stop := by
    rintro q j t entry share f hentry hs hle rfl q' x hx share' hshare'
    rcases exists_of_mem_updateShare hx with hx | ⟨y, hy, rfl⟩
    · exact hwithin q' x hx share' hshare'
    · rw [hentry, Option.some.injEq] at hy
      subst hy
      rcases exists_of_mem_modify hshare' with hold | ⟨z, hz, rfl⟩
      · exact hwithin q entry (List.mem_of_getElem? hentry) share' hold
      · rw [hs, Option.some.injEq] at hz
        exact hz ▸ hle
  cases Motion.of_localStep h with
  | still _ _ hin => rw [hin]; exact hwithin
  | finish _ _ _ _ hin => rw [hin]; exact hwithin
  | @push _ i n _ _ _ _ hin =>
    intro q x hx
    rw [hin] at hx
    by_cases hq : q = queueOf n
    · subst hq
      rw [Function.update_self, List.mem_append, List.mem_singleton] at hx
      rcases hx with hx | rfl
      · exact hwithin _ x hx
      · exact fun share hs => le_of_sharesOf hs
    · rw [Function.update_of_ne hq] at hx
      exact hwithin q x hx
  | @poll _ q₀ j _ _ _ _ _ _ _ _ _ hin =>
    intro q x hx
    rw [hin] at hx
    by_cases hq : q = q₀
    · subst hq
      rw [Function.update_self] at hx
      exact hwithin q x (List.mem_of_mem_eraseIdx hx)
    · rw [Function.update_of_ne hq] at hx
      exact hwithin q x hx
  | work hentry hs _ _ hle _ he => exact hshare hentry hs hle he
  | count hentry hs hpos he => exact hshare hentry hs hpos.le he

theorem Sane.init (stale : Word → ℕ) : Sane c (State.init stale) where
  base := Base.init stale
  owed := Owed.init stale
  unfailed _ := rfl
  suited _ _ hop := absurd hop List.not_mem_nil
  within _ _ _ hx := absurd hx List.not_mem_nil

theorem Sane.step (hp : c.WellPosed) (h : Sane c s) (hstep : c.machine.step s l = some s') :
    Sane c s' := by
  obtain ⟨hr, w, e, hlocal, rfl⟩ := step_cases hstep
  refine ⟨h.base.step hstep, h.owed.step hp.words h.base hstep, fun r => ?_, fun r i hop n hn => ?_,
    fun r => ?_⟩
  all_goals
    by_cases hrank : r = l.rank
  · subst hrank
    dsimp only
    rw [Function.update_self, failed_of_localStep hp hr (h.base.tidy _) (h.suited _) hlocal]
    exact h.unfailed _
  · dsimp only
    rw [Function.update_of_ne hrank]
    exact h.unfailed r
  · subst hrank
    dsimp only at hop
    rw [Function.update_self] at hop
    exact suited_of_localStep (h.suited _) hlocal hop hn
  · dsimp only at hop
    rw [Function.update_of_ne hrank] at hop
    exact h.suited r i hop n hn
  · subst hrank
    dsimp only
    rw [Function.update_self]
    exact within_of_localStep (h.within _) hlocal
  · dsimp only
    rw [Function.update_of_ne hrank]
    exact h.within r

theorem Sane.of_run (hp : c.WellPosed) {stale : Word → ℕ} {ls : List Label}
    (hrun : c.machine.runFrom Machine.anyStep (State.init stale) ls = some s) : Sane c s :=
  c.machine.invariant (fun _ _ _ h _ hstep => h.step hp hstep) (Sane.init stale) hrun

/-! ## Rest -/

/-- What the cluster has still to do. -/
def Cluster.left (c : Cluster) (s : State) : ℕ × ℕ × ℕ :=
  sum3 c.worldSize fun r => (s.execs r).left

theorem Sane.left_lt (h : Sane c s) (hgoes : l.goesOn = true)
    (hstep : c.machine.step s l = some s') : Lex3 (c.left s') (c.left s) := by
  obtain ⟨hr, w, e, hlocal, rfl⟩ := step_cases hstep
  refine lex_sum hr (fun r hne => ?_) ?_
  · simp only [Function.update_of_ne hne]
  · simp only [Function.update_self]
    refine Executor.left_lt hgoes (h.owed.orderly _).idle (fun key i minRd hop => ?_) hlocal
    exact (h.owed.inRange _ hr key i minRd hop).trans_le (c.plan.numReaders_le key)

/-- A label of a rank of the world that is not enabled. -/
theorem localStep_eq_none (l : Label) (hr : l.rank < c.worldSize) (h : c.machine.step s l = none) :
    c.localStep l.rank s.words (s.execs l.rank) l = none := by
  simpa only [Cluster.machine, Cluster.step, if_pos hr, Option.map_eq_none_iff] using h

/-- An entry that nobody works on is finished. -/
theorem finished_of_halted (h : Sane c s) (hr : r < c.worldSize) {q : Queue} {entry : Inflight}
    {rest : List Inflight} (hq : (s.execs r).inflight q = entry :: rest)
    (hhalted : ∀ l, l.goesOn = true → c.machine.step s l = none) : entry.finished = true := by
  have hhead : ((s.execs r).inflight q)[0]? = some entry := by rw [hq]; rfl
  have hmem : entry ∈ (s.execs r).inflight q := List.mem_of_getElem? hhead
  obtain ⟨n, hn, -⟩ := (h.base.tidy r).queue q entry hmem
  have hcounted : ∀ share ∈ entry.shares, share.counted = true := by
    intro share hshare
    obtain ⟨t, ht⟩ := List.getElem?_of_mem hshare
    have hle := h.within r q entry hmem share hshare
    have hwork : c.localStep r s.words (s.execs r) (.work r q 0 t (share.stop - share.pos)) =
        none := localStep_eq_none (.work r q 0 t (share.stop - share.pos)) hr (hhalted _ rfl)
    have hstop : share.pos = share.stop := by
      by_contra hne
      have hunits : c.wholeUnits n share (share.stop - share.pos) = true :=
        decide_eq_true fun _ => Or.inr (by omega)
      have hcond : 0 < share.stop - share.pos ∧
          share.pos + (share.stop - share.pos) ≤ share.stop ∧
          c.wholeUnits n share (share.stop - share.pos) = true := ⟨by omega, by omega, hunits⟩
      simp only [Cluster.localStep, hhead, ht, hn, Option.bind_some, if_pos hcond] at hwork
      cases hwork
    by_contra hno
    have hcount : c.localStep r s.words (s.execs r) (.count r q 0 t) = none :=
      localStep_eq_none (.count r q 0 t) hr (hhalted _ rfl)
    have hcond : share.pos = share.stop ∧ share.counted = false := ⟨hstop, by simpa using hno⟩
    simp only [Cluster.localStep, hhead, ht, Option.bind_some, if_pos hcond] at hcount
    cases hcount
  refine decide_eq_true ?_
  rw [Inflight.doneCounter, List.countP_eq_length.2 hcounted]

/-- **At rest the cluster is quiet.** -/
theorem quiet_of_halted (h : Sane c s)
    (hhalted : ∀ l, l.goesOn = true → c.machine.step s l = none) : Quiet c s := by
  have hidle : ∀ r < c.worldSize, (s.execs r).idle = true := by
    intro r hr
    have hstart : c.localStep r s.words (s.execs r) (.start r) = none :=
      localStep_eq_none (.start r) hr (hhalted _ rfl)
    have hrun : c.localStep r s.words (s.execs r) (.run r) = none :=
      localStep_eq_none (.run r) hr (hhalted _ rfl)
    have hstarted : (s.execs r).started = true := by
      by_contra hno
      simp only [Cluster.localStep, if_neg hno] at hstart
      cases hstart
    have htodo : (s.execs r).todo = [] := by
      cases htodo : (s.execs r).todo with
      | nil => rfl
      | cons op rest =>
        simp only [Cluster.localStep, htodo] at hrun
        cases hrun
    simp [Exec.idle, hstarted, htodo, h.unfailed r]
  refine ⟨hidle, fun r hr q => ?_⟩
  cases hq : (s.execs r).inflight q with
  | nil => rfl
  | cons entry rest =>
    have hpoll : c.localStep r s.words (s.execs r) (.poll r q 0) = none :=
      localStep_eq_none (.poll r q 0) hr (hhalted _ rfl)
    have hhead : ((s.execs r).inflight q)[0]? = some entry := by rw [hq]; rfl
    obtain ⟨n, hn, -⟩ := (h.base.tidy r).queue q entry (List.mem_of_getElem? hhead)
    simp [Cluster.localStep, hidle r hr, hhead, finished_of_halted h hr hq hhalted, hn] at hpoll

end

end Executor
end HyLink
