import Mathlib.Algebra.BigOperators.Group.Finset.Piecewise
import HyLink.Executor.Rest
import HyLink.Executor.Serial

/-!
# A program with an order always gets done

A program whose lines can be put in an order has no cycle of dependencies, so that a quiet cluster
always has a node to go on with; and a cluster comes to rest after every submission.  So the
executors cannot get stuck: whatever they have done so far, they can finish.

* `InOrder.acyclic` — the dependencies of a program with an order have no cycle.
* `exists_finish` — from every state the cluster can finish, under any condition on its steps that
  does not stand in the way.
* `finish_of_reachable` — no run of an ordered program, however interleaved, ends in a dead end.
* `finishes_iff_selfless` — a program with an order has a finished run that publishes in order and
  reads settled counts just if no node waits for itself.
-/

namespace HyLink
namespace Executor

open Ir Compiler Theory Theory.Dataflow

section

variable {c : Cluster} {s s' : State} {l : Label} {r i : ℕ} {n : InstructionNode}

/-! ## Going on from a quiet state -/

theorem next_le_of_step (h : c.machine.step s l = some s') (r i : ℕ) :
    (s.execs r).next i ≤ (s'.execs r).next i := by
  obtain ⟨-, w, e, hlocal, rfl⟩ := step_cases h
  have hkey : (s.execs l.rank).next i ≤ e.next i := by
    have hup : ∀ {k}, e.next = Function.update (s.execs l.rank).next k
        ((s.execs l.rank).next k + 1) → (s.execs l.rank).next i ≤ e.next i := fun {k} hnext => by
      rw [hnext]
      by_cases hi : i = k
      · rw [hi, Function.update_self]; omega
      · rw [Function.update_of_ne hi]
    cases Motion.of_localStep hlocal with
    | still hnext => rw [hnext]
    | finish _ _ hnext => exact hup hnext
    | push _ _ hnext => exact hup hnext
    | poll _ _ _ _ _ hnext => rw [hnext]
    | work _ _ _ _ _ _ he => rw [he]; rfl
    | count _ _ _ he => rw [he]; rfl
  by_cases hr : r = l.rank
  · subst hr
    simpa only [Function.update_self] using hkey
  · simp only [Function.update_of_ne hr, le_refl]

/-- In a quiet state what has been submitted is done. -/
theorem Quiet.completed_eq (hq : Quiet c s) (h : Sane c s) (hr : r < c.worldSize)
    (hn : c.node? r i = some n) : (s.execs r).completed i = (s.execs r).next i := by
  have hcompleted := (h.base.tidy r).completed i n hn
  rw [hq.landed r hr] at hcompleted
  simpa using hcompleted

/-- The readers of a version have reached a slice. -/
theorem Quiet.readers_ready (hq : Quiet c s) (h : Sane c s) (hp : c.WellPosed)
    (hr : r < c.worldSize) {key : ProgressKey} {v : ℕ}
    (hkey : key ∈ (c.graph r).activeProgressKeys)
    (hv : ∀ r < c.worldSize, ∀ i id, c.Reads r i key id → v ≤ (s.execs r).next i) :
    Op.Ready s.words (.loadNumReaders key v) := by
  rcases Nat.eq_zero_or_pos (c.plan.numReaders key) with hzero | hpos
  · exact Or.inl ((hq.numReaders_eq h.owed hr hkey).trans hzero)
  · exact Or.inr (hq.le_consume h.owed hp.ranks (mem_allKeys_of_active hr hkey) hpos hv)

/-- An operand that is written by nodes ahead, or there from the start. -/
theorem Quiet.input_ready (hq : Quiet c s) (h : Sane c s) (hp : c.WellPosed)
    (hr : r < c.worldSize) (hn : c.node? r i = some n) {sc : ℕ} (hsc : sc < c.numSubchunks)
    (hpast : ∀ r' < c.worldSize, ∀ i' m, c.node? r' i' = some m → WaitsOn n m →
      sc + 1 ≤ (s.execs r').next i') {x : NodeInput} (hx : x ∈ n.inputs) :
    Op.Ready s.words (.loadWriteProgress x.key (sc + 1)) := by
  rcases hp.sources r hr n (mem_nodes_of_node? hn) x hx with ⟨r', hr', m, hm, hout⟩ |
    ⟨r', hr', hinit⟩
  · obtain ⟨i', hi'⟩ := List.getElem?_of_mem hm
    have hnext := hpast r' hr' i' m hi' (Or.inl ⟨x, hx, hout.symm⟩)
    exact hnext.trans (hout ▸ hq.next_le_write h.owed hr' hi')
  · exact (hq.initial_eq h.owed hr' hinit).ge.trans' hsc

/-- **A quiet cluster has a node to go on with**: of the unfinished ones with the lowest cursor, one
that waits for none of the others. -/
theorem Quiet.exists_attempt (hq : Quiet c s) (h : Sane c s) (hp : c.WellPosed)
    (hacyclic : ∀ a, ¬ Relation.TransGen c.Waits a a) (hleft : ¬ Finished c s) :
    ∃ a ∈ c.nodeIndices, ∃ k t, c.machine.runFrom Machine.anyStep s
        (.attempt a.1 a.2 :: List.replicate k (.run a.1)) = some t ∧
      (t.execs a.1).next a.2 = (s.execs a.1).next a.2 + 1 := by
  obtain ⟨a₁, ha₁, hlt₁⟩ : ∃ a ∈ c.nodeIndices, (s.execs a.1).next a.2 < c.numSubchunks := by
    simp only [Finished, not_forall] at hleft
    obtain ⟨r₁, hr₁, i₁, n₁, hn₁, hne⟩ := hleft
    have hle := (h.base.tidy r₁).next_le i₁
    rw [hq.completed_eq h hr₁ hn₁] at hne
    exact ⟨(r₁, i₁), mem_nodeIndices.2 ⟨hr₁, n₁, hn₁⟩, lt_of_le_of_ne hle hne⟩
  obtain ⟨⟨r, i⟩, hmem, hlt, hlow, hwaits⟩ := exists_lowest hacyclic
    (fun a => (s.execs a.1).next a.2) ⟨a₁, ha₁, hlt₁⟩
  obtain ⟨hr, n, hn⟩ := mem_nodeIndices.1 hmem
  simp only at hr hn hlt hlow hwaits
  have hpast : ∀ r' < c.worldSize, ∀ i' m, c.node? r' i' = some m → WaitsOn n m →
      (s.execs r).next i + 1 ≤ (s.execs r').next i' := fun r' hr' i' m hm hw =>
    hwaits (r', i') (mem_nodeIndices.2 ⟨hr', m, hm⟩) ⟨hr, hr', n, hn, m, hm, hw⟩
  -- the throttles ask for no more than the lowest cursor
  have hthrottle : ∀ v ≤ (s.execs r).next i, Op.Ready s.words (.loadNumReaders n.output v) :=
    fun v hv => hq.readers_ready h hp hr (output_active hn) fun r' hr' i' id hreads => by
      obtain ⟨m, hm, -⟩ := hreads
      exact hv.trans (hlow (r', i') (mem_nodeIndices.2 ⟨hr', m, hm⟩))
  refine ⟨(r, i), hmem, exists_submit hr hn (hq.idle r hr) hlt (hq.landed r hr _)
    (hp.bound r hr n (mem_nodes_of_node? hn) _ hlt) (fun op hop => ?_) (fun op hop => ?_)
    fun op hop => ?_⟩
  · simp only [Cluster.checks, inputsReady, Cluster.overwriteReady, List.mem_append,
      List.mem_map] at hop
    rcases hop with ⟨x, hx, rfl⟩ | hop | hop
    · exact hq.input_ready h hp hr hn hlt hpast hx
    · split at hop <;> simp only [List.mem_singleton, List.not_mem_nil] at hop
      next hring =>
      subst hop
      have hslots : 2 ≤ c.ringSlots := two_le_pcclRingSlotsFor c.env
      exact hthrottle _ (by omega)
    · split at hop
      · cases hop
      next guard hguard =>
      simp only [List.mem_append, List.mem_singleton] at hop
      rcases hop with hop | rfl
      · split at hop <;> simp only [List.mem_singleton, List.not_mem_nil] at hop
        next hpos =>
        subst hop
        obtain ⟨r', hr', i', m, hm, hout⟩ := exists_guard_producer hp.ranks hn hguard hpos
        have hnext := hpast r' hr' i' m hm (Or.inr ⟨guard, hguard, Or.inl hout.symm⟩)
        exact hnext.trans (hout ▸ hq.next_le_write h.owed hr' hm)
      · refine hq.readers_ready h hp hr (guard_active hn hguard) fun r' hr' i' id hreads => ?_
        obtain ⟨m, hm, x, hx, hk, hid⟩ := hreads
        exact hpast r' hr' i' m hm (Or.inr ⟨guard, hguard, Or.inr ⟨x, hx, hk, by simp [hid]⟩⟩)
  · simp only [Cluster.leadWindow] at hop
    split at hop <;> simp only [List.mem_singleton, List.not_mem_nil] at hop
    subst hop
    have hwindow : 0 < d2hLeadWindow := by decide
    exact hthrottle _ (by omega)
  · simp only [remoteReady] at hop
    split at hop <;> simp only [List.mem_singleton, List.not_mem_nil] at hop
    next hpeer =>
    subst hop
    have hlt := hp.peers r hr n (mem_nodes_of_node? hn) hpeer.1
    have hready := hq.userReady h.owed (r := (remoteRank n).toNat) (by omega)
    rwa [Int.toNat_of_nonneg hpeer.2.1] at hready

/-! ## To the end -/

/-- A condition `G` on the steps that holds of every step but an attempt, and of an attempt in a
quiet state, as long as `K` holds, which it keeps. -/
structure Admits (c : Cluster) (G : State → Label → Bool) (K : State → Prop) : Prop where
  goesOn : ∀ s l s', Sane c s → K s → l.goesOn = true → c.machine.step s l = some s' →
    G s l = true ∧ K s'
  attempt : ∀ s r i s', Sane c s → K s → Quiet c s →
    c.machine.step s (.attempt r i) = some s' → G s (.attempt r i) = true ∧ K s'

variable {G : State → Label → Bool} {K : State → Prop}

/-- **The cluster comes to rest.** -/
theorem exists_quiet (hp : c.WellPosed) (hG : Admits c G K) (h : Sane c s) (hK : K s) :
    ∃ ls t, c.machine.runFrom G s ls = some t ∧
      (Sane c t ∧ K t ∧ ∀ r i, (s.execs r).next i ≤ (t.execs r).next i) ∧ Quiet c t := by
  obtain ⟨ls, t, hrun, ⟨ht, hKt, hle⟩, hhalted⟩ := c.machine.exists_halted lex3_wf c.left
    (P := fun s l => l.goesOn && G s l)
    (I := fun t => Sane c t ∧ K t ∧ ∀ r i, (s.execs r).next i ≤ (t.execs r).next i)
    (fun t l t' hI hP hstep => by
      obtain ⟨ht, hKt, hle⟩ := hI
      obtain ⟨hgoes, -⟩ := Bool.and_eq_true_iff.1 hP
      exact ⟨⟨ht.step hp hstep, (hG.goesOn t l t' ht hKt hgoes hstep).2,
        fun r i => (hle r i).trans (next_le_of_step hstep r i)⟩, ht.left_lt hgoes hstep⟩)
    ⟨h, hK, fun _ _ => le_rfl⟩
  refine ⟨ls, t, c.machine.runFrom_mono (fun _ _ hP => (Bool.and_eq_true_iff.1 hP).2) hrun,
    ⟨ht, hKt, hle⟩, quiet_of_halted ht fun l hl => ?_⟩
  by_contra hne
  obtain ⟨t', ht'⟩ := Option.ne_none_iff_exists'.1 hne
  rw [hhalted l (by simp [hl, (hG.goesOn t l t' ht hKt hl ht').1])] at ht'
  cases ht'

/-- The slices still to be submitted. -/
def Cluster.remaining (c : Cluster) (s : State) : ℕ :=
  (c.nodeIndices.map fun a => c.numSubchunks - (s.execs a.1).next a.2).sum

theorem remaining_lt {a : ℕ × ℕ} (ha : a ∈ c.nodeIndices)
    (hle : ∀ r i, (s.execs r).next i ≤ (s'.execs r).next i)
    (hlt : (s.execs a.1).next a.2 < (s'.execs a.1).next a.2)
    (hbound : (s'.execs a.1).next a.2 ≤ c.numSubchunks) : c.remaining s' < c.remaining s :=
  List.sum_lt_sum _ _ (fun b _ => Nat.sub_le_sub_left (hle b.1 b.2) _) ⟨a, ha, by omega⟩

/-- One more slice, and the cluster is quiet again. -/
theorem exists_nearer (hp : c.WellPosed) (hacyclic : ∀ a, ¬ Relation.TransGen c.Waits a a)
    (hG : Admits c G K) (h : Sane c s) (hK : K s) (hq : Quiet c s) (hleft : ¬ Finished c s) :
    ∃ ls t, c.machine.runFrom G s ls = some t ∧ (Sane c t ∧ K t ∧ Quiet c t) ∧
      c.remaining t < c.remaining s := by
  obtain ⟨a, ha, k, t₁, hrun, hnext⟩ := hq.exists_attempt h hp hacyclic hleft
  obtain ⟨-, t₀, ht₀, hruns⟩ := c.machine.runFrom_cons_eq_some.1 hrun
  obtain ⟨hG₀, hK₀⟩ := hG.attempt s _ _ t₀ h hK hq ht₀
  obtain ⟨hruns', ht₁, hK₁, hle₁⟩ := c.machine.runFrom_upgrade
    (I := fun t => Sane c t ∧ K t ∧ ∀ r i, (s.execs r).next i ≤ (t.execs r).next i)
    (fun t l t' hl hI _ hstep => by
      obtain ⟨ht, hKt, hle⟩ := hI
      have hgoes : l.goesOn = true := by rw [List.eq_of_mem_replicate hl]; rfl
      obtain ⟨hGt, hKt'⟩ := hG.goesOn t l t' ht hKt hgoes hstep
      exact ⟨hGt, ht.step hp hstep, hKt', fun r i => (hle r i).trans (next_le_of_step hstep r i)⟩)
    ⟨h.step hp ht₀, hK₀, fun r i => next_le_of_step ht₀ r i⟩ hruns
  obtain ⟨ls, t, hrun', ⟨ht, hKt, hle⟩, hqt⟩ := exists_quiet hp hG ht₁ hK₁
  refine ⟨_, t, c.machine.runFrom_trans
    (c.machine.runFrom_cons_eq_some.2 ⟨hG₀, t₀, ht₀, hruns'⟩) hrun', ⟨ht, hKt, hqt⟩, ?_⟩
  have hle' := hle a.1 a.2
  exact remaining_lt ha (fun r i => (hle₁ r i).trans (hle r i)) (by omega)
    ((ht.base.tidy a.1).next_le a.2)

/-- **From every state the cluster can finish.** -/
theorem exists_finish (hp : c.WellPosed) (hacyclic : ∀ a, ¬ Relation.TransGen c.Waits a a)
    (hG : Admits c G K) (h : Sane c s) (hK : K s) :
    ∃ ls t, c.machine.runFrom G s ls = some t ∧ Finished c t := by
  obtain ⟨ls, t, hrun, ⟨ht, hKt, -⟩, hq⟩ := exists_quiet hp hG h hK
  obtain ⟨ls', u, hrun', -, hu⟩ := c.machine.exists_reached c.remaining
    (I := fun s => Sane c s ∧ K s ∧ Quiet c s)
    (fun s hI hleft => exists_nearer hp hacyclic hG hI.1 hI.2.1 hI.2.2 hleft) ⟨ht, hKt, hq⟩
  exact ⟨ls ++ ls', u, c.machine.runFrom_trans hrun hrun', hu⟩

/-! ## Orders have no cycles -/

variable {order : List Line}

/-- The place of a node's line in an order: just behind the write of its version. -/
def Cluster.placeOf (c : Cluster) (order : List Line) (a : ℕ × ℕ) : ℕ :=
  match c.node? a.1 a.2 with
  | none => 0
  | some n => (upTo c.lineWrites n.output.base n.output.version order).length

/-- The line of a node, with what the node reads and overwrites. -/
theorem InOrder.exists_place (hc : c.Plain) (ho : c.InOrder order) (hn : c.node? r i = some n) :
    ∃ pre line post, order = pre ++ line :: post ∧ c.lineWrites line = some n.output.base ∧
      c.placeOf order (r, i) = pre.length + 1 ∧
      n.output.version = count c.lineWrites pre n.output.base + 1 ∧
      n.overwriteGuard = some ⟨n.output.base, count c.lineWrites pre n.output.base⟩ ∧
      ∀ x ∈ n.inputs, x.key.version = count c.lineWrites pre x.key.base := by
  have hguard := hc.guard_eq hn
  obtain ⟨a, ha, -, rfl⟩ := hc.exists_assignment hn
  obtain ⟨pre, post, k, hat⟩ := ho.exists_at ha
  have hwrites : c.lineWrites (a.inst, k) = some a.output.base := hat.produced
  have hversion : (c.plan.instNode c.env r a).output.version =
      count c.lineWrites pre a.output.base + 1 := hat.version
  refine ⟨pre, (a.inst, k), post, hat.split, hwrites, ?_, hversion, ?_, fun x hx => ?_⟩
  · simp only [Cluster.placeOf, hn, hversion]
    have hself : upTo c.lineWrites (c.plan.instNode c.env r a).output.base
        (count c.lineWrites pre a.output.base + 1) (pre ++ (a.inst, k) :: post) =
        pre ++ [(a.inst, k)] := upTo_self hwrites
    rw [hat.split, hself, List.length_append, List.length_singleton]
  · rw [hguard, hversion]
    rfl
  · have hmem : x.key ∈ (c.reads a.inst).map fun base => ⟨base, count c.lineWrites pre base⟩ := by
      rw [← hat.node_inputs r]
      exact List.mem_map_of_mem hx
    obtain ⟨base, -, hkey⟩ := List.mem_map.1 hmem
    rw [← hkey]

/-- **A node waits for nodes before it in the order, or for itself.** -/
theorem InOrder.place_lt (hc : c.Plain) (ho : c.InOrder order) {a b : ℕ × ℕ} (hw : c.Waits b a)
    (hne : b ≠ a) : c.placeOf order a < c.placeOf order b := by
  obtain ⟨-, -, n, hn, m, hm, hwaits⟩ := hw
  obtain ⟨pre, line, post, hsplit, hwrites, hplace, hversion, hguard, hinputs⟩ :=
    ho.exists_place hc hn
  obtain ⟨pre', line', post', hsplit', hwrites', hplace', hversion', -, hinputs'⟩ :=
    ho.exists_place hc hm
  rw [hplace, hplace']
  have hsame : pre ++ line :: post = pre' ++ line' :: post' := hsplit.symm.trans hsplit'
  -- a version that is found has been written before
  have hfound : ∀ key : ProgressKey, key = m.output →
      key.version = count c.lineWrites pre key.base → pre'.length < pre.length := by
    rintro key rfl hkey
    by_contra hle
    have hcount : count c.lineWrites pre m.output.base ≤ count c.lineWrites pre' m.output.base :=
      count_le_of_length hsame (Nat.le_of_not_lt hle)
    omega
  rcases hwaits with ⟨x, hx, hout⟩ | ⟨guard, hg, hout | ⟨x, hx, hkey, -⟩⟩
  · have := hfound x.key hout (hinputs x hx)
    omega
  · rw [hguard, Option.mem_some_iff] at hg
    subst hg
    have := hfound _ hout rfl
    omega
  · rw [hguard, Option.mem_some_iff] at hg
    subst hg
    have hread := hinputs' x hx
    rw [hkey] at hread
    rcases Nat.lt_trichotomy pre'.length pre.length with hlt | heq | hlt
    · omega
    · -- the same place, so the same node
      obtain ⟨hpre, hrest⟩ := List.append_inj hsame heq.symm
      subst hpre
      rw [List.cons.injEq] at hrest
      rw [hrest.1, hwrites', Option.some.injEq] at hwrites
      have hkeys : n.output = m.output := by
        cases hno : n.output
        cases hmo : m.output
        simp_all
      obtain ⟨hr, hi⟩ := node?_injective hn hm hkeys
      exact absurd (Prod.ext hr hi) hne
    · have hcount := count_lt_of_length hsame hlt hwrites
      simp only at hread
      omega

/-- **Orders have no cycles**, but for a node that waits for itself. -/
theorem InOrder.acyclic (hc : c.Plain) (ho : c.InOrder order) (hself : ∀ a, ¬ c.Waits a a)
    (a : ℕ × ℕ) : ¬ Relation.TransGen c.Waits a a := by
  have hlt : ∀ {b a}, Relation.TransGen c.Waits b a → c.placeOf order a < c.placeOf order b :=
    fun htg => by
      induction htg with
      | single hw => exact ho.place_lt hc hw fun heq => hself _ (heq ▸ hw)
      | tail _ hw ih => exact (ho.place_lt hc hw fun heq => hself _ (heq ▸ hw)).trans ih
  exact fun htg => lt_irrefl _ (hlt htg)

/-- Slices of an executor that are neither to be tried nor published. -/
def Exec.underWay (e : Exec) : ℕ :=
  e.todo.countP (fun op => op.submits.isSome) + Queue.total fun q => (e.inflight q).length

/-- At most one slice is under way at a time, and either all ranks have started, or nothing but
starting has been done. -/
structure Single (c : Cluster) (s : State) : Prop where
  one : ∑ r ∈ Finset.range c.worldSize, (s.execs r).underWay ≤ 1
  settled : (∀ r < c.worldSize, (s.execs r).started = true ∧
      ∀ op ∈ (s.execs r).todo, op.stage ≠ .start) ∨
    ∀ r < c.worldSize, (s.execs r).underWay = 0 ∧ ∀ op ∈ (s.execs r).todo, op.stage = .start

theorem countP_submits_eq_zero {ops : List Op} (h : ∀ op ∈ ops, op.submits = none) :
    ops.countP (fun op => op.submits.isSome) = 0 :=
  List.countP_eq_zero.2 fun op hop => by simp [h op hop]

theorem submits_of_stage {op : Op} (h : op.stage ≠ .attempt) : op.submits = none := by
  cases op <;> first | rfl | exact absurd rfl h

/-- No step but an attempt brings another slice on its way. -/
theorem underWay_le {w w' : SharedWords} {e e' : Exec} (hgoes : l.goesOn = true)
    (h : c.localStep r w e l = some (w', e')) : e'.underWay ≤ e.underWay := by
  have hsub : ∀ {ops : List Op}, ops.Sublist e.todo →
      ops.countP (fun op => op.submits.isSome) ≤ e.todo.countP (fun op => op.submits.isSome) :=
    fun h => h.countP_le
  have hhead : ∀ {op}, e.todo.head? = some op → op.submits.isSome = true →
      1 ≤ e.todo.countP (fun op => op.submits.isSome) := fun hhead hop =>
    List.countP_pos_iff.2 ⟨_, List.mem_of_mem_head? hhead, hop⟩
  -- the list
  have htodo : (∀ q, (e'.inflight q).length = (e.inflight q).length) →
      e'.todo.countP (fun op => op.submits.isSome) ≤
        e.todo.countP (fun op => op.submits.isSome) → e'.underWay ≤ e.underWay := fun hin hle => by
    simp only [Exec.underWay, hin]
    omega
  have hlist : e'.todo.countP (fun op => op.submits.isSome) ≤
      e.todo.countP (fun op => op.submits.isSome) := by
    cases Agenda.of_localStep h with
    | same heq => rw [heq]
    | clear _ _ heq => rw [heq]; exact Nat.zero_le _
    | start _ heq =>
      rw [heq, countP_submits_eq_zero fun op hop => submits_startOps hop]
      exact Nat.zero_le _
    | attempt => cases hgoes
    | publish _ heq =>
      rw [heq, countP_submits_eq_zero fun op hop => submits_publishOps hop]
      exact Nat.zero_le _
    | pass htodo₀ _ heq => rw [heq, htodo₀, List.countP_cons]; exact Nat.le_add_right _ _
    | scan htodo₀ _ hop heq =>
      rw [heq, htodo₀, List.countP_cons, List.countP_cons,
        submits_of_stage (by rw [stage_of_scans hop]; exact fun h => by cases h)]
      simp
    | consume htodo₀ heq => rw [heq, htodo₀]; exact le_rfl
    | samePlace hhd heq => rw [heq]; exact hhead hhd rfl
    | record hhd _ heq =>
      rw [heq, List.countP_append, countP_submits_eq_zero fun op hop => submits_remoteReady hop]
      exact hhead hhd rfl
  cases Motion.of_localStep h with
  | still _ _ hin => exact htodo (fun q => by rw [hin]) hlist
  | finish _ _ _ _ hin => exact htodo (fun q => by rw [hin]) hlist
  | @push _ i n hhd _ _ _ hin htodo' =>
    have hlen := Queue.total_update e.inflight List.length (queueOf n)
      (e.inflight (queueOf n) ++ [⟨i, e.next i, c.sharesOf n (c.subchunkSize n (e.next i))⟩])
    have hone : 1 ≤ e.todo.countP (fun op => op.submits.isSome) := by
      rcases hhd with hhd | hhd <;> exact hhead hhd rfl
    rw [List.length_append, List.length_singleton] at hlen
    simp only [Exec.underWay, hin, htodo', List.countP_nil]
    omega
  | @poll _ q j _ n _ _ hentry _ _ _ _ hin =>
    have hlen := Queue.total_update e.inflight List.length q ((e.inflight q).eraseIdx j)
    have hj := (List.getElem?_eq_some_iff.1 hentry).1
    rw [List.length_eraseIdx_of_lt hj] at hlen
    simp only [Exec.underWay, hin]
    omega
  | @work _ q j t k _ _ _ _ _ _ _ _ _ he =>
    refine htodo (fun q' => ?_) hlist
    have hmap := congrArg List.length
      (map_updateShare (e := e) q q' j t fun s => { s with pos := s.pos + k })
    simpa [he] using hmap
  | @count _ q j t _ _ _ _ _ he =>
    refine htodo (fun q' => ?_) hlist
    have hmap := congrArg List.length
      (map_updateShare (e := e) q q' j t fun s => { s with counted := true })
    simpa [he] using hmap

theorem underWay_le_one (h : Single c s) (hr : r < c.worldSize) : (s.execs r).underWay ≤ 1 :=
  (Finset.single_le_sum (f := fun r => (s.execs r).underWay) (fun _ _ => Nat.zero_le _)
    (Finset.mem_range.2 hr)).trans h.one

/-- The only slice under way has no earlier one of its node beside it. -/
theorem earlierFinished_of_single {e : Exec} (hone : e.underWay ≤ 1) {i sc : ℕ}
    (hpub : e.published l = some (i, sc)) (n : InstructionNode) :
    e.earlierFinished i n sc = true := by
  have hle := Queue.le_total (fun q => (e.inflight q).length) (queueOf n)
  simp only [Exec.underWay] at hone hle
  refine List.all_eq_true.2 fun x hx => decide_eq_true fun _ hsc => ?_
  have hpos := List.length_pos_of_mem hx
  cases l with
  | poll r' q j =>
    obtain ⟨entry, hentry, heq⟩ := Option.map_eq_some_iff.1 hpub
    simp only [Prod.mk.injEq] at heq
    have hmem := List.mem_of_getElem? hentry
    by_cases hq : q = queueOf n
    · subst hq
      obtain ⟨y, hy⟩ := List.length_eq_one_iff.1 (show (e.inflight (queueOf n)).length = 1 by omega)
      rw [hy, List.mem_singleton] at hx hmem
      rw [hx, ← hmem, heq.2] at hsc
      exact absurd hsc (lt_irrefl _)
    · have hsum := Queue.add_le_total (fun q => (e.inflight q).length) hq
      have hposq := List.length_pos_of_mem hmem
      omega
  | run r' =>
    have hhead : ∃ k, e.todo.head? = some (.finishNow k) := by
      simp only [Exec.published] at hpub
      split at hpub
      · next k hk => exact ⟨k, hk⟩
      · cases hpub
    obtain ⟨k, hk⟩ := hhead
    have hcount : 1 ≤ e.todo.countP (fun op => op.submits.isSome) :=
      List.countP_pos_iff.2 ⟨_, List.mem_of_mem_head? hk, rfl⟩
    omega
  | start | attempt | work | count => cases hpub

theorem publishesInOrder_of_single (h : Single c s) (hr : l.rank < c.worldSize)
    (Q : InstructionNode → Bool) : c.publishesInOrder Q s l = true := by
  unfold Cluster.publishesInOrder
  split
  · rfl
  · next i sc hpub =>
    split
    · rfl
    · next n _ => rw [earlierFinished_of_single (underWay_le_one h hr) hpub n, Bool.or_true]

/-- Once all ranks have started, the reader counts are those of the compiler. -/
theorem countsSettled_of_single (h : Sane c s) (hS : Single c s) (hr : l.rank < c.worldSize) :
    c.countsSettled s l = true := by
  cases l with
  | run r =>
    have hcount : ∀ op key, (s.execs r).todo.head? = some op →
        (op.stage ≠ .start) → key ∈ (c.graph r).activeProgressKeys →
        s.words.getNumReaders key = c.plan.numReaders key := by
      intro op key hhead hstage hkey
      rcases hS.settled with hstarted | hstart
      · rcases h.owed.settled r hr (hstarted r hr).1 key hkey with hset | ⟨r', hr', hop⟩
        · exact hset
        · exact absurd rfl ((hstarted r' hr').2 _ hop)
      · exact absurd ((hstart r hr).2 op (List.mem_of_mem_head? hhead)) hstage
    simp only [Cluster.countsSettled]
    split
    · next key v hhead =>
      exact decide_eq_true (hcount _ key hhead (fun h => by cases h)
        (h.base.origin r _ (List.mem_of_mem_head? hhead)))
    · next key i v hhead =>
      obtain ⟨i, id, n, hn, x, hx, hk, -⟩ := h.base.origin r _ (List.mem_of_mem_head? hhead)
      exact decide_eq_true (hcount _ key hhead (fun h => by cases h) (hk ▸ input_active hn hx))
    · rfl
  | start | attempt | poll | work | count => rfl

theorem disciplined_of_single (h : Sane c s) (hS : Single c s) (hr : l.rank < c.worldSize) :
    c.disciplined s l = true := by
  have hshort : c.shortcutsInOrder s l = true := by
    cases l with
    | run r => exact publishesInOrder_of_single hS hr _
    | start | attempt | poll | work | count => rfl
  simp only [Cluster.disciplined, Bool.and_eq_true]
  exact ⟨⟨publishesInOrder_of_single hS hr _, hshort⟩, countsSettled_of_single h hS hr⟩

/-- A step puts no start-up store on a list, unless it starts a rank. -/
theorem stage_of_fresh {w : SharedWords} {e : Exec} {op : Op} (h : Fresh c r w e l op)
    (hl : ∀ r', l ≠ .start r') : op.stage ≠ .start := by
  cases h with
  | start => exact absurd rfl (hl _)
  | attempt _ _ _ hop => rw [stage_attemptOps hop]; exact fun h => by cases h
  | poll _ _ _ _ hop => rw [stage_publishOps hop]; exact fun h => by cases h
  | finish _ _ hop => rw [stage_publishOps hop]; exact fun h => by cases h
  | record _ _ hop =>
    rcases List.mem_append.1 hop with hop | hop
    · rw [stage_remoteReady hop]; exact fun h => by cases h
    · rw [List.mem_singleton.1 hop]; exact fun h => by cases h
  | scan | scanReader | scanEnd | scanNext | consume | samePlace => exact fun h => by cases h

theorem Single.goesOn (hS : Single c s) (hgoes : l.goesOn = true)
    (hstep : c.machine.step s l = some s') : Single c s' := by
  obtain ⟨hr, w, e, hlocal, rfl⟩ := step_cases hstep
  have hle := underWay_le hgoes hlocal
  have hself : (Function.update s.execs l.rank e) l.rank = e := Function.update_self ..
  have hother : ∀ r, r ≠ l.rank → (Function.update s.execs l.rank e) r = s.execs r :=
    fun r hne => Function.update_of_ne hne ..
  refine ⟨(Finset.sum_le_sum fun r _ => ?_).trans hS.one, ?_⟩
  · by_cases hrank : r = l.rank
    · simpa only [hrank, hself] using hle
    · simp only [hother r hrank, le_refl]
  rcases hS.settled with hstarted | hstart
  · refine Or.inl fun r hr' => ?_
    by_cases hrank : r = l.rank
    · subst hrank
      dsimp only
      rw [hself]
      rcases started_of_localStep hlocal with ⟨heq, hl⟩ | ⟨_, _, hno, -⟩
      · refine ⟨heq.trans (hstarted _ hr).1, fun op hop => ?_⟩
        rcases Fresh.of_mem_todo hlocal hop with hold | hfresh
        · exact (hstarted _ hr).2 op hold
        · exact stage_of_fresh hfresh hl
      · rw [(hstarted _ hr).1] at hno
        cases hno
    · dsimp only
      rw [hother r hrank]
      exact hstarted r hr'
  · refine Or.inr fun r hr' => ?_
    by_cases hrank : r = l.rank
    · subst hrank
      dsimp only
      rw [hself]
      refine ⟨Nat.le_zero.1 (hle.trans (hstart _ hr).1.le), fun op hop => ?_⟩
      have hzero := (hstart _ hr).1
      -- nothing is in flight, and the list holds start-up stores only
      have hhead : ∀ {op'}, (s.execs l.rank).todo.head? = some op' → op'.stage = .start :=
        fun hh => (hstart _ hr).2 _ (List.mem_of_mem_head? hh)
      have hempty : ∀ q x, x ∉ (s.execs l.rank).inflight q := fun q x hx => by
        have hlen := Queue.le_total (fun q => ((s.execs l.rank).inflight q).length) q
        have hpos := List.length_pos_of_mem hx
        simp only [Exec.underWay] at hzero hlen
        omega
      rcases Fresh.of_mem_todo hlocal hop with hold | hfresh
      · exact (hstart _ hr).2 op hold
      cases hfresh with
      | start hop => exact stage_startOps hop
      | attempt => cases hgoes
      | poll _ hentry => exact absurd (List.mem_of_getElem? hentry) (hempty _ _)
      | finish hh => cases hhead hh
      | scan hh => cases hhead hh
      | scanReader hh => cases hhead hh
      | scanEnd hh => cases hhead hh
      | scanNext hh => cases hhead hh
      | consume hh => cases hhead hh
      | samePlace hh => cases hhead hh
      | record hh => cases hhead hh
    · dsimp only
      rw [hother r hrank]
      exact hstart r hr'

theorem countP_attemptOps (sc : ℕ) :
    (c.attemptOps r i n sc).countP (fun op => op.submits.isSome) ≤ 1 := by
  have hinputs : (inputsReady n sc).countP (fun op => op.submits.isSome) = 0 :=
    countP_submits_eq_zero fun op hop => by
      obtain ⟨x, -, rfl⟩ := List.mem_map.1 hop
      rfl
  have hguards : (c.overwriteReady n sc).countP (fun op => op.submits.isSome) = 0 := by
    refine countP_submits_eq_zero fun op hop => ?_
    simp only [Cluster.overwriteReady, List.mem_append] at hop
    rcases hop with hop | hop
    · split at hop <;> simp only [List.mem_singleton, List.not_mem_nil] at hop
      rw [hop]; rfl
    · split at hop
      · cases hop
      · simp only [List.mem_append, List.mem_singleton] at hop
        rcases hop with hop | rfl
        · split at hop <;> simp only [List.mem_singleton, List.not_mem_nil] at hop
          rw [hop]; rfl
        · rfl
  have hsubmit : (c.submitOps r i n sc).countP (fun op => op.submits.isSome) ≤ 1 := by
    simp only [Cluster.submitOps]
    split
    · exact List.countP_le_length
    · rw [List.countP_append, Cluster.leadWindow]
      split <;> split <;> simp [Op.submits]
  rw [Cluster.attemptOps, List.countP_append, List.countP_append]
  omega

theorem Single.attempt (hq : Quiet c s) (hstep : c.machine.step s (.attempt r i) = some s') :
    Single c s' := by
  obtain ⟨hr, w, e, hlocal, rfl⟩ := step_cases hstep
  obtain ⟨-, -, n, hn, -, rfl⟩ := attempt_eq hlocal
  have hr : r < c.worldSize := hr
  have hzero : ∀ r < c.worldSize, (s.execs r).underWay = 0 := fun r hr => by
    simp [Exec.underWay, hq.todo hr, hq.landed r hr, Queue.total]
  refine ⟨?_, Or.inl fun r' hr' => ?_⟩
  · have hle : ∀ r' ∈ Finset.range c.worldSize,
        ((Function.update s.execs r { s.execs r with
          todo := c.attemptOps r i n ((s.execs r).next i) }) r').underWay ≤
          if r' = r then 1 else 0 := fun r' hr' => by
      by_cases hrank : r' = r
      · subst hrank
        rw [Function.update_self, if_pos rfl]
        have hcount := countP_attemptOps (c := c) (r := r') (i := i) (n := n) ((s.execs r').next i)
        simpa [Exec.underWay, hq.landed r' hr, Queue.total] using hcount
      · rw [Function.update_of_ne hrank, if_neg hrank, hzero r' (Finset.mem_range.1 hr')]
    refine (Finset.sum_le_sum hle).trans ?_
    rw [Finset.sum_ite_eq']
    split <;> omega
  · by_cases hrank : r' = r
    · subst hrank
      simp only [Label.rank, Function.update_self]
      exact ⟨started_of_idle (hq.idle r' hr'), fun op hop => by
        rw [stage_attemptOps hop]; exact fun h => by cases h⟩
    · simp only [Label.rank, Function.update_of_ne hrank]
      refine ⟨started_of_idle (hq.idle r' hr'), fun op hop => ?_⟩
      rw [hq.todo hr'] at hop
      cases hop

/-- One slice at a time, everything is in order. -/
theorem admits_disciplined : Admits c c.disciplined (Single c) where
  goesOn s l s' h hS hgoes hstep := by
    obtain ⟨hr, -⟩ := step_cases hstep
    exact ⟨disciplined_of_single h hS hr, hS.goesOn hgoes hstep⟩
  attempt s r i s' h hS hq hstep := by
    obtain ⟨hr, -⟩ := step_cases hstep
    exact ⟨disciplined_of_single h hS hr, Single.attempt hq hstep⟩

theorem Single.init (stale : Word → ℕ) : Single c (State.init stale) where
  one := by simp [State.init, Exec.underWay, Queue.total]
  settled := Or.inr fun r _ => by simp [State.init, Exec.underWay, Queue.total]

/-- A node that waits for itself is not let through. -/
theorem Disciplined.not_waitsOn_self (hc : c.Plain) {tr : List Piece} (hd : Disciplined c tr s)
    (hr : r < c.worldSize) (hn : c.node? r i = some n)
    (had : c.Admitted s.words n ((s.execs r).next i)) : ¬ WaitsOn n n := by
  have hopen : ¬ SliceDone (s.execs r) i ((s.execs r).next i) := fun h => lt_irrefl _ h.1
  have hguard := hc.guard_eq hn
  have hpos := version_pos_of_node? hn
  rintro (⟨x, hx, hkey⟩ | ⟨guard, hg, hkey | ⟨x, hx, hkey, hid⟩⟩)
  · have hpassed := Disciplined.input_passed had hx
    rw [hkey] at hpassed
    exact hopen (hd.sound.write r hr i n hn rfl _ hpassed)
  · rw [hguard, Option.mem_some_iff] at hg
    have hversion := congrArg ProgressKey.version (hg.trans hkey)
    simp only at hversion
    omega
  · rw [hguard, Option.mem_some_iff] at hg
    obtain ⟨id, hid⟩ := Option.ne_none_iff_exists'.1 hid
    have hkey' : x.key = ⟨n.output.base, n.output.version - 1⟩ := hkey.trans hg.symm
    have hlt := c.plan.readerId_lt_numReaders (mem_nodes_of_node? hn) hx hid
    have hpassed := (Disciplined.guard_passed hc hn had).2 id (hkey' ▸ hlt)
    rw [← hkey'] at hpassed
    exact hopen (hd.sound.reader r hr i n hn rfl x.key id ⟨n, hn, x, hx, rfl, hid⟩ _ hpassed)

end

/-! ### The sum of two ranks -/

theorem pairSum_wellPosed : pairSum.WellPosed :=
  ⟨by decide +kernel, by decide +kernel, by decide +kernel, by decide +kernel, by decide +kernel⟩

theorem pairSum_selfless : ∀ a ∈ pairSum.nodeIndices, ¬ pairSum.Waits a a := by decide +kernel

end Executor
end HyLink
