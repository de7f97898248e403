import HyLink.Orchestrator.StreamTracks

/-!
# A collective among the work of its streams

The hosts of several streams may put their calls among each other, and the device may
work through the streams in any order.

* `Wires`, `Hosts` — the invariants of the streams and of the collectives.
* `stream_order` — when every collective is called under its condition, its PCIe
  transfer starts after the earlier work of the user's stream, and the later work starts
  after the transfer and after the fast path.
* `alltoall_starts_early` — the transfer of an AllToAll starts before its input is there.
-/

namespace HyLink
namespace Orchestrator
namespace Streams

open Theory

variable {cfg : Config} {st st' : State} {q : Queue} {op : Op} {s c n : ℕ}

/-! ## The streams -/

/-- The first `before` operations of the user's stream precede the transfer, and behind the
first `after` ones the collective is through. -/
structure Settled (cfg : Config) (st : State) (call : Call) (before after : ℕ) : Prop where
  before_le : before ≤ (st.ops (.user call.s)).length
  after_le : after ≤ (st.ops (.user call.s)).length
  input : InputOk st call before
  closed : Closed st call after
  merges : needsMerge cfg call = true → Merges st call after
  fast : .fast call.c ∉ (st.ops (.user call.s)).drop after

/-- What the streams say of themselves. -/
structure Wires (st : State) : Prop where
  done : ∀ q, st.done q ≤ (st.ops q).length
  values : Values st.ops st.done st.tokens
  events : Events st.ops st.done st.event
  callbacks : Callbacks st.ops st.done st.registered st.taken
  record : ∀ q c, .record c ∈ st.ops q → q = .pcie
  next : ∀ s, 1 ≤ st.nextSequence s
  older : ∀ q t s n, .write t s n ∈ st.ops q → n < st.nextSequence s
  fresh : ∀ c, .pcie c ∈ st.ops .pcie ∨ .record c ∈ st.ops .pcie → c < st.calls

variable (cfg) in
/-- What they say of the collectives. -/
structure Hosts (st : State) : Prop where
  thread : ∀ s t, st.thread s = some t → t.call.s = s ∧ t.call.c < st.calls ∧
    ∃ f g, Tracks st t f ∧ f.run t.call t.rest = some g ∧ g.final cfg t.call = true
  distinct : ∀ s s' t t', st.thread s = some t → st.thread s' = some t' → s ≠ s' →
    t.call.c ≠ t'.call.c
  older : ∀ s t call before after, st.thread s = some t → (call, before, after) ∈ st.returned →
    call.c ≠ t.call.c
  returned : ∀ call before after, (call, before, after) ∈ st.returned →
    call.c < st.calls ∧ Settled cfg st call before after

theorem Wires.init : Wires start where
  done _ := Nat.le_refl _
  values :=
    { home := fun _ _ _ _ h => absurd h List.not_mem_nil
      sorted := fun _ => List.Pairwise.nil
      wait := fun _ _ _ _ h => absurd h List.not_mem_nil
      token := fun _ _ _ => .inl rfl
      waited := fun _ _ _ _ h => absurd (List.mem_of_mem_take h) List.not_mem_nil }
  events :=
    { event := fun _ h => absurd h Bool.false_ne_true
      waited := fun _ _ h => absurd (List.mem_of_mem_take h) List.not_mem_nil }
  callbacks :=
    { le := fun _ => Nat.le_refl _
      count := fun _ => rfl
      waited := fun _ _ _ h => absurd h (Nat.not_lt_zero _) }
  record _ _ h := absurd h List.not_mem_nil
  next _ := Nat.le_refl _
  older _ _ _ _ h := absurd h List.not_mem_nil
  fresh _ h := h.elim (fun h => absurd h List.not_mem_nil) fun h => absurd h List.not_mem_nil

theorem Hosts.init : Hosts cfg start where
  thread _ _ h := absurd h (Option.some_ne_none _).symm
  distinct _ _ _ _ h := absurd h (Option.some_ne_none _).symm
  older _ _ _ _ _ h := absurd h (Option.some_ne_none _).symm
  returned _ _ _ h := absurd h List.not_mem_nil

theorem Settled.grow {call : Call} {before after : ℕ} (h : Settled cfg st call before after)
    (hg : Grows call st st') (hdone : st.done .pcie ≤ (st.ops .pcie).length)
    (hfast : ∀ l, st'.ops (.user call.s) = st.ops (.user call.s) ++ l → .fast call.c ∉ l) :
    Settled cfg st' call before after := by
  refine ⟨h.before_le.trans hg.length_le, h.after_le.trans hg.length_le, h.input.grow hg h.before_le,
    h.closed.grow hg hdone, fun hn => (h.merges hn).grow hg, ?_⟩
  obtain ⟨l, hl⟩ := hg.user
  rw [hl, List.drop_append_of_le_length h.after_le, List.mem_append]
  exact not_or.2 ⟨h.fast, hfast l hl⟩

/-- A step that changes what the host has put on no stream. -/
theorem Foreign.of_ops {call : Call} (hops : st'.ops = st.ops) (hdone : ∀ q, st.done q ≤ st'.done q)
    (hregistered : st'.registered call.s = st.registered call.s)
    (hnext : st'.nextSequence call.s = st.nextSequence call.s) : Foreign call st st' :=
  ⟨by rw [hops], ⟨[], by rw [hops, List.append_nil], List.not_mem_nil, List.not_mem_nil,
    fun _ => List.not_mem_nil⟩, hdone, hregistered, hnext⟩

/-- The operations a collective may put on a stream. -/
inductive Op.By (call : Call) : Queue → Op → Prop
  | fast : By call (.user call.s) (.fast call.c)
  | inputReady : By call (.user call.s) (.write .inputReady call.s call.seq)
  | completionWait : By call (.user call.s) (.wait .completion call.s call.seq)
  | waitEvent : By call (.user call.s) (.waitEvent call.c)
  | pcie : By call .pcie (.pcie call.c)
  | inputWait : By call .pcie (.wait .inputReady call.s call.seq)
  | record : By call .pcie (.record call.c)
  | completion : By call .pcie (.write .completion call.s call.seq)

theorem by_of_enqueue {call : Call} {f f' : Facts} (h : f.enqueue call q op = some f') :
    op.By call q := by
  cases op with
  | work | callback => cases h
  | fast | pcie | record | waitEvent =>
    simp only [Facts.enqueue] at h
    split at h <;> cases h
    rename_i hcond
    obtain ⟨rfl, rfl, _⟩ := hcond
    constructor
  | write token s seq | wait token s seq =>
    cases token <;>
    · simp only [Facts.enqueue] at h
      split at h <;> cases h
      rename_i hcond
      obtain ⟨rfl, rfl, rfl, _⟩ := hcond
      constructor

theorem Op.By.transfer {call : Call} (h : (Op.pcie c).By call q) : c = call.c := by
  cases h
  rfl

theorem Op.By.fastWork {call : Call} (h : (Op.fast c).By call q) : c = call.c := by
  cases h
  rfl

theorem Op.By.user {call : Call} (h : op.By call (.user s)) : s = call.s := by
  cases h <;> rfl

theorem enqueue_ops_self (st : State) (q : Queue) (op : Op) (x : Option Thread) :
    ((st.enqueue q op).setThread s x).ops q = st.ops q ++ [op] :=
  Function.update_self _ _ _

theorem enqueue_ops_of_ne {q' : Queue} (hq : q' ≠ q) (st : State) (op : Op) (x : Option Thread) :
    ((st.enqueue q op).setThread s x).ops q' = st.ops q' :=
  Function.update_of_ne hq _ _

theorem Queue.user_ne_pcie (s : ℕ) : Queue.user s ≠ .pcie := nofun

/-- What a collective puts on a stream does not concern another collective. -/
theorem Op.By.foreign {call call' : Call} (h : op.By call q) (hs : call.s ≠ call'.s)
    (hc : call.c ≠ call'.c) (st : State) (x : Option Thread) :
    Foreign call' st ((st.enqueue q op).setThread s x) := by
  have hq : Queue.user call'.s ≠ q := by
    rintro rfl
    exact hs h.user.symm
  refine ⟨enqueue_ops_of_ne hq _ _ _, ?_, fun _ => Nat.le_refl _, rfl, rfl⟩
  by_cases hpcie : q = .pcie
  · subst hpcie
    refine ⟨[op], enqueue_ops_self _ _ _ _, ?_⟩
    simp only [List.mem_singleton]
    cases h
    · exact ⟨fun heq => hc (Op.pcie.inj heq).symm, nofun, nofun⟩
    · exact ⟨nofun, nofun, nofun⟩
    · exact ⟨nofun, fun heq => hc (Op.record.inj heq).symm, nofun⟩
    · exact ⟨nofun, nofun, fun m heq => hs (Op.write.inj heq).2.1.symm⟩
  · refine ⟨[], ?_, List.not_mem_nil, List.not_mem_nil, fun _ => List.not_mem_nil⟩
    rw [List.append_nil]
    exact enqueue_ops_of_ne (Ne.symm hpcie) _ _ _

theorem enqueue_grows {call : Call} (hop : op ≠ .pcie call.c) (st : State) (x : Option Thread) :
    Grows call st ((st.enqueue q op).setThread s x) := by
  refine ⟨?_, ?_, fun _ => Nat.le_refl _, ⟨[], (List.append_nil _).symm⟩⟩
  · by_cases hq : Queue.user call.s = q
    · subst hq
      exact ⟨[op], enqueue_ops_self _ _ _ _⟩
    · refine ⟨[], ?_⟩
      rw [List.append_nil]
      exact enqueue_ops_of_ne hq _ _ _
  · by_cases hq : q = .pcie
    · subst hq
      refine ⟨[op], enqueue_ops_self _ _ _ _, ?_⟩
      rw [List.mem_singleton]
      exact fun heq => hop heq.symm
    · refine ⟨[], ?_, List.not_mem_nil⟩
      rw [List.append_nil]
      exact enqueue_ops_of_ne (Ne.symm hq) _ _ _

theorem putsUser (call : Call) (st : State) (op : Op) (x : Option Thread) :
    PutsUser call op st ((st.enqueue (.user call.s) op).setThread s x) :=
  ⟨enqueue_ops_self _ _ _ _, enqueue_ops_of_ne (Queue.user_ne_pcie _).symm _ _ _, fun _ => rfl, rfl,
    rfl⟩

theorem putsPcie (call : Call) (st : State) (op : Op) (x : Option Thread) :
    PutsPcie call op st ((st.enqueue .pcie op).setThread s x) :=
  ⟨enqueue_ops_of_ne (Queue.user_ne_pcie _) _ _ _, enqueue_ops_self _ _ _ _, fun _ => rfl, rfl, rfl⟩

theorem done_enqueue (hdone : ∀ q, st.done q ≤ (st.ops q).length) (q' : Queue) :
    st.done q' ≤ (Function.update st.ops q (st.ops q ++ [op]) q').length := by
  by_cases hq : q' = q
  · subst hq
    rw [Function.update_self, List.length_append]
    exact (hdone q').trans (Nat.le_add_right _ _)
  · rw [Function.update_of_ne hq]
    exact hdone q'

/-- The tokens, when a thread puts an operation on a stream. -/
theorem Wires.values_enqueue {t : Thread} {f f' : Facts} (h : Wires st)
    (htrack : Tracks st t f) (hf : f.enqueue t.call q op = some f') :
    Values (Function.update st.ops q (st.ops q ++ [op])) st.done st.tokens := by
  refine h.values.enqueue h.done (fun tok s n hop => ?_) (fun tok s n hop => ?_)
  · subst hop
    cases tok <;>
    · simp only [Facts.enqueue] at hf
      split at hf <;> cases hf
      rename_i hcond
      obtain ⟨rfl, rfl, rfl, hticket, hno⟩ := hcond
      first
        | exact ⟨rfl, htrack.input.unwritten hticket hno⟩
        | exact ⟨rfl, htrack.transfer.unanswered hticket hno⟩
  · subst hop
    cases tok <;>
    · simp only [Facts.enqueue] at hf
      split at hf <;> cases hf
      rename_i hcond
      obtain ⟨rfl, rfl, rfl, hticket, hyes⟩ := hcond
      refine ⟨(htrack.input.ticket hticket).2, ?_⟩
      first
        | exact htrack.input.written hyes
        | exact (htrack.transfer.answered hyes).1

/-- A step for stream `s` that does not concern the collectives of other streams, nor those
that have returned. -/
theorem Hosts.step (h : Hosts cfg st) (hw : Wires st) (s : ℕ)
    (hthread : ∀ s' ≠ s, st'.thread s' = st.thread s') (hcalls : st.calls ≤ st'.calls)
    (hforeign : ∀ s' t', s' ≠ s → st.thread s' = some t' → Foreign t'.call st st')
    (hold : ∀ call before after, (call, before, after) ∈ st.returned → Grows call st st' ∧
      ∀ l, st'.ops (.user call.s) = st.ops (.user call.s) ++ l → .fast call.c ∉ l)
    (hself : ∀ t', st'.thread s = some t' →
      (st.thread s).map Thread.call = some t'.call ∧
        ∃ f g, Tracks st' t' f ∧ f.run t'.call t'.rest = some g ∧ g.final cfg t'.call = true)
    (hreturned : st'.returned = st.returned) : Hosts cfg st' := by
  have hself' : ∀ t', st'.thread s = some t' → ∃ t, st.thread s = some t ∧ t.call = t'.call := by
    intro t' ht'
    exact Option.map_eq_some_iff.1 (hself t' ht').1
  have hcall : ∀ s' t', st'.thread s' = some t' → ∃ t, st.thread s' = some t ∧ t.call = t'.call := by
    intro s' t' ht'
    by_cases hs : s' = s
    · subst hs
      exact hself' t' ht'
    · rw [hthread s' hs] at ht'
      exact ⟨t', ht', rfl⟩
  refine ⟨fun s' t' ht' => ?_, fun s₁ s₂ t₁ t₂ h₁ h₂ hne => ?_,
    fun s' t' call before after ht' hmem => ?_, fun call before after hmem => ?_⟩
  · obtain ⟨t, ht, heq⟩ := hcall s' t' ht'
    obtain ⟨hs', hc, f, g, htrack, hrun, hfinal⟩ := h.thread s' t ht
    rw [heq] at hs' hc
    refine ⟨hs', hc.trans_le hcalls, ?_⟩
    by_cases hs : s' = s
    · subst hs
      exact (hself t' ht').2
    · rw [hthread s' hs] at ht'
      cases ht.symm.trans ht'
      exact ⟨f, g, htrack.foreign (hforeign s' t' hs ht) (hw.done _), hrun, hfinal⟩
  · obtain ⟨t₁', h₁', heq₁⟩ := hcall s₁ t₁ h₁
    obtain ⟨t₂', h₂', heq₂⟩ := hcall s₂ t₂ h₂
    rw [← heq₁, ← heq₂]
    exact h.distinct s₁ s₂ t₁' t₂' h₁' h₂' hne
  · obtain ⟨t, ht, heq⟩ := hcall s' t' ht'
    rw [← heq]
    rw [hreturned] at hmem
    exact h.older s' t call before after ht hmem
  · rw [hreturned] at hmem
    obtain ⟨hc, hsettled⟩ := h.returned call before after hmem
    obtain ⟨hgrows, hfast⟩ := hold call before after hmem
    exact ⟨hc.trans_le hcalls, hsettled.grow hgrows (hw.done _) hfast⟩

theorem setThread_ne {s' : ℕ} (hs : s' ≠ s) (st : State) (x : Option Thread) :
    (st.setThread s x).thread s' = st.thread s' :=
  Function.update_of_ne hs _ _

theorem setThread_self (st : State) (s : ℕ) (x : Option Thread) : (st.setThread s x).thread s = x :=
  Function.update_self _ _ _

/-- An operation that is not a write, a transfer or a record. -/
theorem Wires.enqueue_plain (h : Wires st) (x : Option Thread)
    (hop : op = .work ∨ op = .callback ∧
      ∀ s, q = .user s → Streams.callbacks (st.ops (.user s)) < (st.registered s).length) :
    Wires ((st.enqueue q op).setThread s x) := by
  have hwrite : ∀ t s n, op ≠ .write t s n := by
    rintro t s n rfl
    rcases hop with hop | ⟨hop, _⟩ <;> cases hop
  have hwait : ∀ t s n, op ≠ .wait t s n := by
    rintro t s n rfl
    rcases hop with hop | ⟨hop, _⟩ <;> cases hop
  have hrecord : ∀ c, op ≠ .record c := by
    rintro c rfl
    rcases hop with hop | ⟨hop, _⟩ <;> cases hop
  have hpcie : ∀ c, op ≠ .pcie c := by
    rintro c rfl
    rcases hop with hop | ⟨hop, _⟩ <;> cases hop
  refine ⟨done_enqueue h.done, h.values.enqueue h.done (fun t s n heq => absurd heq (hwrite t s n))
    (fun t s n heq => absurd heq (hwait t s n)), h.events.enqueue h.done,
    h.callbacks.enqueue h.done fun s hcb hq => ?_, fun q' c hmem => ?_, h.next,
    fun q' t s n hmem => ?_, fun c hmem => ?_⟩
  · rcases hop with hop | ⟨_, hroom⟩
    · rw [hop] at hcb
      cases hcb
    · exact hroom s hq
  · exact h.record q' c ((mem_ops_of_append hmem).resolve_right fun heq => hrecord c heq.2.symm)
  · exact h.older q' t s n ((mem_ops_of_append hmem).resolve_right fun heq => hwrite t s n heq.2.symm)
  · refine h.fresh c ?_
    rcases hmem with hmem | hmem
    · exact .inl ((mem_ops_of_append hmem).resolve_right fun heq => hpcie c heq.2.symm)
    · exact .inr ((mem_ops_of_append hmem).resolve_right fun heq => hrecord c heq.2.symm)

/-- An operation of a collective. -/
theorem Wires.enqueue {t : Thread} {f f' : Facts} (h : Wires st) (htrack : Tracks st t f)
    (hc : t.call.c < st.calls) (hf : f.enqueue t.call q op = some f') (x : Option Thread) :
    Wires ((st.enqueue q op).setThread s x) := by
  have hby := by_of_enqueue hf
  refine ⟨done_enqueue h.done, h.values_enqueue htrack hf, h.events.enqueue h.done,
    h.callbacks.enqueue h.done fun s hcb hq => ?_, fun q' c hmem => ?_, h.next,
    fun q' tok s n hmem => ?_, fun c hmem => ?_⟩
  · rw [hcb] at hby
    cases hby
  · rcases mem_ops_of_append hmem with hmem | ⟨rfl, rfl⟩
    · exact h.record q' c hmem
    · cases hby
      rfl
  · rcases mem_ops_of_append hmem with hmem | ⟨rfl, rfl⟩
    · exact h.older q' tok s n hmem
    · cases tok <;>
      · simp only [Facts.enqueue] at hf
        split at hf <;> cases hf
        rename_i hcond
        obtain ⟨_, rfl, rfl, hticket, _⟩ := hcond
        have hnext := (htrack.input.ticket hticket).1
        show _ < st.nextSequence _
        omega
  · rcases hmem with hmem | hmem
    · rcases mem_ops_of_append hmem with hmem | ⟨_, rfl⟩
      · exact h.fresh c (.inl hmem)
      · rw [hby.transfer]
        exact hc
    · rcases mem_ops_of_append hmem with hmem | ⟨_, rfl⟩
      · exact h.fresh c (.inr hmem)
      · cases hby
        exact hc

/-- A thread puts an operation on a stream. -/
theorem Hosts.enqueue {t : Thread} {rest : List Action} {f f' g : Facts} (h : Hosts cfg st)
    (hw : Wires st) (ht : st.thread s = some t) (hrest : t.rest = .enqueue q op :: rest)
    (htrack : Tracks st t f) (hf : f.enqueue t.call q op = some f')
    (hrun : f'.run t.call rest = some g) (hfinal : g.final cfg t.call = true) :
    Hosts cfg ((st.enqueue q op).setThread s (some { t with rest := rest })) := by
  have hby := by_of_enqueue hf
  have hs : t.call.s = s := (h.thread s t ht).1
  refine h.step hw s (fun s' hs' => setThread_ne hs' _ _) (Nat.le_refl _) (fun s' t' hs' ht' => ?_)
    (fun call before after hmem => ⟨?_, fun l hl hmem' => ?_⟩) (fun t' ht' => ?_) rfl
  · refine hby.foreign ?_ (h.distinct s s' t t' ht ht' (Ne.symm hs')) st _
    rw [hs, (h.thread s' t' ht').1]
    exact Ne.symm hs'
  · refine enqueue_grows ?_ st _
    rintro rfl
    exact h.older s t call before after ht hmem hby.transfer
  · by_cases hq : Queue.user call.s = q
    · subst hq
      rw [enqueue_ops_self, List.append_cancel_left_eq] at hl
      subst hl
      rw [List.mem_singleton] at hmem'
      subst hmem'
      exact h.older s t call before after ht hmem hby.fastWork
    · rw [enqueue_ops_of_ne hq, List.self_eq_append_right] at hl
      rw [hl] at hmem'
      cases hmem'
  · rw [setThread_self] at ht'
    cases ht'
    refine ⟨by rw [ht]; rfl, f', g, ?_, hrun, hfinal⟩
    refine htrack.enqueue hrest hf ?_ ?_ (hw.done _)
    · rintro rfl
      exact putsUser _ _ _ _
    · rintro rfl
      exact putsPcie _ _ _ _

/-! ### Steps without an operation of a collective -/

/-- At most work of the user's and callbacks are new, on stream `s`. -/
structure Plain (s : ℕ) (st st' : State) : Prop where
  user : ∃ l, st'.ops (.user s) = st.ops (.user s) ++ l ∧ ∀ op ∈ l, op = .work ∨ op = .callback
  ops : ∀ q ≠ .user s, st'.ops q = st.ops q
  done : ∀ q, st.done q ≤ st'.done q
  registered : ∀ s' ≠ s, st'.registered s' = st.registered s'
  registered_self : ∃ l, st'.registered s = st.registered s ++ l
  nextSequence : ∀ s' ≠ s, st'.nextSequence s' = st.nextSequence s'

theorem Plain.foreign {call : Call} (h : Plain s st st') (hs : call.s ≠ s) :
    Foreign call st st' := by
  refine ⟨h.ops _ fun heq => hs (Queue.user.inj heq), ⟨[], ?_, List.not_mem_nil, List.not_mem_nil,
    fun _ => List.not_mem_nil⟩, h.done, h.registered _ hs, h.nextSequence _ hs⟩
  rw [List.append_nil]
  exact h.ops _ (Queue.user_ne_pcie _).symm

theorem Plain.grows (h : Plain s st st') (call : Call) : Grows call st st' := by
  by_cases hs : call.s = s
  · subst hs
    obtain ⟨l, hl, _⟩ := h.user
    refine ⟨⟨l, hl⟩, ⟨[], ?_, List.not_mem_nil⟩, h.done, h.registered_self⟩
    rw [List.append_nil]
    exact h.ops _ (Queue.user_ne_pcie _).symm
  · exact (h.foreign hs).grows

theorem Plain.fast (h : Plain s st st') (call : Call) (l : List Op)
    (hl : st'.ops (.user call.s) = st.ops (.user call.s) ++ l) : .fast call.c ∉ l := by
  by_cases hs : call.s = s
  · subst hs
    obtain ⟨l', hl', hplain⟩ := h.user
    rw [hl', List.append_cancel_left_eq] at hl
    subst hl
    intro hmem
    rcases hplain _ hmem with heq | heq <;> cases heq
  · rw [(h.foreign hs).user, List.self_eq_append_right] at hl
    rw [hl]
    exact List.not_mem_nil

theorem Hosts.plain (h : Hosts cfg st) (hw : Wires st) (hp : Plain s st st')
    (hthread : ∀ s' ≠ s, st'.thread s' = st.thread s') (hcalls : st.calls ≤ st'.calls)
    (hself : ∀ t', st'.thread s = some t' →
      (st.thread s).map Thread.call = some t'.call ∧
        ∃ f g, Tracks st' t' f ∧ f.run t'.call t'.rest = some g ∧ g.final cfg t'.call = true)
    (hreturned : st'.returned = st.returned) : Hosts cfg st' := by
  refine h.step hw s hthread hcalls (fun s' t' hs' ht' => hp.foreign ?_)
    (fun call before after _ => ⟨hp.grows call, hp.fast call⟩) hself hreturned
  rw [(h.thread s' t' ht').1]
  exact hs'

/-- Nothing is new on any stream. -/
theorem Plain.of_ops (s : ℕ) (hops : st'.ops = st.ops) (hdone : ∀ q, st.done q ≤ st'.done q)
    (hregistered : st'.registered = st.registered)
    (hnext : ∀ s' ≠ s, st'.nextSequence s' = st.nextSequence s') : Plain s st st' :=
  ⟨⟨[], by rw [hops, List.append_nil], fun _ h => absurd h List.not_mem_nil⟩,
    fun _ _ => by rw [hops], hdone, fun _ _ => by rw [hregistered],
    ⟨[], by rw [hregistered, List.append_nil]⟩, hnext⟩

theorem Plain.enqueue (hop : op = .work ∨ op = .callback) (st : State) (x : Option Thread) :
    Plain s st ((st.enqueue (.user s) op).setThread s x) :=
  ⟨⟨[op], enqueue_ops_self _ _ _ _, fun op' h => by rw [List.mem_singleton] at h; rwa [h]⟩,
    fun _ hq => enqueue_ops_of_ne hq _ _ _, fun _ => Nat.le_refl _, fun _ _ => rfl,
    ⟨[], (List.append_nil _).symm⟩, fun _ _ => rfl⟩

variable (cfg) in
/-- All of it. -/
structure Orderly (st : State) : Prop where
  wires : Wires st
  hosts : Hosts cfg st

theorem Orderly.work (h : Orderly cfg st) (hs : st.thread s = none) :
    Orderly cfg (st.enqueue (.user s) .work) := by
  have hthread : st.enqueue (.user s) .work = (st.enqueue (.user s) .work).setThread s none := by
    have heq : Function.update st.thread s none = st.thread := by
      rw [← hs]
      exact Function.update_eq_self _ _
    unfold State.setThread
    rw [show (st.enqueue (.user s) .work).thread = st.thread from rfl, heq]
    rfl
  rw [hthread]
  refine ⟨h.wires.enqueue_plain none (.inl rfl), ?_⟩
  refine h.hosts.plain h.wires (Plain.enqueue (.inl rfl) st none)
    (fun s' hs' => setThread_ne hs' _ _) (Nat.le_refl _) (fun t' ht' => ?_) rfl
  rw [setThread_self] at ht'
  cases ht'

/-- The device starts an operation, or finishes one. -/
theorem Hosts.device (h : Hosts cfg st) (hw : Wires st) (hops : st'.ops = st.ops)
    (hdone : ∀ q, st.done q ≤ st'.done q) (hregistered : st'.registered = st.registered)
    (hnext : st'.nextSequence = st.nextSequence) (hthread : st'.thread = st.thread)
    (hcalls : st'.calls = st.calls) (hreturned : st'.returned = st.returned) : Hosts cfg st' := by
  have hp : Plain 0 st st' := Plain.of_ops 0 hops hdone hregistered fun _ _ => by rw [hnext]
  refine h.plain hw hp (fun _ _ => by rw [hthread]) hcalls.ge (fun t' ht' => ?_) hreturned
  rw [hthread] at ht'
  obtain ⟨_, _, f, g, htrack, hrun, hfinal⟩ := h.thread 0 t' ht'
  refine ⟨by rw [ht']; rfl, f, g, htrack.foreign ?_ (hw.done _), hrun, hfinal⟩
  exact Foreign.of_ops hops hdone (by rw [hregistered]) (by rw [hnext])

theorem effect_frame (q : Queue) (op : Op) (st : State) :
    (st.effect q op).ops = st.ops ∧ (st.effect q op).registered = st.registered ∧
      (st.effect q op).nextSequence = st.nextSequence ∧ (st.effect q op).thread = st.thread ∧
      (st.effect q op).calls = st.calls ∧ (st.effect q op).returned = st.returned := by
  unfold State.effect
  split
  · exact ⟨rfl, rfl, rfl, rfl, rfl, rfl⟩
  · exact ⟨rfl, rfl, rfl, rfl, rfl, rfl⟩
  · split
    · split <;> exact ⟨rfl, rfl, rfl, rfl, rfl, rfl⟩
    · exact ⟨rfl, rfl, rfl, rfl, rfl, rfl⟩
  · exact ⟨rfl, rfl, rfl, rfl, rfl, rfl⟩

theorem effect_tokens (q : Queue) (op : Op) (st : State) (t : Token) (s slot : ℕ) :
    (st.effect q op).tokens t s slot = st.tokens t s slot ∨
      op = .write t s ((st.effect q op).tokens t s slot) := by
  unfold State.effect
  split
  · dsimp only
    split
    · rename_i heq
      obtain ⟨rfl, rfl, _⟩ := heq
      exact .inr rfl
    · exact .inl rfl
  · exact .inl rfl
  · split
    · split <;> exact .inl rfl
    · exact .inl rfl
  · exact .inl rfl

theorem effect_event (q : Queue) (op : Op) (st : State) (c : ℕ)
    (h : (st.effect q op).event c = true) : st.event c = true ∨ op = .record c := by
  unfold State.effect at h
  split at h
  · exact .inl h
  · rename_i c'
    by_cases hc : c = c'
    · exact .inr (by rw [hc])
    · dsimp only at h
      rw [Function.update_of_ne hc] at h
      exact .inl h
  · split at h
    · split at h <;> exact .inl h
    · exact .inl h
  · exact .inl h

/-- A callback takes the oldest pending collective of its stream. -/
theorem effect_taken
    (hroom : ∀ s, callbacks (st.ops (.user s)) ≤ (st.registered s).length)
    (hcount : ∀ s, st.taken s = callbacks ((st.ops (.user s)).take (st.done (.user s))))
    (hop : (st.ops q)[st.done q]? = some op) (s : ℕ) :
    (st.effect q op).taken s = st.taken s + if q = .user s ∧ op = .callback then 1 else 0 := by
  unfold State.effect
  split
  · simp
  · simp
  · split
    · rename_i s'
      have hlt : st.taken s' < (st.registered s').length := by
        have hsucc := callbacks_take_succ hop
        have hle := (List.take_sublist (st.done (.user s') + 1) (st.ops (.user s'))).countP_le
          (p := fun op => decide (op = Op.callback))
        have hle' := hroom s'
        have hcount' := hcount s'
        unfold Streams.callbacks at hsucc hle' hcount'
        simp only [if_true] at hsucc
        omega
      rw [if_pos hlt]
      dsimp only
      by_cases hs : s = s'
      · subst hs
        simp
      · rw [Function.update_of_ne hs, if_neg]
        · rfl
        · rintro ⟨heq, _⟩
          exact hs (Queue.user.inj heq).symm
    · simp
  · rename_i hcallback
    simp only [Nat.left_eq_add, ite_eq_right_iff, and_imp]
    intro _ heq
    exact absurd heq hcallback

theorem Wires.finish {running : Queue → Bool} (h : Wires st)
    (hop : (st.ops q)[st.done q]? = some op) (hready : st.ready q op = true) :
    Wires { st.effect q op with
      done := Function.update st.done q (st.done q + 1), running := running } := by
  obtain ⟨hops, hregistered, hnext, _, hcalls, _⟩ := effect_frame q op st
  have hmem : op ∈ st.ops q := List.mem_of_getElem? hop
  refine ⟨fun q' => ?_, ?_, ?_, ?_, ?_, ?_, ?_, ?_⟩
  · show Function.update st.done q (st.done q + 1) q' ≤ ((st.effect q op).ops q').length
    rw [hops]
    by_cases hq : q' = q
    · subst hq
      rw [Function.update_self]
      exact (List.getElem?_eq_some_iff.1 hop).1
    · rw [Function.update_of_ne hq]
      exact h.done q'
  · show Values (st.effect q op).ops _ (st.effect q op).tokens
    rw [hops]
    refine h.values.finish hop (effect_tokens q op st) fun t s n heq => ?_
    rw [heq] at hready
    simpa [State.ready] using hready
  · show Events (st.effect q op).ops _ (st.effect q op).event
    rw [hops]
    refine h.events.finish hop (fun c heq => h.record q c (heq ▸ hmem)) (effect_event q op st)
      fun c heq => ?_
    rw [heq] at hready
    exact hready
  · show Callbacks (st.effect q op).ops _ (st.effect q op).registered (st.effect q op).taken
    rw [hops, hregistered]
    refine h.callbacks.finish hop (effect_taken h.callbacks.le h.callbacks.count hop) fun s p hq heq hp hw => ?_
    subst hq heq
    simp only [State.ready, hp, hw, Bool.not_true, Bool.false_or] at hready
    exact h.events.event _ hready
  · show ∀ q' c, .record c ∈ (st.effect q op).ops q' → q' = .pcie
    rw [hops]
    exact h.record
  · show ∀ s, 1 ≤ (st.effect q op).nextSequence s
    rw [hnext]
    exact h.next
  · show ∀ q' t s n, .write t s n ∈ (st.effect q op).ops q' → n < (st.effect q op).nextSequence s
    rw [hops, hnext]
    exact h.older
  · show ∀ c, .pcie c ∈ (st.effect q op).ops .pcie ∨ .record c ∈ (st.effect q op).ops .pcie →
      c < (st.effect q op).calls
    rw [hops, hcalls]
    exact h.fresh

theorem Orderly.device (h : Orderly cfg st) (hstep : step cfg st (.device q) = some st') :
    Orderly cfg st' := by
  unfold Streams.step at hstep
  dsimp only at hstep
  split at hstep
  · cases hstep
  · rename_i op hop
    split at hstep
    · split at hstep <;> cases hstep
      rename_i hready
      obtain ⟨hops, hregistered, hnext, hthread, hcalls, hreturned⟩ := effect_frame q op st
      refine ⟨h.wires.finish hop hready, h.hosts.device h.wires hops (fun q' => ?_) hregistered hnext
        hthread hcalls hreturned⟩
      show st.done q' ≤ Function.update st.done q (st.done q + 1) q'
      by_cases hq : q' = q
      · subst hq
        rw [Function.update_self]
        exact Nat.le_succ _
      · rw [Function.update_of_ne hq]
    · cases hstep
      exact ⟨⟨h.wires.done, h.wires.values, h.wires.events, h.wires.callbacks, h.wires.record,
        h.wires.next, h.wires.older, h.wires.fresh⟩,
        h.hosts.device h.wires rfl (fun _ => Nat.le_refl _) rfl rfl rfl rfl rfl⟩

/-! ### Calls -/

/-- All the user has put on stream `s` is finished. -/
def State.idle (st : State) (s : ℕ) : Bool :=
  decide (st.done (.user s) = (st.ops (.user s)).length)

/-- Every collective that was registered for stream `s` has its callback there. -/
def State.kept (st : State) (s : ℕ) : Bool :=
  decide (callbacks (st.ops (.user s)) = (st.registered s).length)

/-- A collective is called only when its dependencies will be made: an AllToAll that uses
the PCIe path only on an idle stream, and a transfer only with a way to wait for it. -/
def Config.orderKept (cfg : Config) (st : State) : Label → Bool
  | .call s kind plan outcome =>
    callKept cfg (st.newCall s kind plan outcome) (st.idle s) (st.kept s)
  | _ => true

/-- The facts at the call. -/
theorem Tracks.initial {call : Call} {rest : List Action} (h : Wires st)
    (hnext : takesTicket cfg call = true → st'.nextSequence call.s = call.seq + 1)
    (hseq : call.seq = st.nextSequence call.s) (hc : call.c = st.calls)
    (hops : st'.ops = st.ops) (hdone : st'.done = st.done)
    (hregistered : st'.registered = st.registered) :
    Tracks st' ⟨call, rest, none, (st.ops (.user call.s)).length⟩
      (Facts.initial cfg call (st.idle call.s) (st.kept call.s)) := by
  have holder : ∀ q t m, .write t call.s m ∈ st.ops q → m < call.seq := by
    intro q t m hmem
    rw [hseq]
    exact h.older q t call.s m hmem
  have htransfer : Op.pcie call.c ∉ st.ops .pcie := by
    intro hmem
    have hlt := h.fresh _ (.inl hmem)
    omega
  have hrecord : Op.record call.c ∉ st.ops .pcie := by
    intro hmem
    have hlt := h.fresh _ (.inr hmem)
    omega
  refine ⟨⟨?_, fun ht => ⟨hnext ht, ?_⟩, fun _ m hmem => ?_, nofun, fun _ _ m hmem => ?_,
    fun hd => .inl ?_⟩, ⟨fun _ => ?_, fun hmem => ?_, nofun, fun _ => ?_, nofun, fun _ _ m hmem => ?_⟩,
    ⟨nofun, fun hk => ?_, nofun⟩, nofun⟩
  · rw [hops]
  · rw [hseq]
    exact h.next _
  · rw [hops] at hmem
    exact holder _ _ m (List.mem_of_mem_take hmem)
  · rw [hops] at hmem
    exact holder _ _ m hmem
  · have hidle := of_decide_eq_true hd
    rw [hdone, hidle]
  · rw [hops]
    exact htransfer
  · rw [hops] at hmem
    exact absurd hmem htransfer
  · rw [hops]
    exact hrecord
  · rw [hops] at hmem
    exact holder _ _ m hmem
  · rw [hops, hregistered]
    exact of_decide_eq_true hk

theorem Orderly.call {kind : Kind} {plan : Plan} {outcome : Outcome} (h : Orderly cfg st)
    (hguard : cfg.orderKept st (.call s kind plan outcome) = true)
    (hstep : step cfg st (.call s kind plan outcome) = some st') : Orderly cfg st' := by
  unfold Streams.step at hstep
  dsimp only at hstep
  split at hstep <;> cases hstep
  rename_i hnone
  have hthread : st.thread s = none := Option.isNone_iff_eq_none.1 hnone
  have hnext_ne : ∀ s' ≠ s, (if takesTicket cfg (st.newCall s kind plan outcome) = true then
      Function.update st.nextSequence s (st.nextSequence s + 1) else st.nextSequence) s' =
        st.nextSequence s' := by
    intro s' hs'
    split
    · exact Function.update_of_ne hs' _ _
    · rfl
  have hnext_le : ∀ s', st.nextSequence s' ≤ (if takesTicket cfg (st.newCall s kind plan outcome) = true
      then Function.update st.nextSequence s (st.nextSequence s + 1) else st.nextSequence) s' := by
    intro s'
    by_cases hs' : s' = s
    · subst hs'
      split
      · rw [Function.update_self]
        exact Nat.le_succ _
      · exact Nat.le_refl _
    · rw [hnext_ne s' hs']
  obtain ⟨g, hrun, hfinal⟩ := script_passes hguard
  refine ⟨⟨h.wires.done, h.wires.values, h.wires.events, h.wires.callbacks, h.wires.record,
    fun s' => (h.wires.next s').trans (hnext_le s'),
    fun q t s' n hmem => (h.wires.older q t s' n hmem).trans_le (hnext_le s'),
    fun c hmem => Nat.lt_succ_of_lt (h.wires.fresh c hmem)⟩, ?_⟩
  -- the new collective has a number of its own
  refine ⟨fun s' t' ht' => ?_, fun s₁ s₂ t₁ t₂ h₁ h₂ hne => ?_,
    fun s' t' call before after ht' hmem => ?_, fun call before after hmem => ?_⟩
  · by_cases hs : s' = s
    · subst hs
      dsimp only at ht'
      rw [Function.update_self] at ht'
      cases ht'
      refine ⟨rfl, Nat.lt_succ_self _, _, g, Tracks.initial h.wires (fun ht => ?_) rfl rfl rfl rfl rfl,
        hrun, hfinal⟩
      dsimp only
      rw [if_pos ht]
      exact Function.update_self _ _ _
    · dsimp only at ht'
      rw [Function.update_of_ne hs] at ht'
      obtain ⟨hs', hc, f, g', htrack, hrun', hfinal'⟩ := h.hosts.thread s' t' ht'
      refine ⟨hs', Nat.lt_succ_of_lt hc, f, g', htrack.foreign ?_ (h.wires.done _), hrun', hfinal'⟩
      refine Foreign.of_ops rfl (fun _ => Nat.le_refl _) rfl (hnext_ne _ ?_)
      rw [hs']
      exact hs
  · dsimp only at h₁ h₂
    by_cases hs₁ : s₁ = s
    · subst hs₁
      rw [Function.update_self] at h₁
      rw [Function.update_of_ne (Ne.symm hne)] at h₂
      cases h₁
      exact Nat.ne_of_gt (h.hosts.thread s₂ t₂ h₂).2.1
    · rw [Function.update_of_ne hs₁] at h₁
      by_cases hs₂ : s₂ = s
      · subst hs₂
        rw [Function.update_self] at h₂
        cases h₂
        exact Nat.ne_of_lt (h.hosts.thread s₁ t₁ h₁).2.1
      · rw [Function.update_of_ne hs₂] at h₂
        exact h.hosts.distinct s₁ s₂ t₁ t₂ h₁ h₂ hne
  · dsimp only at ht'
    by_cases hs : s' = s
    · subst hs
      rw [Function.update_self] at ht'
      cases ht'
      exact Nat.ne_of_lt (h.hosts.returned call before after hmem).1
    · rw [Function.update_of_ne hs] at ht'
      exact h.hosts.older s' t' call before after ht' hmem
  · obtain ⟨hc, hsettled⟩ := h.hosts.returned call before after hmem
    refine ⟨Nat.lt_succ_of_lt hc, hsettled.grow ?_ (h.wires.done _) fun l hl => ?_⟩
    · exact ⟨⟨[], (List.append_nil _).symm⟩, ⟨[], (List.append_nil _).symm, List.not_mem_nil⟩,
        fun _ => Nat.le_refl _, ⟨[], (List.append_nil _).symm⟩⟩
    · rw [List.self_eq_append_right] at hl
      rw [hl]
      exact List.not_mem_nil

/-! ### The calls of the host -/

theorem Facts.run_cons_eq_some {call : Call} {f g : Facts} {a : Action} {l : List Action} :
    f.run call (a :: l) = some g ↔ ∃ f', f.next call a = some f' ∧ f'.run call l = some g := by
  rw [Facts.run_cons, Option.bind_eq_some_iff]

/-- Only the thread of stream `s` changes. -/
theorem Orderly.setThread {t : Thread} {x : Option Thread} (h : Orderly cfg st)
    (ht : st.thread s = some t)
    (hx : ∀ t', x = some t' → t'.call = t.call ∧
      ∃ f g, Tracks st t' f ∧ f.run t'.call t'.rest = some g ∧ g.final cfg t'.call = true) :
    Orderly cfg (st.setThread s x) := by
  refine ⟨⟨h.wires.done, h.wires.values, h.wires.events, h.wires.callbacks, h.wires.record,
    h.wires.next, h.wires.older, h.wires.fresh⟩, ?_⟩
  refine h.hosts.plain h.wires (Plain.of_ops s rfl (fun _ => Nat.le_refl _) rfl fun _ _ => rfl)
    (fun s' hs' => setThread_ne hs' _ _) (Nat.le_refl _) (fun t' ht' => ?_) rfl
  rw [setThread_self] at ht'
  obtain ⟨hcall, f, g, htrack, hrun, hfinal⟩ := hx t' ht'
  refine ⟨by rw [ht, hcall]; rfl, f, g, htrack.foreign ?_ (h.wires.done _), hrun, hfinal⟩
  exact Foreign.of_ops rfl (fun _ => Nat.le_refl _) rfl rfl

/-- The collective returns. -/
theorem Orderly.return {t : Thread} {f : Facts} (h : Orderly cfg st) (ht : st.thread s = some t)
    (htrack : Tracks st t f) (hfinal : f.final cfg t.call = true) :
    Orderly cfg { st.setThread s none with
      returned := (t.call, t.before, (st.ops (.user s)).length) :: st.returned } := by
  have hthread : Orderly cfg (st.setThread s none) :=
    h.setThread ht fun _ hx => absurd hx (Option.some_ne_none _).symm
  obtain ⟨hs, hc, _⟩ := h.hosts.thread s t ht
  refine ⟨⟨hthread.wires.done, hthread.wires.values, hthread.wires.events, hthread.wires.callbacks,
    hthread.wires.record, hthread.wires.next, hthread.wires.older, hthread.wires.fresh⟩, ?_⟩
  have hne : ∀ s' t', (st.setThread s none).thread s' = some t' → s' ≠ s := by
    rintro s' t' ht' rfl
    rw [setThread_self] at ht'
    cases ht'
  have hold : ∀ s' t', (st.setThread s none).thread s' = some t' → st.thread s' = some t' := by
    intro s' t' ht'
    rwa [setThread_ne (hne s' t' ht')] at ht'
  refine ⟨fun s' t' ht' => ?_, hthread.hosts.distinct, fun s' t' call before after ht' hmem => ?_,
    fun call before after hmem => ?_⟩
  · obtain ⟨hs', hc', f', g', htrack', hrun', hfinal'⟩ := hthread.hosts.thread s' t' ht'
    refine ⟨hs', hc', f', g', htrack'.foreign ?_ (h.wires.done _), hrun', hfinal'⟩
    exact Foreign.of_ops rfl (fun _ => Nat.le_refl _) rfl rfl
  · rcases List.mem_cons.1 hmem with heq | hmem
    · cases heq
      exact h.hosts.distinct s s' t t' ht (hold s' t' ht') (Ne.symm (hne s' t' ht'))
    · exact hthread.hosts.older s' t' call before after ht' hmem
  · rcases List.mem_cons.1 hmem with heq | hmem
    · cases heq
      simp only [Facts.final, Bool.and_eq_true, Bool.or_eq_true, Bool.not_eq_true'] at hfinal
      refine ⟨hc, htrack.input.le, ?_, htrack.transfer.transfer, ?_, fun hn => ?_, ?_⟩
      · rw [hs]
        exact Nat.le_refl _
      · rcases hfinal.1 with hno | hclosed
        · exact .inl fun hmem => htrack.transfer.untransferred hno (List.mem_of_mem_drop hmem)
        · have hcl := htrack.close.closed hclosed
          rw [hs] at hcl
          exact hcl
      · have hm := htrack.close.merged (hfinal.2.resolve_left (by simp [hn]))
        rw [hs] at hm
        exact hm
      · show _ ∉ (st.ops (.user t.call.s)).drop _
        rw [hs, List.drop_length]
        exact List.not_mem_nil
    · obtain ⟨hc', hsettled⟩ := hthread.hosts.returned call before after hmem
      exact ⟨hc', hsettled.before_le, hsettled.after_le, hsettled.input, hsettled.closed,
        hsettled.merges, hsettled.fast⟩

/-- The state after `RegisterStreamPending` and the launch of the callback. -/
def State.completed (st : State) (s : ℕ) (p : Pending) (launched : Bool) : State :=
  let registered :=
    { st with registered := Function.update st.registered s (st.registered s ++ [p]) }
  if launched then registered.enqueue (.user s) .callback else registered

theorem Wires.complete {p : Pending} {launched : Bool} (h : Wires st) (x : Option Thread) :
    Wires ((st.completed s p launched).setThread s x) := by
  have hregistered : Wires
      { st with registered := Function.update st.registered s (st.registered s ++ [p]) } :=
    ⟨h.done, h.values, h.events, h.callbacks.register h.done, h.record, h.next, h.older, h.fresh⟩
  unfold State.completed
  dsimp only
  split
  · refine hregistered.enqueue_plain x (.inr ⟨rfl, fun s' hs' => ?_⟩)
    cases hs'
    dsimp only
    rw [Function.update_self, List.length_append]
    exact Nat.lt_succ_of_le (h.callbacks.le s)
  · exact ⟨hregistered.done, hregistered.values, hregistered.events, hregistered.callbacks,
      hregistered.record, hregistered.next, hregistered.older, hregistered.fresh⟩

theorem completes (call : Call) (p : Pending) (launched : Bool) (st : State) (x : Option Thread) :
    Completes call p launched st ((st.completed call.s p launched).setThread call.s x) := by
  unfold State.completed
  cases launched with
  | true =>
    refine ⟨enqueue_ops_self _ _ _ _, enqueue_ops_of_ne (Queue.user_ne_pcie _).symm _ _ _,
      fun _ => rfl, Function.update_self _ _ _, rfl⟩
  | false =>
    exact ⟨(List.append_nil _).symm, rfl, fun _ => rfl, Function.update_self _ _ _, rfl⟩

theorem Plain.complete (s : ℕ) (p : Pending) (launched : Bool) (st : State) (x : Option Thread) :
    Plain s st ((st.completed s p launched).setThread s x) := by
  unfold State.completed
  cases launched with
  | true =>
    refine ⟨⟨[.callback], enqueue_ops_self _ _ _ _, fun op hop => .inr (List.mem_singleton.1 hop)⟩,
      fun q hq => enqueue_ops_of_ne hq _ _ _, fun _ => Nat.le_refl _,
      fun s' hs' => Function.update_of_ne hs' _ _, ⟨[p], Function.update_self _ _ _⟩, fun _ _ => rfl⟩
  | false =>
    exact ⟨⟨[], (List.append_nil _).symm, fun _ h => absurd h List.not_mem_nil⟩, fun _ _ => rfl,
      fun _ => Nat.le_refl _, fun s' hs' => Function.update_of_ne hs' _ _,
      ⟨[p], Function.update_self _ _ _⟩, fun _ _ => rfl⟩

theorem Orderly.complete {t : Thread} {p : Pending} {launched : Bool} {rest : List Action}
    {f f' g : Facts} (h : Orderly cfg st) (ht : st.thread s = some t)
    (hrest : t.rest = .complete p launched :: rest) (htrack : Tracks st t f)
    (hf : f.next t.call (.complete p launched) = some f') (hrun : f'.run t.call rest = some g)
    (hfinal : g.final cfg t.call = true) :
    Orderly cfg ((st.completed s p launched).setThread s (some { t with rest := rest })) := by
  obtain ⟨hs, _⟩ := h.hosts.thread s t ht
  subst hs
  refine ⟨h.wires.complete _, h.hosts.plain h.wires (Plain.complete _ p launched st _)
    (fun s' hs' => ?_) ?_ (fun t' ht' => ?_) ?_⟩
  · rw [setThread_ne hs']
    unfold State.completed
    cases launched <;> rfl
  · unfold State.completed
    cases launched <;> exact Nat.le_refl _
  · rw [setThread_self] at ht'
    cases ht'
    exact ⟨by rw [ht]; rfl, f', g,
      htrack.complete hrest hf (completes t.call p launched st _) (h.wires.done _), hrun, hfinal⟩
  · unfold State.completed
    cases launched <;> rfl

/-- The host starts to wait for a stream, or has waited. -/
theorem Orderly.synchronize {t : Thread} {rest : List Action} {f f' g : Facts}
    (h : Orderly cfg st) (ht : st.thread s = some t) (hrest : t.rest = .synchronize q :: rest)
    (htrack : Tracks st t f) (hf : f.next t.call (.synchronize q) = some f')
    (hrun : f'.run t.call rest = some g) (hfinal : g.final cfg t.call = true)
    (hstep : Streams.step cfg st (.host s) = some st') : Orderly cfg st' := by
  obtain ⟨call, _, awaiting, before⟩ := t
  cases hrest
  unfold Streams.step at hstep
  dsimp only at hstep
  rw [ht] at hstep
  dsimp only at hstep
  cases awaiting with
  | none =>
    cases hstep
    refine h.setThread ht fun t' ht' => ?_
    cases ht'
    exact ⟨rfl, f, g, htrack.synchronize rfl, Facts.run_cons_eq_some.2 ⟨f', hf, hrun⟩, hfinal⟩
  | some n =>
    dsimp only at hstep
    split at hstep <;> cases hstep
    rename_i hdone
    refine h.setThread ht fun t' ht' => ?_
    cases ht'
    exact ⟨rfl, f', g, htrack.synchronized rfl rfl hdone hf, hrun, hfinal⟩

theorem Orderly.host (h : Orderly cfg st) (hstep : Streams.step cfg st (.host s) = some st') :
    Orderly cfg st' := by
  have hcopy := hstep
  unfold Streams.step at hstep
  dsimp only at hstep
  cases ht : st.thread s with
  | none =>
    rw [ht] at hstep
    cases hstep
  | some t =>
    obtain ⟨hs, hc, f, g, htrack, hrun, hfinal⟩ := h.hosts.thread s t ht
    rw [ht] at hstep
    dsimp only at hstep
    cases hrest : t.rest with
    | nil =>
      rw [hrest] at hstep hrun
      cases hstep
      cases hrun
      exact h.return ht htrack hfinal
    | cons a rest =>
      rw [hrest] at hrun
      obtain ⟨f', hf, hrun'⟩ := Facts.run_cons_eq_some.1 hrun
      cases a with
      | enqueue q op =>
        simp only [hrest] at hstep
        cases hstep
        exact ⟨h.wires.enqueue htrack hc hf _,
          h.hosts.enqueue h.wires ht hrest htrack hf hrun' hfinal⟩
      | synchronize q => exact h.synchronize ht hrest htrack hf hrun' hfinal hcopy
      | complete p launched =>
        simp only [hrest] at hstep
        have heq : st' = (st.completed s p launched).setThread s (some { t with rest := rest }) :=
          (Option.some.inj hstep).symm
        rw [heq]
        exact h.complete ht hrest htrack hf hrun' hfinal

theorem Orderly.step {l : Label} (h : Orderly cfg st) (hguard : cfg.orderKept st l = true)
    (hstep : Streams.step cfg st l = some st') : Orderly cfg st' := by
  cases l with
  | work s =>
    unfold Streams.step at hstep
    dsimp only at hstep
    split at hstep <;> cases hstep
    rename_i hnone
    exact h.work (Option.isNone_iff_eq_none.1 hnone)
  | call s kind plan outcome => exact h.call hguard hstep
  | host s => exact h.host hstep
  | device q => exact h.device hstep

theorem Orderly.run {ls : List Label}
    (hrun : (machine cfg).runFrom cfg.orderKept start ls = some st) : Orderly cfg st :=
  (machine cfg).invariant (I := Orderly cfg) (fun _ _ _ h hguard hstep => h.step hguard hstep)
    ⟨Wires.init, Hosts.init⟩ hrun

/-! ## The order of the streams -/

/-- The operations of a stream that have started. -/
def State.started (st : State) (q : Queue) : List Op :=
  (st.ops q).take (st.done q + if st.running q then 1 else 0)

/-- The collective was called when `before` operations were on its stream. -/
def State.Called (st : State) (call : Call) (before : ℕ) : Prop :=
  (∃ s t, st.thread s = some t ∧ t.call = call ∧ t.before = before) ∨
    ∃ after, (call, before, after) ∈ st.returned

/-- The PCIe part and the fast part of a collective are through, and its result is in the
user's buffer. -/
structure Finished (cfg : Config) (st : State) (call : Call) : Prop where
  pcie : .pcie call.c ∉ (st.ops .pcie).drop (st.done .pcie)
  fast : .fast call.c ∉ (st.ops (.user call.s)).drop (st.done (.user call.s))
  merged : needsMerge cfg call = true → ∃ i p, i < st.taken call.s ∧
    (st.registered call.s)[i]? = some p ∧ p.call = call.c ∧ p.merges = true

/-- What the order of the streams has to be. -/
structure StreamOrdered (cfg : Config) (st : State) : Prop where
  /-- A transfer that has started has all earlier work of the user's stream behind it. -/
  input : ∀ call before, st.Called call before → .pcie call.c ∈ st.started .pcie →
    before ≤ st.done (.user call.s)
  /-- When an operation has started that the user's stream was given later, the collective
  is through. -/
  later : ∀ call before after, (call, before, after) ∈ st.returned →
    after < (st.started (.user call.s)).length → Finished cfg st call

theorem started_subset (st : State) (q : Queue) : st.started q ⊆ (st.ops q).take (st.done q + 1) := by
  refine List.take_subset_take_left _ ?_
  split <;> omega

theorem Wires.input_done {call : Call} {before : ℕ} (h : Wires st) (hi : InputOk st call before)
    (hmem : .pcie call.c ∈ st.started .pcie) : before ≤ st.done (.user call.s) := by
  have hmem' := started_subset st .pcie hmem
  rcases hi (List.mem_of_mem_take hmem') with hle | ⟨hprecedes, hwrite⟩
  · exact hle
  · by_contra hlt
    have hdone := h.values.waited _ _ _ _ (hprecedes.mem_take hmem')
    exact hwrite (mem_take_of_le (Nat.le_of_not_le hlt) hdone)

theorem Wires.finished {call : Call} {before after : ℕ} (h : Wires st)
    (hs : Settled cfg st call before after) (hafter : after ≤ st.done (.user call.s)) :
    Finished cfg st call := by
  have htaken : ∀ i, i < Streams.callbacks ((st.ops (.user call.s)).take after) →
      i < st.taken call.s := by
    intro i hi
    rw [h.callbacks.count]
    exact hi.trans_le (callbacks_take_le hafter)
  refine ⟨?_, fun hmem => ?_, fun hn => ?_⟩
  · rcases hs.closed with hdrop | ⟨hmem, hnever⟩ | ⟨hmem, hnever⟩ |
      ⟨⟨i, p, hp, hcall, hwaits, hi⟩, hnever⟩
    · exact hdrop
    · exact hnever.not_mem_drop (h.values.waited _ _ _ _ (mem_take_of_le hafter hmem))
    · exact hnever.not_mem_drop (h.events.waited _ _ (mem_take_of_le hafter hmem))
    · refine hnever.not_mem_drop ?_
      rw [← hcall]
      exact h.callbacks.waited _ i p (htaken i hi) hp hwaits
  · exact hs.fast ((List.drop_sublist_drop_left _ hafter).subset hmem)
  · obtain ⟨i, p, hp, hcall, hmerges, hi⟩ := hs.merges hn
    exact ⟨i, p, htaken i hi, hp, hcall, hmerges⟩

/-- **The order of the streams.**  When every collective is called under its condition, in
every state of every run the PCIe transfer of a collective starts only after the work that
was on the user's stream, and work that the stream is given later starts only after both
parts of the collective are through. -/
theorem stream_order (cfg : Config) {st : State} {ls : List Label}
    (hrun : (machine cfg).runFrom cfg.orderKept start ls = some st) : StreamOrdered cfg st := by
  have h := Orderly.run hrun
  refine ⟨fun call before hcalled hmem => ?_, fun call before after hret hlt => ?_⟩
  · rcases hcalled with ⟨s, t, ht, rfl, rfl⟩ | ⟨after, hret⟩
    · obtain ⟨_, _, f, g, htrack, _⟩ := h.hosts.thread s t ht
      exact h.wires.input_done htrack.transfer.transfer hmem
    · exact h.wires.input_done (h.hosts.returned _ _ _ hret).2.input hmem
  · refine h.wires.finished (h.hosts.returned _ _ _ hret).2 ?_
    unfold State.started at hlt
    rw [List.length_take] at hlt
    split at hlt <;> omega

/-- Every call succeeds. -/
def succeeds : Outcome :=
  ⟨true, true, true, true, true, true, true, true, true, true, true, true, true, true, true⟩

/-- A domain with the value synchronisation and V-collectives. -/
def domain : Config := ⟨.acl, true, true, true, false, false, fun _ => true⟩

/-- Work, a hybrid AllReduce and more work; the device gets to the second work. -/
def orderedRun : List Label :=
  [.work 1, .call 1 .allReduce ⟨512, 512, true⟩ succeeds] ++ List.replicate 9 (.host 1) ++
    [.work 1] ++ List.replicate 6 (.device (.user 1)) ++ List.replicate 8 (.device .pcie) ++
    List.replicate 5 (.device (.user 1))

/-- The second work starts after the AllReduce is through. -/
theorem stream_order_pair :
    ∃ st, (machine domain).runFrom domain.orderKept start orderedRun = some st ∧
      st.started (.user 1) = [.work, .write .inputReady 1 1, .fast 0, .wait .completion 1 1,
        .callback, .work] ∧
      st.done .pcie = 4 ∧ StreamOrdered domain st := by
  have hseen : ((machine domain).runFrom domain.orderKept start orderedRun).map
      (fun st => (st.started (.user 1), st.done .pcie)) =
        some ([.work, .write .inputReady 1 1, .fast 0, .wait .completion 1 1, .callback, .work], 4) := by
    decide +kernel
  obtain ⟨st, hrun, heq⟩ := Option.map_eq_some_iff.1 hseen
  rw [Prod.mk.injEq] at heq
  exact ⟨st, hrun, heq.1, heq.2, stream_order domain hrun⟩

/-- Work, and an AllToAll that uses the PCIe path alone. -/
def earlyRun : List Label :=
  [.work 1, .call 1 .allToAll ⟨0, 1024, true⟩ succeeds, .host 1, .device .pcie]

/-- **AllToAll does not wait for its input.**  Its PCIe transfer starts while the work that
is to produce the input has not even started. -/
theorem alltoall_starts_early :
    ∃ st, (machine domain).runFrom Machine.anyStep start earlyRun = some st ∧
      ¬ StreamOrdered domain st := by
  have hseen : ((machine domain).runFrom Machine.anyStep start earlyRun).map
      (fun st => ((st.thread 1).map fun t => (t.call.s, t.call.c, t.before), st.started .pcie,
        st.done (.user 1))) = some (some (1, 0, 1), [.pcie 0], 0) := by
    decide +kernel
  obtain ⟨st, hrun, heq⟩ := Option.map_eq_some_iff.1 hseen
  simp only [Prod.mk.injEq] at heq
  obtain ⟨hthread, hstarted, hdone⟩ := heq
  obtain ⟨t, ht, hcall⟩ := Option.map_eq_some_iff.1 hthread
  simp only [Prod.mk.injEq] at hcall
  obtain ⟨hs, hc, hbefore⟩ := hcall
  refine ⟨st, hrun, fun hordered => ?_⟩
  have hle := hordered.input t.call t.before (.inl ⟨1, t, ht, rfl, rfl⟩)
    (by rw [hc, hstarted]; exact List.mem_singleton.2 rfl)
  rw [hs, hdone, hbefore] at hle
  exact absurd hle (by decide)

end Streams
end Orchestrator
end HyLink
