import HyLink.Memory.Admission

/-!
# The doorbell releases a wait by the signal of its own work

* `Wires` — in kernel-wait mode the flag is reset for a work after the waits of the earlier works
  of the slot, and by then their signals have been copied.
* `Words` — in stream-memory-op mode the word of a slot is the last work of it that was signalled.
* `doorbell_kept` — in every run where no call of `prepareUserWait` fails.
* `released_by_earlier` — a call fails, and then the work that holds the slot.
-/

namespace HyLink
namespace Memory
namespace CompletionFlag

open Theory

variable {cfg : Config} {s s' : State} {e e' : Executor} {d d' : Device}

/-! ## What a step does -/

/-- **What a step can do** where no call of `prepareUserWait` fails: a submission is let in, makes a
call, or is queued; works under way are signalled; or the device runs an operation. -/
theorem step_cases {l : Label} (hl : callsSucceed s l = true) (hstep : step cfg s l = some s') :
    (∃ u, s.exec.submitting = none ∧
      s'.exec.submitting = some ⟨s.exec.workSeqCounter + 1, u, 0⟩ ∧
      s'.exec.workSeqCounter = s.exec.workSeqCounter + 1 ∧
      s'.exec.signals = s.exec.signals ∧ s'.device = s.device) ∨
    (∃ p c, s.exec.submitting = some p ∧ (calls cfg)[p.made]? = some c ∧
      s'.exec.submitting = some { p with made := p.made + 1 } ∧
      s'.exec.workSeqCounter = s.exec.workSeqCounter ∧ s'.exec.signals = s.exec.signals ∧
      s'.device = s.device.perform cfg p.workSeq p.stream c) ∨
    (∃ p, s.exec.submitting = some p ∧ p.made = (calls cfg).length ∧
      s'.exec.submitting = none ∧ s'.exec.workSeqCounter = s.exec.workSeqCounter ∧
      s'.exec.signals = s.exec.signals ∧ s'.device = s.device) ∨
    (∃ ws, (∀ w ∈ ws, s.exec.Live w) ∧ s'.exec.submitting = s.exec.submitting ∧
      s'.exec.workSeqCounter = s.exec.workSeqCounter ∧
      s'.exec.signals = s.exec.signals ++ ws ∧
      s'.device = (ws.foldl (State.signal cfg) s).device) ∨
    (∃ st d, s.device.run cfg st = some d ∧ s' = { s with device := d }) := by
  have still (t : State) (hsub : t.exec.submitting = s.exec.submitting)
      (hc : t.exec.workSeqCounter = s.exec.workSeqCounter)
      (hs : t.exec.signals = s.exec.signals) (hd : t.device = s.device) :
      ∃ ws, (∀ w ∈ ws, s.exec.Live w) ∧ t.exec.submitting = s.exec.submitting ∧
        t.exec.workSeqCounter = s.exec.workSeqCounter ∧
        t.exec.signals = s.exec.signals ++ ws ∧
        t.device = (ws.foldl (State.signal cfg) s).device :=
    ⟨[], by simp, hsub, hc, by simp [hs], hd⟩
  have fails (fails : List ℕ) (phase : Phase)
      (hin : s.exec.phase.inside = true ∨ s.exec.currentWorkSeq = 0) :
      ∃ ws, (∀ w ∈ ws, s.exec.Live w) ∧
        (s.finishError cfg fails).exec.submitting = s.exec.submitting ∧
        (s.finishError cfg fails).exec.workSeqCounter = s.exec.workSeqCounter ∧
        (s.finishError cfg fails).exec.signals = s.exec.signals ++ ws ∧
        (s.finishError cfg fails).device = (ws.foldl (State.signal cfg) s).device := by
    refine ⟨s.exec.signalled fails, fun w => live_of_mem_signalled hin, ?_⟩
    rw [finishError_exec]
    exact ⟨rfl, rfl, rfl, rfl⟩
  cases l with
  | enter u =>
    obtain ⟨hc, hs⟩ := Option.ite_none_right_eq_some.1 hstep
    cases hs
    simp only [Bool.and_eq_true, Option.isNone_iff_eq_none] at hc
    exact .inl ⟨u, hc.1.1, rfl, rfl, rfl, rfl⟩
  | call =>
    obtain ⟨p, hp, hmap⟩ := Option.bind_eq_some_iff.1 hstep
    obtain ⟨c, hc, rfl⟩ := Option.map_eq_some_iff.1 hmap
    exact .inr (.inl ⟨p, c, hp, hc, rfl, rfl, rfl, rfl⟩)
  | callFails => cases hl
  | push =>
    obtain ⟨p, hp, hc⟩ := Option.bind_eq_some_iff.1 hstep
    obtain ⟨hmade, hs⟩ := Option.ite_none_right_eq_some.1 hc
    cases hs
    exact .inr (.inr (.inl ⟨p, hp, hmade, rfl, rfl, rfl, rfl⟩))
  | pop =>
    simp only [step] at hstep
    split at hstep
    · cases hstep
      exact .inr (.inr (.inr (.inl (still _ rfl rfl rfl rfl))))
    · cases hstep
  | ready | drained | giveUp | signalFails =>
    obtain ⟨-, hs⟩ := Option.ite_none_right_eq_some.1 hstep
    cases hs
    exact .inr (.inr (.inr (.inl (still _ rfl rfl rfl rfl))))
  | nodeFails f =>
    obtain ⟨hc, hs⟩ := Option.ite_none_right_eq_some.1 hstep
    cases hs
    have hin : s.exec.phase.inside = true := by rcases hc with hc | hc <;> rw [hc] <;> rfl
    exact .inr (.inr (.inr (.inl (fails f s.exec.phase (.inl hin)))))
  | signal =>
    obtain ⟨hc, hs⟩ := Option.ite_none_right_eq_some.1 hstep
    cases hs
    refine .inr (.inr (.inr (.inl ⟨[s.exec.currentWorkSeq], ?_, rfl, rfl, rfl, rfl⟩)))
    intro w hw
    exact .inl ⟨by rw [hc]; rfl, List.mem_singleton.1 hw⟩
  | finish f =>
    simp only [step] at hstep
    split at hstep
    · cases hstep
      exact .inr (.inr (.inr (.inl (still _ rfl rfl rfl rfl))))
    · rename_i hc
      cases hstep
      exact .inr (.inr (.inr (.inl (fails f .idle (.inl (by rw [hc]; rfl))))))
    · cases hstep
  | startFails f =>
    obtain ⟨hc, hs⟩ := Option.ite_none_right_eq_some.1 hstep
    cases hs
    exact .inr (.inr (.inr (.inl (fails f .left (.inr hc.2)))))
  | timeout =>
    cases hstep
    exact .inr (.inr (.inr (.inl (still _ rfl rfl rfl rfl))))
  | run st =>
    obtain ⟨d, hd, rfl⟩ := Option.map_eq_some_iff.1 hstep
    exact .inr (.inr (.inr (.inr ⟨st, d, hd, rfl⟩)))

/-- An operation that is run was first on its stream, and enabled. -/
theorem run_cases {st : Stream} (h : d.run cfg st = some d') :
    ∃ op rest, d.streams.serve st = some (op, rest) ∧ d.enabled cfg op = true ∧
      d' = ({ d with streams := rest } : Device).effect cfg op := by
  obtain ⟨⟨op, rest⟩, hserve, h⟩ := Option.bind_eq_some_iff.1 h
  obtain ⟨hen, hd⟩ := Option.ite_none_right_eq_some.1 h
  cases hd
  exact ⟨op, rest, hserve, hen, rfl⟩

/-- Signals are given one after the other. -/
theorem signals_rule {I : State → Prop} {ws : List ℕ} (h : I s)
    (hstep : ∀ t w, w ∈ ws → t.exec.submitting = s.exec.submitting →
      t.exec.workSeqCounter = s.exec.workSeqCounter → I t → I (t.signal cfg w)) :
    I (ws.foldl (State.signal cfg) s) := by
  have hall : ∀ (vs : List ℕ), (∀ w ∈ vs, w ∈ ws) → ∀ t : State,
      t.exec.submitting = s.exec.submitting → t.exec.workSeqCounter = s.exec.workSeqCounter →
      I t → I (vs.foldl (State.signal cfg) t) := by
    intro vs
    induction vs with
    | nil => intro _ t _ _ ht; exact ht
    | cons w vs ih =>
      intro hmem t hsub hc ht
      exact ih (fun v hv => hmem v (List.mem_cons_of_mem _ hv)) _ hsub hc
        (hstep t w (hmem w List.mem_cons_self) hsub hc ht)
  exact hall ws (fun w hw => hw) s rfl rfl h

@[simp] theorem setSlot_streams (w : ℕ) (f : Slot → Slot) :
    (d.setSlot cfg w f).streams = d.streams := rfl

@[simp] theorem effect_streams (op : Op) : (d.effect cfg op).streams = d.streams := by
  cases op <;> rfl

theorem setSlot_slots (w i : ℕ) (f : Slot → Slot) :
    (d.setSlot cfg w f).slots i = if i = cfg.slotOf w then f (d.slots i) else d.slots i := by
  unfold Device.setSlot
  by_cases h : i = cfg.slotOf w
  · subst h
    simp
  · simp [h]

/-- The device leaves the events of a slot and its completion word to the host. -/
theorem effect_slots (op : Op) (i : ℕ) :
    ((d.effect cfg op).slots i).resetEvent = (d.slots i).resetEvent ∧
      ((d.effect cfg op).slots i).waitDoneEvent = (d.slots i).waitDoneEvent ∧
      ((d.effect cfg op).slots i).completeSeq = (d.slots i).completeSeq := by
  cases op with
  | zero w | one w | writeReady w =>
    simp only [Device.effect, setSlot_slots]
    split <;> exact ⟨rfl, rfl, rfl⟩
  | _ => exact ⟨rfl, rfl, rfl⟩

theorem effect_devFlag (op : Op) (i : ℕ) :
    ((d.effect cfg op).slots i).devFlag =
      match op with
      | .zero w => if i = cfg.slotOf w then false else (d.slots i).devFlag
      | .one w => if i = cfg.slotOf w then true else (d.slots i).devFlag
      | _ => (d.slots i).devFlag := by
  cases op with
  | zero w | one w | writeReady w =>
    simp only [Device.effect, setSlot_slots]
    split <;> rfl
  | _ => rfl

/-! ## Stream memory operations -/

/-- The words of the slots and the works that wait for them. -/
structure Words (cfg : Config) (e : Executor) (d : Device) : Prop where
  pos : ∀ k w, .waitValue w ∈ d.streams.waiting k → 1 ≤ w
  complete : ∀ i, (d.slots i).completeSeq = 0 ∨
    (d.slots i).completeSeq ∈ e.signals ∧ cfg.slotOf (d.slots i).completeSeq = i
  held : ∀ w ∈ e.signals, w ≤ (d.slots (cfg.slotOf w)).completeSeq
  released : ∀ w, .waitValue w ∈ d.streams.ran → w ∈ e.signals

theorem Words.congr (h : Words cfg e d) (hs : e'.signals = e.signals) : Words cfg e' d := by
  refine ⟨h.pos, ?_, ?_, ?_⟩
  · rw [hs]
    exact h.complete
  · rw [hs]
    exact h.held
  · rw [hs]
    exact h.released

/-- A call puts at most a wait for a work that has a number on a stream. -/
theorem Words.perform (h : Words cfg e d) {w u : ℕ} (hw : 1 ≤ w) (c : Call) :
    Words cfg e (d.perform cfg w u c) := by
  have hslot (d' : Device) (f : Slot → Slot) (hf : ∀ x, (f x).completeSeq = x.completeSeq)
      (h : Words cfg e d') : Words cfg e (d'.setSlot cfg w f) := by
    have heq (i : ℕ) : ((d'.setSlot cfg w f).slots i).completeSeq = (d'.slots i).completeSeq := by
      rw [setSlot_slots]
      split
      · exact hf _
      · rfl
    refine ⟨h.pos, ?_, ?_, h.released⟩
    · intro i
      rw [heq]
      exact h.complete i
    · intro x hx
      rw [heq]
      exact h.held x hx
  have henq (d' : Device) (st : Stream) (op : Op) (hop : ∀ x, op = .waitValue x → 1 ≤ x)
      (h : Words cfg e d') : Words cfg e (d'.enqueue st op) := by
    refine ⟨?_, h.complete, h.held, h.released⟩
    intro k x hx
    rcases Fifo.mem_enqueue_waiting.1 hx with hx | ⟨-, hx⟩
    · exact h.pos k x hx
    · exact hop x hx.symm
  cases c with
  | waitDoneEvent | resetFlag | waitResetEvent | writeReady =>
    exact henq _ _ _ (fun x hx => by cases hx) h
  | clearReady => exact hslot d (fun slot => { slot with readySeq := 0 }) (fun _ => rfl) h
  | recordResetEvent =>
    exact hslot _ (fun slot => { slot with resetEvent := w }) (fun _ => rfl)
      (henq d .reset (.recordReset w) (fun x hx => by cases hx) h)
  | recordWaitDone =>
    exact hslot _ (fun slot => { slot with waitDoneEvent := w }) (fun _ => rfl)
      (henq d (.user u) (.recordDone w) (fun x hx => by cases hx) h)
  | waitValue =>
    refine henq _ _ _ (fun x hx => ?_) h
    cases hx
    exact hw
  | launchKernel =>
    exact henq _ (.user u) (.waitFlag w) (fun x hx => by cases hx)
      (henq d (.user u) (.writeReady w) (fun x hx => by cases hx) h)

/-- A work under way is the last of its slot. -/
theorem Words.signal (hmode : cfg.useStreamMemOps = true) (h : Words cfg s.exec s.device)
    (hbound : ∀ w ∈ s.exec.signals, w ≤ s.exec.workSeqCounter) {y : ℕ} (hy : 1 ≤ y)
    (hlast : s.exec.workSeqCounter < y + cfg.queueDepth) :
    Words cfg (s.signal cfg y).exec (s.signal cfg y).device := by
  have hd : (s.signal cfg y).device =
      s.device.setSlot cfg y fun slot => { slot with completeSeq := y } := by
    show s.device.signalComplete cfg y = _
    rw [Device.signalComplete, if_pos hmode]
  have hs : (s.signal cfg y).exec.signals = s.exec.signals ++ [y] := rfl
  rw [hd]
  refine ⟨h.pos, ?_, ?_, ?_⟩
  · intro i
    rw [setSlot_slots, hs]
    split
    · rename_i hi
      exact .inr ⟨by simp, hi.symm⟩
    · exact (h.complete i).imp_right fun hc => ⟨List.mem_append_left _ hc.1, hc.2⟩
  · intro w hw
    rw [setSlot_slots]
    rw [hs, List.mem_append, List.mem_singleton] at hw
    split
    · rename_i hi
      show w ≤ y
      rcases hw with hw | rfl
      · by_contra hlt
        have := Config.add_le_of_slotOf hy (by omega) hi.symm
        have := hbound w hw
        omega
      · exact le_refl w
    · rename_i hi
      rcases hw with hw | rfl
      · exact h.held w hw
      · exact absurd rfl hi
  · intro w hw
    rw [hs]
    exact List.mem_append_left _ (h.released w hw)

theorem Words.run (h : Words cfg e d) (ha : Admission cfg e) {st : Stream}
    (hrun : d.run cfg st = some d') : Words cfg e d' := by
  obtain ⟨op, rest, hserve, hen, rfl⟩ := run_cases hrun
  refine ⟨?_, ?_, ?_, ?_⟩
  · intro k w hw
    rw [effect_streams] at hw
    exact h.pos k w (Fifo.mem_waiting_of_serve hserve hw)
  · intro i
    rw [(effect_slots op i).2.2]
    exact h.complete i
  · intro w hw
    rw [(effect_slots op _).2.2]
    exact h.held w hw
  · intro w hw
    rw [effect_streams] at hw
    rcases (Fifo.mem_ran_serve hserve).1 hw with hw | rfl
    · exact h.released w hw
    · -- the word has reached the work, so a work of the slot from this one on was signalled
      have hpos := h.pos st w (Fifo.mem_waiting_serve hserve)
      have hle : w ≤ (d.slots (cfg.slotOf w)).completeSeq := of_decide_eq_true hen
      rcases h.complete (cfg.slotOf w) with h0 | ⟨hmem, hslot⟩
      · omega
      · rcases Nat.lt_or_eq_of_le hle with hlt | heq
        · have hadd := Config.add_le_of_slotOf hpos hlt hslot.symm
          have hone := ha.once w hpos (hadd.trans (ha.signals _ hmem).2)
          exact List.count_pos_iff.1 (by omega)
        · exact heq ▸ hmem

theorem Words.step (hmode : cfg.useStreamMemOps = true) {l : Label}
    (h : Words cfg s.exec s.device) (ha : Admission cfg s.exec) (hl : callsSucceed s l = true)
    (hstep : step cfg s l = some s') : Words cfg s'.exec s'.device := by
  rcases step_cases hl hstep with ⟨u, -, -, -, hs, hd⟩ | ⟨p, c, hp, -, -, -, hs, hd⟩ |
    ⟨p, -, -, -, -, hs, hd⟩ | ⟨ws, hws, -, -, hs, hd⟩ | ⟨st, d, hd, rfl⟩
  · rw [hd]
    exact h.congr hs
  · rw [hd]
    exact (h.perform (ha.live _ (.inr (.inr ⟨p, hp, rfl⟩))).1 c).congr hs
  · rw [hd]
    exact h.congr hs
  · have hall := @signals_rule cfg s
      (fun t => Words cfg t.exec t.device ∧ ∀ w ∈ t.exec.signals, w ≤ s.exec.workSeqCounter) ws
      ⟨h, fun w hw => (ha.signals w hw).2⟩ fun t w hw _ hc ht => by
        have hlive := ha.live w (hws w hw)
        refine ⟨Words.signal hmode ht.1 (fun x hx => hc ▸ ht.2 x hx) hlive.1 (hc ▸ hlive.2.2), ?_⟩
        intro x hx
        rcases List.mem_append.1 hx with hx | hx
        · exact ht.2 x hx
        · exact List.mem_singleton.1 hx ▸ hlive.2.1
    rw [hd]
    refine hall.1.congr ?_
    rw [hs, foldl_signal_exec]
  · exact h.run ha hd

/-! ## Kernels -/

/-- What an operation needs in front of it on its stream. -/
def needs (cfg : Config) : Op → Op → Prop
  | .zero w, .waitDone t => t = w - cfg.queueDepth
  | .recordReset w, .zero w' => w' = w
  | .waitFlag w, .waitReset w' => w' = w
  | .recordDone w, .waitFlag w' => w' = w
  | .one y, .one x => 1 ≤ x ∧ x < y ∧ cfg.slotOf x = cfg.slotOf y
  | _, _ => False

/-- What a submission has put on the streams. -/
structure Prepared (cfg : Config) (d : Device) (p : Submission) : Prop where
  waitDone : 1 ≤ p.made → d.streams.Issued .reset (.waitDone (p.workSeq - cfg.queueDepth))
  zero : 3 ≤ p.made → d.streams.Issued .reset (.zero p.workSeq)
  resetEvent : 4 ≤ p.made → (d.slots (cfg.slotOf p.workSeq)).resetEvent = p.workSeq
  waitReset : 5 ≤ p.made → d.streams.Issued (.user p.stream) (.waitReset p.workSeq)
  waitFlag : 6 ≤ p.made → d.streams.Issued (.user p.stream) (.waitFlag p.workSeq)

/-- The last work whose preparation is complete. -/
def Executor.prepared (e : Executor) : ℕ :=
  match e.submitting with
  | some p => if p.made < 7 then e.workSeqCounter - 1 else e.workSeqCounter
  | none => e.workSeqCounter

/-- The streams and the flags. -/
structure Wires (cfg : Config) (e : Executor) (d : Device) : Prop where
  ordered : d.streams.Ordered (needs cfg)
  done : ∀ t, .waitDone t ∈ d.streams.ran → t = 0 ∨ .recordDone t ∈ d.streams.ran
  reset : ∀ t, .waitReset t ∈ d.streams.ran → t = 0 ∨ .recordReset t ∈ d.streams.ran
  zeroed : ∀ k w, d.streams.Issued k (.zero w) → 1 ≤ w ∧ w ≤ e.workSeqCounter
  flagged : ∀ k w, d.streams.Issued k (.waitFlag w) → 1 ≤ w
  home : ∀ k w, .one w ∈ d.streams.waiting k → k = .signal
  copies : ∀ w, d.streams.ran.count (.one w) + (d.streams.waiting .signal).count (.one w) =
    e.signals.count w
  /-- When the flag is reset for a work, the signals of the earlier works have been copied. -/
  settled : ∀ x w, .zero w ∈ d.streams.ran → 1 ≤ x → x < w → cfg.slotOf x = cfg.slotOf w →
    .one x ∉ d.streams.waiting .signal
  flag : ∀ w, .zero w ∈ d.streams.ran → (d.slots (cfg.slotOf w)).devFlag = true →
    .one w ∈ d.streams.ran
  own : ∀ w, .waitFlag w ∈ d.streams.ran → .one w ∈ d.streams.ran
  prepared : ∀ p, e.submitting = some p → Prepared cfg d p
  event : ∀ w, e.prepared < w → w ≤ e.prepared + cfg.queueDepth →
    (d.slots (cfg.slotOf w)).waitDoneEvent = w - cfg.queueDepth

theorem Wires.initial : Wires cfg .initial .initial where
  ordered := Fifo.Ordered.start
  done := by simp [Device.initial]
  reset := by simp [Device.initial]
  zeroed := by simp [Device.initial, Fifo.Issued]
  flagged := by simp [Device.initial, Fifo.Issued]
  home := by simp [Device.initial]
  copies := by simp [Device.initial, Executor.initial]
  settled := by simp [Device.initial]
  flag := by simp [Device.initial]
  own := by simp [Device.initial]
  prepared := by simp [Executor.initial]
  event := by
    intro w _ hw
    have hw : w ≤ 0 + cfg.queueDepth := hw
    show 0 = w - cfg.queueDepth
    omega

/-- A wait kernel that has ended was started after the flag was reset for its work. -/
theorem Wires.zero_of_waitFlag (h : Wires cfg e d) {w : ℕ}
    (hreset : .waitReset w ∈ d.streams.ran) (hw : 1 ≤ w) : .zero w ∈ d.streams.ran := by
  have hrec := (h.reset w hreset).resolve_left (by omega)
  exact h.ordered.ran _ hrec (.zero w) rfl

/-- The flag is reset for a work after the wait of the work before it on the slot. -/
theorem Wires.waitFlag_of_zero (h : Wires cfg e d) {w : ℕ} (hw : cfg.queueDepth < w)
    (hzero : .waitDone (w - cfg.queueDepth) ∈ d.streams.ran) :
    .waitFlag (w - cfg.queueDepth) ∈ d.streams.ran := by
  have hrec := (h.done _ hzero).resolve_left (by omega)
  exact h.ordered.ran _ hrec (.waitFlag _) rfl

/-- **The flag is reset for a work after the waits of all earlier works** of the slot; the
induction goes from a work to the one before it on the slot. -/
theorem Wires.undisturbed (h : Wires cfg e d) (w : ℕ) :
    ∀ x, .waitDone (w - cfg.queueDepth) ∈ d.streams.ran → 1 ≤ x → x < w →
      cfg.slotOf x = cfg.slotOf w → .waitFlag x ∈ d.streams.ran := by
  induction w using Nat.strong_induction_on with
  | _ w ih =>
    intro x hdone hx hxw hslot
    have hle := Config.add_le_of_slotOf hx hxw hslot
    have hpos := cfg.pos
    have hprev := h.waitFlag_of_zero (by omega) hdone
    rcases Nat.lt_or_eq_of_le (Nat.le_sub_of_add_le hle) with hlt | rfl
    · have hreset := h.ordered.ran _ hprev (.waitReset _) rfl
      have hzero := h.zero_of_waitFlag hreset (by omega)
      have hbefore := h.ordered.ran _ hzero (.waitDone _) rfl
      refine ih (w - cfg.queueDepth) (by omega) x hbefore hx hlt ?_
      rw [hslot, ← @Config.slotOf_add cfg (w - cfg.queueDepth) (by omega)]
      congr 1
      omega
    · exact hprev

/-- What changes neither the streams nor a flag. -/
theorem Wires.change (h : Wires cfg e d) (hstreams : d'.streams = d.streams)
    (hflag : ∀ i, (d'.slots i).devFlag = (d.slots i).devFlag)
    (hc : e.workSeqCounter ≤ e'.workSeqCounter) (hs : e'.signals = e.signals)
    (hprep : ∀ p, e'.submitting = some p → Prepared cfg d' p)
    (hevent : ∀ w, e'.prepared < w → w ≤ e'.prepared + cfg.queueDepth →
      (d'.slots (cfg.slotOf w)).waitDoneEvent = w - cfg.queueDepth) : Wires cfg e' d' := by
  refine ⟨?_, ?_, ?_, ?_, ?_, ?_, ?_, ?_, ?_, ?_, hprep, hevent⟩
  all_goals rw [hstreams]
  · exact h.ordered
  · exact h.done
  · exact h.reset
  · intro k w hw
    exact ⟨(h.zeroed k w hw).1, (h.zeroed k w hw).2.trans hc⟩
  · exact h.flagged
  · exact h.home
  · rw [hs]
    exact h.copies
  · exact h.settled
  · intro w hw
    rw [hflag]
    exact h.flag w hw
  · exact h.own

theorem Wires.congr (h : Wires cfg e d) (hc : e'.workSeqCounter = e.workSeqCounter)
    (hsub : e'.submitting = e.submitting) (hs : e'.signals = e.signals) : Wires cfg e' d := by
  refine h.change rfl (fun _ => rfl) hc.ge hs ?_ ?_
  · rw [hsub]
    exact h.prepared
  · unfold Executor.prepared
    rw [hsub, hc]
    exact h.event

/-- An operation of the submission's calls is put on its stream. -/
theorem Wires.enqueue (h : Wires cfg e d) {st : Stream} {op : Op}
    (hneeds : ∀ p, needs cfg op p → d.streams.Issued st p)
    (hzero : ∀ w, op = .zero w → 1 ≤ w ∧ w ≤ e.workSeqCounter)
    (hflag : ∀ w, op = .waitFlag w → 1 ≤ w) (hone : ∀ w, op ≠ .one w) :
    Wires cfg e (d.enqueue st op) := by
  have hwaiting (k w) (hw : .one w ∈ (d.streams.enqueue st op).waiting k) :
      .one w ∈ d.streams.waiting k := by
    rcases Fifo.mem_enqueue_waiting.1 hw with hw | ⟨-, hw⟩
    · exact hw
    · exact absurd hw.symm (hone w)
  have hissued (k : Stream) (x : Op) (hx : (d.streams.enqueue st op).Issued k x) :
      d.streams.Issued k x ∨ op = x := by
    rcases hx with hx | hx
    · exact .inl (.inl hx)
    · rcases Fifo.mem_enqueue_waiting.1 hx with hx | ⟨-, hx⟩
      · exact .inl (.inr hx)
      · exact .inr hx.symm
  refine ⟨h.ordered.enqueue hneeds, h.done, h.reset, ?_, ?_, ?_, ?_, ?_, h.flag, h.own, ?_,
    h.event⟩
  · intro k w hw
    exact (hissued k _ hw).elim (h.zeroed k w) (hzero w)
  · intro k w hw
    exact (hissued k _ hw).elim (h.flagged k w) (hflag w)
  · intro k w hw
    exact h.home k w (hwaiting k w hw)
  · intro w
    rw [← h.copies w]
    show List.count _ d.streams.ran + List.count _ ((d.streams.enqueue st op).waiting .signal) = _
    by_cases hst : Stream.signal = st
    · subst hst
      rw [Fifo.enqueue_waiting_self, List.count_append, List.count_singleton]
      simp [hone w]
    · rw [Fifo.enqueue_waiting_ne hst]
  · intro x w hw hx hxw hslot hmem
    exact h.settled x w hw hx hxw hslot (hwaiting _ _ hmem)
  · intro p hp
    have hprep := h.prepared p hp
    exact ⟨fun hm => (hprep.waitDone hm).enqueue, fun hm => (hprep.zero hm).enqueue,
      hprep.resetEvent, fun hm => (hprep.waitReset hm).enqueue,
      fun hm => (hprep.waitFlag hm).enqueue⟩

/-! ## A submission -/

/-- The calls of `prepareUserWait` in kernel-wait mode. -/
theorem calls_cases (hmode : cfg.useStreamMemOps = false) {n : ℕ} {c : Call}
    (hc : (calls cfg)[n]? = some c) :
    n = 0 ∧ c = .waitDoneEvent ∨ n = 1 ∧ c = .clearReady ∨ n = 2 ∧ c = .resetFlag ∨
      n = 3 ∧ c = .recordResetEvent ∨ n = 4 ∧ c = .waitResetEvent ∨ n = 5 ∧ c = .launchKernel ∨
      n = 6 ∧ c = .recordWaitDone := by
  unfold calls at hc
  rw [if_neg (by simp [hmode])] at hc
  match n, hc with
  | 0, hc | 1, hc | 2, hc | 3, hc | 4, hc | 5, hc | 6, hc =>
    cases hc
    decide
  | n + 7, hc => cases hc

theorem perform_clearReady (w u : ℕ) : d.perform cfg w u .clearReady =
    d.setSlot cfg w fun slot => { slot with readySeq := 0 } := rfl

theorem perform_recordResetEvent (w u : ℕ) : d.perform cfg w u .recordResetEvent =
    (d.enqueue .reset (.recordReset w)).setSlot cfg w fun slot => { slot with resetEvent := w } :=
  rfl

theorem perform_recordWaitDone (w u : ℕ) : d.perform cfg w u .recordWaitDone =
    (d.enqueue (.user u) (.recordDone w)).setSlot cfg w
      fun slot => { slot with waitDoneEvent := w } := rfl

/-- One more call is made. -/
theorem Prepared.next {p : Submission} (h : Prepared cfg d p) (hstreams : d'.streams = d.streams)
    (hwaitDone : p.made = 0 → d'.streams.Issued .reset (.waitDone (p.workSeq - cfg.queueDepth)))
    (hzero : p.made = 2 → d'.streams.Issued .reset (.zero p.workSeq))
    (hevent : 3 ≤ p.made → (d'.slots (cfg.slotOf p.workSeq)).resetEvent = p.workSeq)
    (hwaitReset : p.made = 4 → d'.streams.Issued (.user p.stream) (.waitReset p.workSeq))
    (hwaitFlag : p.made = 5 → d'.streams.Issued (.user p.stream) (.waitFlag p.workSeq)) :
    Prepared cfg d' { p with made := p.made + 1 } := by
  refine ⟨?_, ?_, ?_, ?_, ?_⟩
  · intro _
    rcases Nat.eq_zero_or_pos p.made with h0 | hpos
    · exact hwaitDone h0
    · exact hstreams ▸ h.waitDone hpos
  · intro hm
    change 3 ≤ p.made + 1 at hm
    rcases Nat.eq_or_lt_of_le (Nat.le_of_succ_le_succ hm) with h2 | hlt
    · exact hzero h2.symm
    · exact hstreams ▸ h.zero hlt
  · intro hm
    exact hevent (Nat.le_of_succ_le_succ hm)
  · intro hm
    change 5 ≤ p.made + 1 at hm
    rcases Nat.eq_or_lt_of_le (Nat.le_of_succ_le_succ hm) with h4 | hlt
    · exact hwaitReset h4.symm
    · exact hstreams ▸ h.waitReset hlt
  · intro hm
    change 6 ≤ p.made + 1 at hm
    rcases Nat.eq_or_lt_of_le (Nat.le_of_succ_le_succ hm) with h5 | hlt
    · exact hwaitFlag h5.symm
    · exact hstreams ▸ h.waitFlag hlt

theorem Executor.prepared_of_lt {p : Submission} (hp : e.submitting = some p) (hm : p.made < 7) :
    e.prepared = e.workSeqCounter - 1 := by
  unfold Executor.prepared
  rw [hp]
  exact if_pos hm

/-- **A call** of a submission. -/
theorem Wires.call (hmode : cfg.useStreamMemOps = false) (h : Wires cfg e d)
    (ha : Admission cfg e) {p : Submission} {c : Call} (hp : e.submitting = some p)
    (hc : (calls cfg)[p.made]? = some c)
    (hsub : e'.submitting = some { p with made := p.made + 1 })
    (hcount : e'.workSeqCounter = e.workSeqCounter) (hs : e'.signals = e.signals) :
    Wires cfg e' (d.perform cfg p.workSeq p.stream c) := by
  have hseq := ha.submitting p hp
  have hpos := (ha.live p.workSeq (.inr (.inr ⟨p, hp, rfl⟩))).1
  have hprep := h.prepared p hp
  have hQ := cfg.pos
  -- all calls but the last leave the last prepared work as it is
  have advance (d1 d2 : Device) (hm : p.made < 6) (h1 : Wires cfg e d1)
      (hstreams : d2.streams = d1.streams)
      (hslots : ∀ i, (d2.slots i).devFlag = (d1.slots i).devFlag ∧
        (d2.slots i).waitDoneEvent = (d1.slots i).waitDoneEvent)
      (hnext : Prepared cfg d2 { p with made := p.made + 1 }) : Wires cfg e' d2 := by
    refine h1.change hstreams (fun i => (hslots i).1) hcount.ge hs ?_ ?_
    · intro q hq
      cases hsub.symm.trans hq
      exact hnext
    · intro w hw hle
      rw [(hslots _).2]
      refine h1.event w ?_ ?_
      all_goals rw [Executor.prepared_of_lt hp (by omega)]
      all_goals
        rw [Executor.prepared_of_lt hsub (by show p.made + 1 < 7; omega), hcount] at hw hle
      · exact hw
      · exact hle
  have hsame (w : ℕ) (f : Slot → Slot) (hf : ∀ x, (f x).devFlag = x.devFlag ∧
      (f x).waitDoneEvent = x.waitDoneEvent) (d1 : Device) (i : ℕ) :
      ((d1.setSlot cfg w f).slots i).devFlag = (d1.slots i).devFlag ∧
        ((d1.setSlot cfg w f).slots i).waitDoneEvent = (d1.slots i).waitDoneEvent := by
    rw [setSlot_slots]
    split
    · exact hf _
    · exact ⟨rfl, rfl⟩
  rcases calls_cases hmode hc with ⟨hm, rfl⟩ | ⟨hm, rfl⟩ | ⟨hm, rfl⟩ | ⟨hm, rfl⟩ | ⟨hm, rfl⟩ |
    ⟨hm, rfl⟩ | ⟨hm, rfl⟩
  · -- the event was recorded by the work before it on the slot
    have htoken : (d.slots (cfg.slotOf p.workSeq)).waitDoneEvent = p.workSeq - cfg.queueDepth := by
      refine h.event p.workSeq ?_ ?_ <;> rw [Executor.prepared_of_lt hp (by omega)] <;> omega
    have h1 : Wires cfg e (d.perform cfg p.workSeq p.stream .waitDoneEvent) :=
      h.enqueue (fun _ hn => nomatch hn) (fun _ hop => nomatch hop) (fun _ hop => nomatch hop)
        fun _ hop => nomatch hop
    refine advance _ _ (by omega) h1 rfl (fun _ => ⟨rfl, rfl⟩)
      ((h1.prepared p hp).next rfl ?_ ?_ ?_ ?_ ?_)
    · intro _
      rw [← htoken]
      exact Fifo.issued_enqueue
    all_goals omega
  · rw [perform_clearReady]
    refine advance d _ (by omega) h rfl (hsame _ _ ?_ d) (hprep.next rfl ?_ ?_ ?_ ?_ ?_)
    · exact fun _ => ⟨rfl, rfl⟩
    all_goals omega
  · have h1 : Wires cfg e (d.perform cfg p.workSeq p.stream .resetFlag) := by
      refine h.enqueue ?_ ?_ (fun _ hop => nomatch hop) fun _ hop => nomatch hop
      · intro q hq
        cases q with
        | waitDone t =>
          obtain rfl : t = p.workSeq - cfg.queueDepth := hq
          exact hprep.waitDone (by omega)
        | _ => cases hq
      · intro w hop
        cases hop
        exact ⟨hpos, hseq.le⟩
    refine advance _ _ (by omega) h1 rfl (fun _ => ⟨rfl, rfl⟩)
      ((h1.prepared p hp).next rfl ?_ ?_ ?_ ?_ ?_)
    · omega
    · intro _
      exact Fifo.issued_enqueue
    all_goals omega
  · have h1 : Wires cfg e (d.enqueue .reset (.recordReset p.workSeq)) := by
      refine h.enqueue ?_ (fun _ hop => nomatch hop) (fun _ hop => nomatch hop)
        fun _ hop => nomatch hop
      intro q hq
      cases q with
      | zero w =>
        obtain rfl : w = p.workSeq := hq
        exact hprep.zero (by omega)
      | _ => cases hq
    rw [perform_recordResetEvent]
    refine advance _ _ (by omega) h1 rfl (hsame _ _ ?_ _)
      ((h1.prepared p hp).next rfl ?_ ?_ ?_ ?_ ?_)
    · exact fun _ => ⟨rfl, rfl⟩
    · omega
    · omega
    · intro _
      rw [setSlot_slots, if_pos rfl]
    all_goals omega
  · have hevent := hprep.resetEvent (by omega)
    have h1 : Wires cfg e (d.perform cfg p.workSeq p.stream .waitResetEvent) :=
      h.enqueue (fun _ hn => nomatch hn) (fun _ hop => nomatch hop) (fun _ hop => nomatch hop)
        fun _ hop => nomatch hop
    refine advance _ _ (by omega) h1 rfl (fun _ => ⟨rfl, rfl⟩)
      ((h1.prepared p hp).next rfl ?_ ?_ ?_ ?_ ?_)
    · omega
    · omega
    · intro _
      exact hevent
    · intro _
      show Fifo.Issued (Fifo.enqueue _ _ (Op.waitReset (d.slots _).resetEvent)) _ _
      rw [hevent]
      exact Fifo.issued_enqueue
    · omega
  · have hevent := hprep.resetEvent (by omega)
    have h0 : Wires cfg e (d.enqueue (.user p.stream) (.writeReady p.workSeq)) :=
      h.enqueue (fun _ hn => nomatch hn) (fun _ hop => nomatch hop) (fun _ hop => nomatch hop)
        fun _ hop => nomatch hop
    have h1 : Wires cfg e (d.perform cfg p.workSeq p.stream .launchKernel) := by
      refine h0.enqueue ?_ (fun _ hop => nomatch hop) ?_ fun _ hop => nomatch hop
      · intro q hq
        cases q with
        | waitReset w =>
          obtain rfl : w = p.workSeq := hq
          exact (h0.prepared p hp).waitReset (by omega)
        | _ => cases hq
      · intro w hop
        cases hop
        exact hpos
    refine advance _ _ (by omega) h1 rfl (fun _ => ⟨rfl, rfl⟩)
      ((h1.prepared p hp).next rfl ?_ ?_ ?_ ?_ ?_)
    · omega
    · omega
    · intro _
      exact hevent
    · omega
    · intro _
      exact Fifo.issued_enqueue
  · -- the last call: the work is prepared, and the event is its own
    have h1 : Wires cfg e (d.enqueue (.user p.stream) (.recordDone p.workSeq)) := by
      refine h.enqueue ?_ (fun _ hop => nomatch hop) (fun _ hop => nomatch hop)
        fun _ hop => nomatch hop
      intro q hq
      cases q with
      | waitFlag w =>
        obtain rfl : w = p.workSeq := hq
        exact hprep.waitFlag (by omega)
      | _ => cases hq
    rw [perform_recordWaitDone]
    refine h1.change rfl ?_ hcount.ge hs ?_ ?_
    · intro i
      rw [setSlot_slots]
      split <;> rfl
    · intro q hq
      cases hsub.symm.trans hq
      refine (h1.prepared p hp).next rfl ?_ ?_ ?_ ?_ ?_
      · omega
      · omega
      · intro _
        rw [setSlot_slots, if_pos rfl]
        exact hprep.resetEvent (by omega)
      all_goals omega
    · have hnew : e'.prepared = e.workSeqCounter := by
        unfold Executor.prepared
        rw [hsub, hcount]
        exact if_neg (by show ¬p.made + 1 < 7; omega)
      intro w hw hle
      rw [hnew] at hw hle
      rw [setSlot_slots]
      split
      · rename_i hslot
        show p.workSeq = w - cfg.queueDepth
        have := Config.add_le_of_slotOf hpos (by omega) hslot.symm
        omega
      · rename_i hslot
        refine h.event w ?_ ?_ <;> rw [Executor.prepared_of_lt hp (by omega)]
        · omega
        · rcases Nat.lt_or_eq_of_le hle with hlt | heq
          · omega
          · refine absurd ?_ hslot
            rw [heq, ← hseq]
            exact Config.slotOf_add hpos

/-! ## A signal, and the device -/

/-- **A work under way is signalled**: the works before it on its slot were signalled before, and
the flag is not yet reset for a work after it. -/
theorem Wires.signal (hmode : cfg.useStreamMemOps = false) (h : Wires cfg s.exec s.device)
    (honce : ∀ x, 1 ≤ x → x + cfg.queueDepth ≤ s.exec.workSeqCounter → x ∈ s.exec.signals)
    {y : ℕ} (hle : y ≤ s.exec.workSeqCounter)
    (hlast : s.exec.workSeqCounter < y + cfg.queueDepth) :
    Wires cfg (s.signal cfg y).exec (s.signal cfg y).device := by
  have hd : (s.signal cfg y).device = s.device.enqueue .signal (.one y) := by
    show s.device.signalComplete cfg y = _
    rw [Device.signalComplete, if_neg (by simp [hmode])]
  rw [hd]
  have hissued (k : Stream) (x : Op) (hne : x ≠ .one y)
      (hx : (s.device.streams.enqueue .signal (.one y)).Issued k x) :
      s.device.streams.Issued k x := by
    refine hx.imp_right fun hx => ?_
    exact (Fifo.mem_enqueue_waiting.1 hx).resolve_right fun hx => hne hx.2
  refine ⟨h.ordered.enqueue ?_, h.done, h.reset, ?_, ?_, ?_, ?_, ?_, h.flag, h.own, ?_, h.event⟩
  · intro q hq
    cases q with
    | one x =>
      obtain ⟨hx, hxy, hslot⟩ := hq
      have hmem := honce x hx ((Config.add_le_of_slotOf hx hxy hslot).trans hle)
      have hcount := List.count_pos_iff.2 hmem
      rw [← h.copies x, Nat.add_pos_iff_pos_or_pos] at hcount
      exact hcount.imp List.count_pos_iff.1 List.count_pos_iff.1
    | _ => cases hq
  · intro k w hw
    exact h.zeroed k w (hissued k _ (fun h => by cases h) hw)
  · intro k w hw
    exact h.flagged k w (hissued k _ (fun h => by cases h) hw)
  · intro k w hw
    rcases Fifo.mem_enqueue_waiting.1 hw with hw | ⟨hk, -⟩
    · exact h.home k w hw
    · exact hk
  · intro w
    show List.count _ s.device.streams.ran +
      List.count _ ((s.device.streams.enqueue .signal (.one y)).waiting .signal) =
      List.count _ (s.exec.signals ++ [y])
    rw [Fifo.enqueue_waiting_self, List.count_append, List.count_append, ← h.copies w,
      List.count_singleton, List.count_singleton]
    simp only [beq_iff_eq, Op.one.injEq]
    omega
  · intro x w hw hx hxw hslot hmem
    rcases Fifo.mem_enqueue_waiting.1 hmem with hmem | ⟨-, hxy⟩
    · exact h.settled x w hw hx hxw hslot hmem
    · cases hxy
      have := Config.add_le_of_slotOf hx hxw hslot
      have := (h.zeroed .reset w (.inl hw)).2
      omega
  · intro p hp
    have hprep := h.prepared p hp
    exact ⟨fun hm => (hprep.waitDone hm).enqueue, fun hm => (hprep.zero hm).enqueue,
      hprep.resetEvent, fun hm => (hprep.waitReset hm).enqueue,
      fun hm => (hprep.waitFlag hm).enqueue⟩

/-- **The device runs an operation.** -/
theorem Wires.run (h : Wires cfg e d) (ha : Admission cfg e) {st : Stream}
    (hrun : d.run cfg st = some d') : Wires cfg e d' := by
  obtain ⟨op, rest, hserve, hen, rfl⟩ := run_cases hrun
  have hran {x : Op} : x ∈ rest.ran ↔ x ∈ d.streams.ran ∨ x = op := Fifo.mem_ran_serve hserve
  have hold {x : Op} (hx : x ∈ d.streams.ran) : x ∈ rest.ran := hran.2 (.inl hx)
  have hwaiting {x : Op} {k : Stream} (hx : x ∈ rest.waiting k) : x ∈ d.streams.waiting k :=
    Fifo.mem_waiting_of_serve hserve hx
  have hissued {x : Op} {k : Stream} (hx : rest.Issued k x) : ∃ k, d.streams.Issued k x := by
    rcases hx with hx | hx
    · rcases hran.1 hx with hx | rfl
      · exact ⟨k, .inl hx⟩
      · exact ⟨st, .inr (Fifo.mem_waiting_serve hserve)⟩
    · exact ⟨k, .inr (hwaiting hx)⟩
  have hneeds {p : Op} (hp : needs cfg op p) : p ∈ d.streams.ran := h.ordered.served hserve hp
  have hcopies (w : ℕ) : rest.ran.count (.one w) + (rest.waiting .signal).count (.one w) =
      e.signals.count w := by
    rw [← h.copies w]
    refine Fifo.count_serve hserve fun hop => ?_
    exact (h.home st w (hop ▸ Fifo.mem_waiting_serve hserve)).symm
  -- the waits of the works before one whose flag is reset are over, and so are their signals
  have hsettled (x w : ℕ) (hw : .zero w ∈ rest.ran) (hx : 1 ≤ x) (hxw : x < w)
      (hslot : cfg.slotOf x = cfg.slotOf w) : .one x ∉ rest.waiting .signal := by
    rcases hran.1 hw with hw | rfl
    · exact fun hmem => h.settled x w hw hx hxw hslot (hwaiting hmem)
    · have hover := h.undisturbed w x (hneeds rfl) hx hxw hslot
      have hcopied := List.count_pos_iff.2 (hold (h.own x hover))
      have hle := (h.zeroed st w (.inr (Fifo.mem_waiting_serve hserve))).2
      have hone := ha.once x hx ((Config.add_le_of_slotOf hx hxw hslot).trans hle)
      have := hcopies x
      exact List.count_eq_zero.1 (by omega)
  have hst : (({ d with streams := rest } : Device).effect cfg op).streams = rest :=
    effect_streams op
  refine ⟨?_, ?_, ?_, ?_, ?_, ?_, ?_, ?_, ?_, ?_, ?_, ?_⟩
  · rw [hst]
    exact h.ordered.serve hserve
  · rw [hst]
    intro t ht
    rcases hran.1 ht with ht | rfl
    · exact (h.done t ht).imp_right hold
    · simp only [Device.enabled, Bool.or_eq_true, beq_iff_eq, List.contains_iff_mem] at hen
      exact hen.imp_right hold
  · rw [hst]
    intro t ht
    rcases hran.1 ht with ht | rfl
    · exact (h.reset t ht).imp_right hold
    · simp only [Device.enabled, Bool.or_eq_true, beq_iff_eq, List.contains_iff_mem] at hen
      exact hen.imp_right hold
  · rw [hst]
    intro k w hw
    obtain ⟨k', hw⟩ := hissued hw
    exact h.zeroed k' w hw
  · rw [hst]
    intro k w hw
    obtain ⟨k', hw⟩ := hissued hw
    exact h.flagged k' w hw
  · rw [hst]
    intro k w hw
    exact h.home k w (hwaiting hw)
  · rw [hst]
    exact hcopies
  · rw [hst]
    exact hsettled
  · rw [hst]
    intro w hw hflag
    rw [effect_devFlag] at hflag
    cases op with
    | zero y =>
      simp only at hflag
      split at hflag
      · cases hflag
      · rename_i hslot
        rcases hran.1 hw with hw | hw
        · exact hold (h.flag w hw hflag)
        · cases hw
          exact absurd rfl hslot
    | one y =>
      have hw' : .zero w ∈ d.streams.ran := (hran.1 hw).resolve_right fun h => by cases h
      simp only at hflag
      split at hflag
      · rename_i hslot
        have hy : 1 ≤ y := by
          have hhome := h.home st y (Fifo.mem_waiting_serve hserve)
          have hpos := List.count_pos_iff.2 (Fifo.mem_waiting_serve hserve)
          rw [hhome] at hpos
          have hsig := h.copies y
          exact (ha.signals y (List.count_pos_iff.1 (by omega))).1
        rcases Nat.lt_trichotomy w y with hlt | rfl | hgt
        · exact hold (hneeds ⟨(h.zeroed .reset w (.inl hw')).1, hlt, hslot⟩)
        · exact hran.2 (.inr rfl)
        · have hmem := Fifo.mem_waiting_serve hserve
          rw [h.home st y hmem] at hmem
          exact absurd hmem (h.settled y w hw' hy hgt hslot.symm)
      · exact hold (h.flag w hw' hflag)
    | _ =>
      have hw' : .zero w ∈ d.streams.ran := (hran.1 hw).resolve_right fun h => by cases h
      exact hold (h.flag w hw' hflag)
  · rw [hst]
    intro w hw
    rcases hran.1 hw with hw | rfl
    · exact hold (h.own w hw)
    · have hpos := h.flagged st w (.inr (Fifo.mem_waiting_serve hserve))
      exact hold (h.flag w (h.zero_of_waitFlag (hneeds rfl) hpos) hen)
  · intro p hp
    have hprep := h.prepared p hp
    refine ⟨?_, ?_, ?_, ?_, ?_⟩
    · rw [hst]
      exact fun hm => (hprep.waitDone hm).serve hserve
    · rw [hst]
      exact fun hm => (hprep.zero hm).serve hserve
    · rw [(effect_slots op _).1]
      exact hprep.resetEvent
    · rw [hst]
      exact fun hm => (hprep.waitReset hm).serve hserve
    · rw [hst]
      exact fun hm => (hprep.waitFlag hm).serve hserve
  · intro w hw hle
    rw [(effect_slots op _).2.1]
    exact h.event w hw hle

theorem Wires.step (hmode : cfg.useStreamMemOps = false) {l : Label}
    (h : Wires cfg s.exec s.device) (ha : Admission cfg s.exec) (hl : callsSucceed s l = true)
    (hstep : step cfg s l = some s') : Wires cfg s'.exec s'.device := by
  rcases step_cases hl hstep with ⟨u, hp, hsub, hc, hs, hd⟩ | ⟨p, c, hp, hcall, hsub, hc, hs, hd⟩ |
    ⟨p, hp, hmade, hsub, hc, hs, hd⟩ | ⟨ws, hws, hsub, hc, hs, hd⟩ | ⟨st, d, hd, rfl⟩
  · rw [hd]
    have hprepared : s'.exec.prepared = s.exec.prepared := by
      rw [Executor.prepared_of_lt hsub (Nat.zero_lt_succ 6), hc]
      unfold Executor.prepared
      rw [hp]
      rfl
    refine h.change rfl (fun _ => rfl) (by omega) hs ?_ ?_
    · intro p hp
      cases hsub.symm.trans hp
      exact ⟨nofun, nofun, nofun, nofun, nofun⟩
    · rw [hprepared]
      exact h.event
  · rw [hd]
    exact h.call hmode ha hp hcall hsub hc hs
  · rw [hd]
    have hseven : p.made = 7 := by
      rw [hmade, calls, if_neg (by simp [hmode])]
      rfl
    have hprepared : s'.exec.prepared = s.exec.prepared := by
      unfold Executor.prepared
      rw [hsub, hp, hc]
      simp [hseven]
    refine h.change rfl (fun _ => rfl) hc.ge hs ?_ ?_
    · intro q hq
      cases hsub.symm.trans hq
    · rw [hprepared]
      exact h.event
  · have hall := @signals_rule cfg s
      (fun t => Wires cfg t.exec t.device ∧
        ∀ x, 1 ≤ x → x + cfg.queueDepth ≤ s.exec.workSeqCounter → x ∈ t.exec.signals) ws
      ⟨h, fun x hx hle => List.count_pos_iff.1 (by rw [ha.once x hx hle]; decide)⟩
      fun t w hw _ hc ht => by
        have hlive := ha.live w (hws w hw)
        rw [← hc] at hlive
        refine ⟨Wires.signal hmode ht.1 (hc ▸ ht.2) hlive.2.1 hlive.2.2, ?_⟩
        exact fun x hx hle => List.mem_append_left _ (ht.2 x hx hle)
    rw [hd]
    refine hall.1.congr ?_ ?_ ?_
    · rw [hc, foldl_signal_exec]
    · rw [hsub, foldl_signal_exec]
    · rw [hs, foldl_signal_exec]
  · exact h.run ha hd

/-! ## Every run -/

/-- What holds of the streams and the words. -/
structure Inv (cfg : Config) (s : State) : Prop where
  admission : Admission cfg s.exec
  wires : cfg.useStreamMemOps = false → Wires cfg s.exec s.device
  words : cfg.useStreamMemOps = true → Words cfg s.exec s.device

theorem Inv.initial : Inv cfg State.initial where
  admission := Admission.initial
  wires := fun _ => Wires.initial
  words := fun _ =>
    { pos := by simp [State.initial, Device.initial]
      complete := fun _ => .inl rfl
      held := by simp [State.initial, Executor.initial]
      released := by simp [State.initial, Device.initial] }

theorem Inv.step {l : Label} (h : Inv cfg s) (hl : callsSucceed s l = true)
    (hstep : CompletionFlag.step cfg s l = some s') : Inv cfg s' where
  admission := h.admission.step hl hstep
  wires := fun hmode => (h.wires hmode).step hmode h.admission hl hstep
  words := fun hmode => (h.words hmode).step hmode h.admission hl hstep

theorem Inv.sound (h : Inv cfg s) : Sound cfg s where
  released := by
    intro w hw
    cases hmode : cfg.useStreamMemOps with
    | true =>
      rw [waitOp, if_pos hmode] at hw
      exact (h.words hmode).released w hw
    | false =>
      rw [waitOp, if_neg (by simp [hmode])] at hw
      have hcopied := List.count_pos_iff.2 ((h.wires hmode).own w hw)
      have := (h.wires hmode).copies w
      exact List.count_pos_iff.1 (by omega)
  own := fun hmode => (h.wires hmode).own
  undisturbed := by
    intro hmode x w hw hx hxw hslot
    have hwires := h.wires hmode
    exact hwires.undisturbed w x (hwires.ordered.ran _ hw (.waitDone _) rfl) hx hxw hslot
  held := fun hmode => (h.words hmode).held

/-- **The completion doorbell**: in every run where no call of `prepareUserWait` fails, for every
queue depth and in both modes, a wait is over only after its work was signalled, and a slot is
prepared anew only when the waits of its earlier works are over. -/
theorem doorbell_kept (cfg : Config) (labels : List Label) (s : State)
    (hrun : (machine cfg).runFrom callsSucceed State.initial labels = some s) : Sound cfg s :=
  ((machine cfg).invariant (fun _ _ _ h hl hstep => Inv.step h hl hstep) Inv.initial hrun).sound

/-- A slot serves two works on two streams; the second one fails after its preparation. -/
def reuse : List Label :=
  [[.enter 0], .replicate 7 .call, [.push, .pop], .replicate 3 (.run .reset),
    .replicate 2 (.run (.user 0)), [.ready, .drained, .signal, .finish [], .enter 1],
    .replicate 7 .call, [.push, .pop, .run .signal], .replicate 2 (.run (.user 0)),
    .replicate 3 (.run .reset), .replicate 2 (.run (.user 1)),
    [.giveUp, .finish [], .run .signal, .run (.user 1)]].flatten

theorem doorbell_kept_reuse :
    ∃ s, (machine ⟨1, by decide, false⟩).runFrom callsSucceed State.initial reuse = some s ∧
      Op.waitFlag 2 ∈ s.device.streams.ran ∧ Sound ⟨1, by decide, false⟩ s := by
  have hobs : ((machine ⟨1, by decide, false⟩).runFrom callsSucceed State.initial reuse).map
      (fun s => s.device.streams.ran.contains (.waitFlag 2)) = some true := by
    decide +kernel
  obtain ⟨s, hrun, hs⟩ := Option.map_eq_some_iff.1 hobs
  exact ⟨s, hrun, List.contains_iff_mem.1 hs, doorbell_kept _ _ s hrun⟩

/-! ## A call fails -/

/-- The second submission fails in its first call, so the third one gets the slot of the first,
which fails in turn: it is signalled where it fails and again at the end. -/
def skipped : List Label :=
  [[.enter 0], .replicate 7 .call, [.push, .pop], .replicate 3 (.run .reset),
    .replicate 2 (.run (.user 0)), [.ready, .enter 1, .callFails, .enter 1],
    .replicate 7 .call, [.nodeFails [], .run .signal], .replicate 2 (.run (.user 0)),
    .replicate 3 (.run .reset), .replicate 2 (.run (.user 1)),
    [.drained, .finish [], .push, .run .signal, .run (.user 1)]].flatten

/-- **A work is released by the signal of an earlier one**: work 3 is queued and was never
signalled, and its wait is over. -/
theorem released_by_earlier :
    ∃ s, (machine ⟨2, by decide, false⟩).runFrom Machine.anyStep State.initial skipped = some s ∧
      s.exec.queue = [3] ∧ s.exec.signals = [1, 1] ∧ Op.waitFlag 3 ∈ s.device.streams.ran ∧
      ¬Sound ⟨2, by decide, false⟩ s := by
  have hobs : ((machine ⟨2, by decide, false⟩).runFrom Machine.anyStep State.initial skipped).map
      (fun s => (s.exec.queue, s.exec.signals, s.device.streams.ran.contains (.waitFlag 3))) =
      some ([3], [1, 1], true) := by
    decide +kernel
  obtain ⟨s, hrun, hs⟩ := Option.map_eq_some_iff.1 hobs
  simp only [Prod.mk.injEq] at hs
  obtain ⟨hqueue, hsignals, hran⟩ := hs
  have hmem := List.contains_iff_mem.1 hran
  refine ⟨s, hrun, hqueue, hsignals, hmem, ?_⟩
  intro hsound
  have := hsound.released 3 hmem
  rw [hsignals] at this
  exact absurd this (by decide)

/-- The last call of the first submission fails, after the wait was put on the stream. -/
def unrecorded : List Label :=
  [[.enter 0], .replicate 6 .call, [.callFails, .enter 1], .replicate 7 .call, [.push, .pop],
    .replicate 4 (.run .reset), .replicate 2 (.run (.user 1)), [.ready, .drained, .signal],
    .replicate 3 (.run (.user 0))].flatten

/-- The wait of a submission that failed stays on the stream, until a later work is signalled. -/
theorem released_unsignalled :
    ∃ s, (machine ⟨1, by decide, true⟩).runFrom Machine.anyStep State.initial unrecorded = some s ∧
      s.exec.signals = [2] ∧ Op.waitValue 1 ∈ s.device.streams.ran := by
  have hobs : ((machine ⟨1, by decide, true⟩).runFrom Machine.anyStep State.initial
      unrecorded).map (fun s => (s.exec.signals, s.device.streams.ran.contains (.waitValue 1))) =
      some ([2], true) := by
    decide +kernel
  obtain ⟨s, hrun, hs⟩ := Option.map_eq_some_iff.1 hobs
  simp only [Prod.mk.injEq] at hs
  exact ⟨s, hrun, hs.1, List.contains_iff_mem.1 hs.2⟩

end CompletionFlag
end Memory
end HyLink
