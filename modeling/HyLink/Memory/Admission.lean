import HyLink.Memory.CompletionFlag

/-!
# The works under way have slots of their own

The executor counts the works that are queued or current, not their numbers, and stops letting
submissions in once one has failed.

* `Admission.enter` — a submission is let in only when the work a queue depth before it is finished.
* `Admission.finishError` — after an error the works under way are signalled, and no more let in.
* `Admission.step` — where no preparation fails, the works under way are less than a queue depth
  apart, and those a queue depth before the last one were signalled once.
-/

namespace HyLink
namespace Memory
namespace CompletionFlag

open Theory

variable {cfg : Config} {s s' : State} {e : Executor} {d d' : Device}

/-- Two works of a slot are a queue depth apart. -/
theorem Config.add_le_of_slotOf {x w : ℕ} (hx : 1 ≤ x) (hxw : x < w)
    (h : cfg.slotOf x = cfg.slotOf w) : x + cfg.queueDepth ≤ w := by
  have hmod : (w - 1 - (x - 1)) % cfg.queueDepth = 0 := Nat.sub_mod_eq_zero_of_mod_eq h.symm
  have hle := Nat.le_of_dvd (by omega) (Nat.dvd_of_mod_eq_zero hmod)
  omega

theorem Config.slotOf_add {w : ℕ} (hw : 1 ≤ w) :
    cfg.slotOf (w + cfg.queueDepth) = cfg.slotOf w := by
  unfold Config.slotOf
  rw [show w + cfg.queueDepth - 1 = w - 1 + cfg.queueDepth by omega, Nat.add_mod_right]

/-! ## Signals -/

theorem foldl_signal_exec (ws : List ℕ) :
    (ws.foldl (State.signal cfg) s).exec = { s.exec with signals := s.exec.signals ++ ws } := by
  induction ws generalizing s with
  | nil => simp
  | cons w ws ih =>
    rw [List.foldl_cons, ih]
    simp [State.signal]

/-- The works that `finishCurrentWork` signals. -/
def Executor.signalled (e : Executor) (fails : List ℕ) : List ℕ :=
  e.pending.filter fun w => !fails.contains w

theorem finishError_exec (fails : List ℕ) :
    (s.finishError cfg fails).exec =
      { s.exec with
        signals := s.exec.signals ++ s.exec.signalled fails
        success := false
        queue := []
        busy := false } := by
  unfold State.finishError Executor.signalled
  simp only [foldl_signal_exec]

/-- A work that has its number and is not finished. -/
def Executor.Live (e : Executor) (w : ℕ) : Prop :=
  (e.phase.inside = true ∧ w = e.currentWorkSeq) ∨ w ∈ e.queue ∨
    ∃ p, e.submitting = some p ∧ p.workSeq = w

theorem live_of_mem_signalled {fails : List ℕ} {w : ℕ}
    (hin : e.phase.inside = true ∨ e.currentWorkSeq = 0) (hw : w ∈ e.signalled fails) :
    e.Live w := by
  have hp := List.mem_of_mem_filter hw
  unfold Executor.pending at hp
  rcases List.mem_append.1 hp with hp | hp
  · by_cases h0 : e.currentWorkSeq = 0
    · simp [h0] at hp
    · rw [if_pos h0, List.mem_singleton] at hp
      exact .inl ⟨hin.resolve_right h0, hp⟩
  · exact .inr (.inl hp)

/-! ## Admission -/

/-- No work has failed. -/
structure Healthy (e : Executor) : Prop where
  queue : e.queue = List.range' (e.currentWorkSeq + 1) e.queue.length
  total : e.currentWorkSeq + e.queue.length + (if e.submitting.isSome then 1 else 0) =
    e.workSeqCounter
  busy : e.busy = e.phase.inside
  /-- The works up to the current one were signalled once. -/
  count : ∀ x, 1 ≤ x → e.signals.count x =
    if x < e.currentWorkSeq ∨ x = e.currentWorkSeq ∧
      (e.phase.inside = false ∨ e.phase = .signalled) then 1 else 0

/-- A work has failed, and so will all that are under way. -/
structure Broken (e : Executor) : Prop where
  success : e.success = false
  closing : e.phase ≠ .closing
  signalled : e.phase ≠ .signalled

structure Admission (cfg : Config) (e : Executor) : Prop where
  live : ∀ w, e.Live w → 1 ≤ w ∧ w ≤ e.workSeqCounter ∧ e.workSeqCounter < w + cfg.queueDepth
  once : ∀ x, 1 ≤ x → x + cfg.queueDepth ≤ e.workSeqCounter → e.signals.count x = 1
  signals : ∀ w ∈ e.signals, 1 ≤ w ∧ w ≤ e.workSeqCounter
  submitting : ∀ p, e.submitting = some p → p.workSeq = e.workSeqCounter
  standing : Healthy e ∨ Broken e

theorem Admission.initial : Admission cfg Executor.initial where
  live := by simp [Executor.Live, Executor.initial, Phase.inside]
  once := by
    intro x hx h
    simp only [Executor.initial] at h
    omega
  signals := by simp [Executor.initial]
  submitting := by simp [Executor.initial]
  standing := .inl
    { queue := rfl
      total := rfl
      busy := rfl
      count := by
        intro x hx
        have hnot (P : Prop) : ¬(x < 0 ∨ x = 0 ∧ P) := by omega
        exact (if_neg (hnot _)).symm }

/-- Signals of works under way. -/
theorem Admission.count_append (h : Admission cfg e) {ws : List ℕ} (hws : ∀ w ∈ ws, e.Live w)
    {x : ℕ} (hx : x + cfg.queueDepth ≤ e.workSeqCounter) :
    (e.signals ++ ws).count x = e.signals.count x := by
  have hnot : x ∉ ws := by
    intro hmem
    have := (h.live x (hws x hmem)).2.2
    omega
  rw [List.count_append, List.count_eq_zero_of_not_mem hnot]
  rfl

/-- After an error the executor is broken. -/
theorem Admission.finishError (h : Admission cfg s.exec) {fails : List ℕ} {phase : Phase}
    (hin : s.exec.phase.inside = true ∨ s.exec.currentWorkSeq = 0)
    (hphase : phase.inside = true → s.exec.phase.inside = true)
    (hclosing : phase ≠ .closing) (hsignalled : phase ≠ .signalled) :
    Admission cfg { (s.finishError cfg fails).exec with phase := phase } := by
  have hlive (w) (hw : w ∈ s.exec.signalled fails) := live_of_mem_signalled hin hw
  rw [finishError_exec]
  refine ⟨?_, ?_, ?_, h.submitting, .inr ⟨rfl, hclosing, hsignalled⟩⟩
  · rintro w (⟨hp, rfl⟩ | hw | hw)
    · exact h.live _ (.inl ⟨hphase hp, rfl⟩)
    · cases hw
    · exact h.live w (.inr (.inr hw))
  · intro x hx hle
    exact (h.count_append hlive hle).trans (h.once x hx hle)
  · intro w hw
    rcases List.mem_append.1 hw with hw | hw
    · exact h.signals w hw
    · exact ⟨(h.live w (hlive w hw)).1, (h.live w (hlive w hw)).2.1⟩

/-- The executor moves on without an error. -/
theorem Admission.moves (h : Admission cfg e) {phase : Phase} (hin : e.phase.inside = true)
    (hin' : phase.inside = true) (hs : e.phase ≠ .signalled) (hs' : phase ≠ .signalled)
    (hbroken : e.success = false → e.phase ≠ .closing → phase ≠ .closing) :
    Admission cfg { e with phase := phase } := by
  refine ⟨?_, h.once, h.signals, h.submitting, ?_⟩
  · rintro w (⟨-, hw⟩ | hw)
    · exact h.live w (.inl ⟨hin, hw⟩)
    · exact h.live w (.inr hw)
  · rcases h.standing with hh | hb
    · refine .inl ⟨hh.queue, hh.total, ?_, ?_⟩
      · rw [hh.busy, hin]
        exact hin'.symm
      · intro x hx
        rw [hh.count x hx]
        simp [hin, hin', hs, hs']
    · exact .inr ⟨hb.success, hbroken hb.success hb.closing, hs'⟩

/-- A submission is let in: the works under way and the new one have slots of their own. -/
theorem Admission.enter (h : Admission cfg e) (u : ℕ) (hsub : e.submitting = none)
    (hok : e.success = true)
    (hroom : (if e.busy then 1 else 0) + e.queue.length < cfg.queueDepth) :
    Admission cfg { e with
      workSeqCounter := e.workSeqCounter + 1
      submitting := some ⟨e.workSeqCounter + 1, u, 0⟩ } := by
  have hh : Healthy e := h.standing.resolve_right fun hb =>
    absurd (hok.symm.trans hb.success) (by decide)
  have htotal := hh.total
  rw [hsub] at htotal
  simp only [Option.isSome_none, Bool.false_eq_true, if_false, add_zero] at htotal
  rw [hh.busy] at hroom
  refine ⟨?_, ?_, ?_, ?_, .inl ⟨hh.queue, ?_, hh.busy, hh.count⟩⟩
  · rintro w (⟨hp, hw⟩ | hw | ⟨p, hp, hw⟩)
    · have hw1 := (h.live w (.inl ⟨hp, hw⟩)).1
      change w = e.currentWorkSeq at hw
      change e.phase.inside = true at hp
      rw [hp, if_pos rfl] at hroom
      exact ⟨hw1, by show w ≤ e.workSeqCounter + 1; omega,
        by show e.workSeqCounter + 1 < _; omega⟩
    · have hw1 := (h.live w (.inr (.inl hw))).1
      change w ∈ e.queue at hw
      rw [hh.queue, List.mem_range'_1] at hw
      refine ⟨hw1, ?_, ?_⟩
      · show w ≤ e.workSeqCounter + 1
        omega
      · show e.workSeqCounter + 1 < _
        split at hroom <;> omega
    · cases hp
      subst hw
      refine ⟨Nat.le_add_left 1 _, le_refl _, ?_⟩
      show e.workSeqCounter + 1 < e.workSeqCounter + 1 + _
      have := cfg.pos
      omega
  · intro x hx hle
    change x + cfg.queueDepth ≤ e.workSeqCounter + 1 at hle
    show e.signals.count x = 1
    rw [hh.count x hx, if_pos]
    cases hp : e.phase.inside with
    | true =>
      rw [hp, if_pos rfl] at hroom
      exact .inl (by omega)
    | false =>
      rw [hp, if_neg (by decide)] at hroom
      rcases Nat.lt_or_ge x e.currentWorkSeq with hlt | hge
      · exact .inl hlt
      · exact .inr ⟨by omega, .inl rfl⟩
  · intro w hw
    have := h.signals w hw
    exact ⟨this.1, this.2.trans (Nat.le_succ _)⟩
  · rintro p hp
    cases hp
    rfl
  · show e.currentWorkSeq + e.queue.length + 1 = e.workSeqCounter + 1
    omega

theorem Admission.push (h : Admission cfg e) {p : Submission} (hsub : e.submitting = some p) :
    Admission cfg { e with submitting := none, queue := e.queue ++ [p.workSeq] } := by
  have hp := h.submitting p hsub
  refine ⟨?_, h.once, h.signals, ?_, ?_⟩
  · rintro w (hw | hw | ⟨q, hq, -⟩)
    · exact h.live w (.inl hw)
    · rcases List.mem_append.1 hw with hw | hw
      · exact h.live w (.inr (.inl hw))
      · exact h.live w (.inr (.inr ⟨p, hsub, (List.mem_singleton.1 hw).symm⟩))
    · cases hq
  · intro q hq
    cases hq
  · rcases h.standing with hh | hb
    · have htotal := hh.total
      rw [hsub] at htotal
      simp only [Option.isSome_some, if_true] at htotal
      refine .inl ⟨?_, ?_, hh.busy, hh.count⟩
      · show e.queue ++ [p.workSeq] = List.range' _ (e.queue ++ [p.workSeq]).length
        rw [List.length_append, List.length_singleton, List.range'_concat, ← hh.queue]
        simp only [List.append_cancel_left_eq, List.cons.injEq, and_true]
        omega
      · show e.currentWorkSeq + (e.queue ++ [p.workSeq]).length + 0 = _
        rw [List.length_append, List.length_singleton]
        omega
    · exact .inr ⟨hb.success, hb.closing, hb.signalled⟩

theorem Admission.pop (h : Admission cfg e) {w : ℕ} {rest : List ℕ} (hphase : e.phase = .idle)
    (hq : e.queue = w :: rest) :
    Admission cfg { e with
      queue := rest, currentWorkSeq := w, busy := true, phase := .waiting } := by
  refine ⟨?_, h.once, h.signals, h.submitting, ?_⟩
  · rintro x (⟨-, hx⟩ | hx | hx)
    · refine h.live x (.inr (.inl ?_))
      rw [hq]
      exact List.mem_cons.2 (.inl hx)
    · refine h.live x (.inr (.inl ?_))
      rw [hq]
      exact List.mem_cons_of_mem _ hx
    · exact h.live x (.inr (.inr hx))
  · rcases h.standing with hh | hb
    · have hqueue := hh.queue
      rw [hq, List.length_cons, List.range'_succ] at hqueue
      obtain ⟨hw, hrest⟩ := List.cons.inj hqueue
      have htotal := hh.total
      rw [hq, List.length_cons] at htotal
      refine .inl ⟨?_, ?_, rfl, ?_⟩
      · show rest = List.range' (w + 1) rest.length
        rw [hw]
        exact hrest
      · show w + rest.length + (if e.submitting.isSome then 1 else 0) = e.workSeqCounter
        omega
      · intro x hx
        show e.signals.count x = _
        rw [hh.count x hx, hphase]
        simp only [Phase.inside]
        refine if_congr ?_ rfl rfl
        simp only [and_true, reduceCtorEq, or_self, and_false, or_false,
          Bool.true_eq_false]
        omega
    · refine .inr ⟨hb.success, ?_, ?_⟩
      · show Phase.waiting ≠ .closing
        decide
      · show Phase.waiting ≠ .signalled
        decide

/-- The current work is complete. -/
theorem Admission.signal (h : Admission cfg e) (hphase : e.phase = .closing) :
    Admission cfg { e with
      signals := e.signals ++ [e.currentWorkSeq], phase := .signalled } := by
  have hcur := h.live e.currentWorkSeq (.inl ⟨by rw [hphase]; rfl, rfl⟩)
  have hh : Healthy e := h.standing.resolve_right fun hb => hb.closing hphase
  refine ⟨?_, ?_, ?_, h.submitting, .inl ⟨hh.queue, hh.total, ?_, ?_⟩⟩
  · rintro w (⟨-, rfl⟩ | hw)
    · exact hcur
    · exact h.live w (.inr hw)
  · intro x hx hle
    have hws : ∀ w ∈ [e.currentWorkSeq], e.Live w := by
      intro w hw
      exact .inl ⟨by rw [hphase]; rfl, List.mem_singleton.1 hw⟩
    exact (h.count_append hws hle).trans (h.once x hx hle)
  · intro w hw
    rcases List.mem_append.1 hw with hw | hw
    · exact h.signals w hw
    · rw [List.mem_singleton.1 hw]
      exact ⟨hcur.1, hcur.2.1⟩
  · rw [hh.busy, hphase]
    rfl
  · intro x hx
    show (e.signals ++ [e.currentWorkSeq]).count x = _
    rw [List.count_append, hh.count x hx, hphase, List.count_singleton]
    simp only [Phase.inside, Bool.true_eq_false, reduceCtorEq, or_self, and_false, or_false,
      or_true, and_true, beq_iff_eq]
    split <;> split <;> split <;> omega

theorem Admission.finish (h : Admission cfg e) (hphase : e.phase = .signalled) :
    Admission cfg { e with success := true, busy := false, phase := .idle } := by
  have hh : Healthy e := h.standing.resolve_right fun hb => hb.signalled hphase
  refine ⟨?_, h.once, h.signals, h.submitting, .inl ⟨hh.queue, hh.total, rfl, ?_⟩⟩
  · rintro w (⟨hin, -⟩ | hw)
    · cases hin
    · exact h.live w (.inr hw)
  · intro x hx
    rw [hh.count x hx, hphase]
    simp [Phase.inside]

/-- **One step** keeps the works under way in slots of their own. -/
theorem Admission.step {l : Label} (h : Admission cfg s.exec) (hl : callsSucceed s l = true)
    (hstep : step cfg s l = some s') : Admission cfg s'.exec := by
  cases l with
  | enter u =>
    obtain ⟨hc, hs⟩ := Option.ite_none_right_eq_some.1 hstep
    cases hs
    simp only [Bool.and_eq_true, Option.isNone_iff_eq_none, decide_eq_true_eq] at hc
    exact h.enter u hc.1.1 hc.1.2 hc.2
  | call =>
    obtain ⟨p, hp, hc⟩ := Option.bind_eq_some_iff.1 hstep
    obtain ⟨c, -, rfl⟩ := Option.map_eq_some_iff.1 hc
    refine ⟨?_, h.once, h.signals, ?_, ?_⟩
    · rintro w (hw | hw | ⟨q, hq, hw⟩)
      · exact h.live w (.inl hw)
      · exact h.live w (.inr (.inl hw))
      · cases hq
        exact h.live w (.inr (.inr ⟨p, hp, hw⟩))
    · rintro q hq
      cases hq
      exact h.submitting p hp
    · refine h.standing.imp (fun hh => ⟨hh.queue, ?_, hh.busy, hh.count⟩)
        fun hb => ⟨hb.success, hb.closing, hb.signalled⟩
      rw [← hh.total, hp]
      rfl
  | callFails => cases hl
  | push =>
    obtain ⟨p, hp, hc⟩ := Option.bind_eq_some_iff.1 hstep
    obtain ⟨-, hs⟩ := Option.ite_none_right_eq_some.1 hc
    cases hs
    exact h.push hp
  | pop =>
    simp only [CompletionFlag.step] at hstep
    split at hstep
    · rename_i w rest hphase hq
      cases hstep
      exact h.pop hphase hq
    · cases hstep
  | ready =>
    obtain ⟨hc, hs⟩ := Option.ite_none_right_eq_some.1 hstep
    cases hs
    exact h.moves (by rw [hc.1]; rfl) rfl (by rw [hc.1]; decide) (by decide)
      fun _ _ => by decide
  | drained =>
    obtain ⟨hc, hs⟩ := Option.ite_none_right_eq_some.1 hstep
    cases hs
    refine h.moves (by rw [hc]; rfl) ?_ (by rw [hc]; decide) ?_ ?_
    · split <;> rfl
    · split <;> decide
    · intro hs _
      rw [hs]
      decide
  | giveUp =>
    obtain ⟨hc, hs⟩ := Option.ite_none_right_eq_some.1 hstep
    cases hs
    refine h.moves ?_ rfl ?_ (by decide) fun _ _ => by decide
    · rcases hc with hc | hc | hc <;> rw [hc] <;> rfl
    · rcases hc with hc | hc | hc <;> rw [hc] <;> decide
  | nodeFails fails =>
    obtain ⟨hc, hs⟩ := Option.ite_none_right_eq_some.1 hstep
    cases hs
    have hin : s.exec.phase.inside = true := by rcases hc with hc | hc <;> rw [hc] <;> rfl
    have := @Admission.finishError cfg s h fails s.exec.phase (.inl hin) (fun h => h)
      (by rcases hc with hc | hc <;> rw [hc] <;> decide)
      (by rcases hc with hc | hc <;> rw [hc] <;> decide)
    rw [finishError_exec] at this ⊢
    exact this
  | signal =>
    obtain ⟨hc, hs⟩ := Option.ite_none_right_eq_some.1 hstep
    cases hs
    exact h.signal hc
  | signalFails =>
    obtain ⟨hc, hs⟩ := Option.ite_none_right_eq_some.1 hstep
    cases hs
    exact h.moves (by rw [hc.1]; rfl) rfl (by rw [hc.1]; decide) (by decide)
      fun _ _ => by decide
  | finish fails =>
    simp only [CompletionFlag.step] at hstep
    split at hstep
    · rename_i hc
      cases hstep
      exact h.finish hc
    · rename_i hc
      cases hstep
      exact h.finishError (.inl (by rw [hc]; rfl)) (fun h => by cases h) (by decide) (by decide)
    · cases hstep
  | startFails fails =>
    obtain ⟨hc, hs⟩ := Option.ite_none_right_eq_some.1 hstep
    cases hs
    exact h.finishError (.inr hc.2) (fun h => by cases h) (by decide) (by decide)
  | timeout =>
    cases hstep
    refine ⟨h.live, h.once, h.signals, h.submitting, ?_⟩
    exact h.standing.imp (fun hh => ⟨hh.queue, hh.total, hh.busy, hh.count⟩)
      fun hb => ⟨rfl, hb.closing, hb.signalled⟩
  | run st =>
    obtain ⟨d, -, rfl⟩ := Option.map_eq_some_iff.1 hstep
    exact h

end CompletionFlag
end Memory
end HyLink
