import HyLink.Executor.Submission

/-!
# The numbers of the works

A submit takes the next work sequence number before it knows that it will queue a
work under it.  As long as no submit fails after that, the works in flight have
consecutive numbers, at most as many as there are completion slots.

* `numbering_atomic` — in runs without such a failure, a submit that returns an error
  has changed neither the numbers nor the queue, no two works in flight share a slot,
  and the `k`-th queued work has number, epoch and slot of `k`; a failure after the
  number is taken does change the numbers.
* `number_lost` — one failed event record, and two works in flight share a slot.
-/

namespace HyLink
namespace Executor
namespace Submission

variable {cfg : Config} {st st' : State} {l : Label} {r : Option Result}

/-! ## The present submit -/

variable (cfg) in
/-- What the present submit has done since it was called. -/
structure Called (st : State) : Prop where
  waiting : st.submitting = .waiting → st.atCall = (st.workSeqCounter, st.pushed)
  held : ∀ item, st.submitting.held = some item → item = itemOf cfg st.workSeqCounter ∧
    st.workSeqCounter = st.atCall.1 + 1 ∧ st.pushed = st.atCall.2
  draining : ∀ item, st.submitting = .draining item → st.workSeqCounter = st.atCall.1 + 1

theorem Called.init (last : Result) : Called cfg (start last) :=
  ⟨nofun, nofun, nofun⟩

/-- The numbers stay when no submit does anything. -/
theorem Called.of_eq (h : Called cfg st) (hcounter : st'.workSeqCounter = st.workSeqCounter)
    (hsubmitting : st'.submitting = st.submitting) (hpushed : st'.pushed = st.pushed)
    (hatCall : st'.atCall = st.atCall) : Called cfg st' := by
  refine ⟨?_, ?_, ?_⟩
  · rw [hcounter, hsubmitting, hpushed, hatCall]
    exact h.waiting
  · rw [hcounter, hsubmitting, hpushed, hatCall]
    exact h.held
  · rw [hcounter, hsubmitting, hatCall]
    exact h.draining

/-- A submit that returns leaves nothing to say. -/
theorem Called.of_nobody (hsubmitting : st'.submitting = .nobody) : Called cfg st' := by
  refine ⟨?_, ?_, ?_⟩ <;> rw [hsubmitting]
  · nofun
  · intro item hitem
    cases hitem
  · nofun

theorem Called.move (h : Called cfg st) (hm : Move cfg st l st' r) : Called cfg st' := by
  cases hm with
  | call => exact ⟨fun _ => rfl, nofun, nofun⟩
  | refuse => exact .of_nobody rfl
  | reserve hs =>
    have hcall := h.waiting hs
    refine ⟨nofun, fun item hitem => ?_, nofun⟩
    cases hitem
    rw [hcall]
    exact ⟨rfl, rfl, rfl⟩
  | reject => exact .of_nobody rfl
  | @prepare item _ hs =>
    refine ⟨nofun, fun item' hitem => ?_, nofun⟩
    cases hitem
    exact h.held item (by rw [hs]; rfl)
  | @device _ item _ rest _ hs =>
    have hheld := h.held item (by rw [hs]; rfl)
    refine ⟨fun hw => ?_, fun item' hitem => ?_, fun item' hd => ?_⟩
    · dsimp only at hw
      split at hw <;> cases hw
    · dsimp only at hitem
      split at hitem <;> cases hitem <;> exact hheld
    · dsimp only at hd
      split at hd <;> cases hd
  | deviceFails => exact .of_nobody rfl
  | push => exact .of_nobody rfl
  | @pushCold item hs =>
    refine ⟨nofun, nofun, fun _ _ => ?_⟩
    exact (h.held item (by rw [hs]; rfl)).2.1
  | drained => exact .of_nobody rfl
  | drainTimeout => exact .of_nobody rfl
  | threadFails | finish => exact h.of_eq (by simp) (by simp) (by simp) (by simp)
  | _ => exact h.of_eq rfl rfl rfl rfl

/-! ## Consecutive numbers -/

/-- The works with a number: those that were queued, and the one that is to be. -/
def State.numbered (st : State) : List WorkItem := st.pushed ++ st.submitting.held.toList

/-- Of these, the works that are not finished. -/
def State.window (st : State) : List WorkItem := st.inflight ++ st.submitting.held.toList

variable (cfg) in
structure Numbered (st : State) : Prop where
  consecutive : st.numbered = (List.range st.workSeqCounter).map fun k => itemOf cfg (k + 1)
  suffix : st.window <:+ st.numbered
  room : st.window.length ≤ cfg.queueDepth

theorem Numbered.init (last : Result) : Numbered cfg (start last) :=
  ⟨rfl, List.suffix_rfl, Nat.zero_le _⟩

/-- A step that takes no number and queues nothing may at most finish works. -/
theorem Numbered.of_suffix (h : Numbered cfg st)
    (hcounter : st'.workSeqCounter = st.workSeqCounter) (hpushed : st'.pushed = st.pushed)
    (hheld : st'.submitting.held = st.submitting.held) (hinflight : st'.inflight <:+ st.inflight) :
    Numbered cfg st' := by
  have hwindow : st'.window <:+ st.window := by
    obtain ⟨t, ht⟩ := hinflight
    exact ⟨t, by rw [State.window, State.window, hheld, ← ht, List.append_assoc]⟩
  have hnumbered : st'.numbered = st.numbered := by rw [State.numbered, State.numbered, hpushed, hheld]
  refine ⟨?_, ?_, hwindow.length_le.trans h.room⟩
  · rw [hnumbered, hcounter]
    exact h.consecutive
  · rw [hnumbered]
    exact hwindow.trans h.suffix

/-- A work is queued under the number it has. -/
theorem Numbered.of_queued (h : Numbered cfg st)
    (hcounter : st'.workSeqCounter = st.workSeqCounter) (hnumbered : st'.numbered = st.numbered)
    (hwindow : st'.window = st.window) : Numbered cfg st' := by
  refine ⟨?_, ?_, ?_⟩
  · rw [hnumbered, hcounter]
    exact h.consecutive
  · rw [hnumbered, hwindow]
    exact h.suffix
  · rw [hwindow]
    exact h.room

theorem inflight_append {item : WorkItem} (hworker : st'.worker = st.worker)
    (hcurrent : st'.current = st.current) (hqueue : st'.queue = st.queue ++ [item]) :
    st'.inflight = st.inflight ++ [item] := by
  unfold State.inflight State.busy
  rw [hworker, hcurrent, hqueue]
  split <;> split <;> rfl

/-- The work that is to be queued comes behind the others. -/
theorem window_push {item : WorkItem} (hs : st.submitting = .prepared item)
    (hworker : st'.worker = st.worker) (hcurrent : st'.current = st.current)
    (hqueue : st'.queue = st.queue ++ [item]) (hheld : st'.submitting.held = none) :
    st'.window = st.window := by
  rw [State.window, State.window, inflight_append hworker hcurrent hqueue, hheld, hs]
  simp [Submitting.held]

/-- When a work is finished, what stays in flight was behind it. -/
theorem finish_inflight {result : Result} {failed : List ℕ} {worker : Worker}
    (hidle : worker = .idle ∨ worker = .ended) :
    ({ finishCurrentWork cfg st result failed with worker := worker } : State).inflight <:+
      st.inflight := by
  have hqueue : ({ finishCurrentWork cfg st result failed with worker := worker } : State).inflight =
      if result = .success then st.queue else [] := by
    rw [← finishCurrentWork_queue]
    rcases hidle with rfl | rfl <;> rfl
  have hsuffix : st.queue <:+ st.inflight := by
    unfold State.inflight
    split
    · exact List.suffix_cons _ _
    · exact List.suffix_rfl
  rw [hqueue]
  split
  · exact hsuffix
  · exact List.nil_suffix

/-- The submit does not fail after it has taken a number. -/
def Config.noLateFailure (cfg : Config) (st : State) : Label → Bool
  | .checkFlag => cfg.hasFlag && cfg.initialized
  | .device ok => ok
  | .drained syncOk => decide (st.lastResult = .success) && syncOk
  | .drainTimeout => false
  | _ => true

theorem Numbered.move (h : Numbered cfg st) (hcalled : Called cfg st)
    (hlate : cfg.noLateFailure st l = true) (hm : Move cfg st l st' r) : Numbered cfg st' := by
  cases hm with
  | call hs => exact h.of_suffix rfl rfl (by rw [hs]; rfl) List.suffix_rfl
  | refuse hs => exact h.of_suffix rfl rfl (by rw [hs]; rfl) List.suffix_rfl
  | reserve hs hroom =>
    have hnumbered : st.numbered = st.pushed := by simp [State.numbered, hs, Submitting.held]
    have hwindow : st.window = st.inflight := by simp [State.window, hs, Submitting.held]
    have hcons := h.consecutive
    have hsuffix := h.suffix
    rw [hnumbered] at hcons hsuffix
    rw [hwindow] at hsuffix
    refine ⟨?_, ?_, ?_⟩
    · show st.pushed ++ [itemOf cfg (st.workSeqCounter + 1)] = _
      rw [hcons, List.range_succ, List.map_append]
      rfl
    · show st.inflight ++ [_] <:+ st.pushed ++ [_]
      obtain ⟨t, ht⟩ := hsuffix
      exact ⟨t, by rw [← List.append_assoc, ht]⟩
    · show (st.inflight ++ [_]).length ≤ _
      rw [List.length_append]
      exact hroom
  | @reject item _ hs hinvalid =>
    -- the slot of a number is in range
    have hitem := (hcalled.held item (by rw [hs]; rfl)).1
    simp only [Config.noLateFailure, Bool.and_eq_true] at hlate
    have hlt : (st.workSeqCounter - 1) % cfg.queueDepth < cfg.queueDepth :=
      Nat.mod_lt _ cfg.queueDepth_pos
    simp [validSlot, hlate.1, hlate.2, hitem, itemOf, hlt.not_ge] at hinvalid
  | prepare hs => exact h.of_suffix rfl rfl (by rw [hs]; rfl) List.suffix_rfl
  | @device _ item _ rest _ hs =>
    refine h.of_suffix rfl rfl ?_ List.suffix_rfl
    rw [hs]
    show (if rest = [] then Submitting.prepared item else .preparing item rest).held = some item
    split <;> rfl
  | deviceFails => cases hlate
  | @push item hs =>
    refine h.of_queued rfl ?_ ?_
    · simp [State.numbered, hs, Submitting.held]
    · exact window_push hs rfl rfl rfl rfl
  | @pushCold item hs =>
    refine h.of_queued rfl ?_ ?_
    · simp [State.numbered, hs, Submitting.held]
    · exact window_push hs rfl rfl rfl rfl
  | drained hs => exact h.of_suffix rfl rfl (by rw [hs]; rfl) List.suffix_rfl
  | drainTimeout => cases hlate
  | threadFails =>
    exact h.of_suffix (by simp) (by simp) (by simp) (finish_inflight (Or.inr rfl))
  | finish => exact h.of_suffix (by simp) (by simp) (by simp) (finish_inflight (Or.inl rfl))
  | threadStarts hw | runFails hw | signal hw | signalFails hw | threadEnds hw =>
    refine h.of_suffix rfl rfl rfl ?_
    simp [State.inflight, State.busy, hw]
  | take hw hq =>
    refine h.of_suffix rfl rfl rfl ?_
    simp [State.inflight, State.busy, hw, hq]
  | idleTimeout => exact h.of_suffix rfl rfl rfl List.suffix_rfl
  | stop => exact h.of_suffix rfl rfl rfl List.suffix_rfl

/-! ## The slots of consecutive numbers -/

/-- Consecutive numbers, no more of them than slots, have different slots. -/
theorem slots_pairwise {n : ℕ} {items : List WorkItem}
    (hsuffix : items <:+ (List.range n).map fun k => itemOf cfg (k + 1))
    (hroom : items.length ≤ cfg.queueDepth) :
    items.Pairwise fun a b => a.slot ≠ b.slot := by
  rw [List.suffix_iff_eq_drop] at hsuffix
  rw [List.pairwise_iff_getElem]
  intro i j hi hj hij heq
  have hslot : ∀ k (hk : k < items.length), items[k].slot =
      (((List.range n).map fun k => itemOf cfg (k + 1)).length - items.length + k) %
        cfg.queueDepth := by
    intro k hk
    have hget := List.getElem_of_eq hsuffix hk
    rw [hget, List.getElem_drop, List.getElem_map, List.getElem_range]
    rfl
  rw [hslot i hi, hslot j hj] at heq
  have hmod := Nat.sub_mod_eq_zero_of_mod_eq heq.symm
  rw [Nat.mod_eq_of_lt (by omega)] at hmod
  omega

variable (cfg) in
structure Consistent (st : State) : Prop where
  called : Called cfg st
  numbered : Numbered cfg st

theorem Consistent.of_run {last : Result} {ls : List Label}
    (hrun : (machine cfg).runFrom cfg.noLateFailure (start last) ls = some st) :
    Consistent cfg st := by
  refine (machine cfg).invariant (fun st l st' h hlate hstep => ?_)
    ⟨Called.init last, Numbered.init last⟩ hrun
  obtain ⟨r, -, hm⟩ := move_of_step hstep
  exact ⟨h.called.move hm, h.numbered.move h.called hlate hm⟩

theorem Called.of_run {last : Result} {ls : List Label}
    (hrun : (machine cfg).runFrom Theory.Machine.anyStep (start last) ls = some st) :
    Called cfg st := by
  refine (machine cfg).invariant (fun st l st' h _ hstep => ?_) (Called.init last) hrun
  obtain ⟨r, -, hm⟩ := move_of_step hstep
  exact h.move hm

/-- A submit that returns an error without a late failure returns before it takes a
number. -/
theorem waiting_of_error (hm : Move cfg st l st' r) (hlate : cfg.noLateFailure st l = true)
    {res : Result} (hr : r = some res) (herror : res ≠ .success) (hc : Consistent cfg st) :
    st.submitting = .waiting ∧ st'.workSeqCounter = st.workSeqCounter ∧ st'.pushed = st.pushed ∧
      st'.atCall = st.atCall ∧ st'.queue = st.queue := by
  cases hm with
  | refuse hs => exact ⟨hs, rfl, rfl, rfl, rfl⟩
  | @reject item _ hs hinvalid =>
    have hitem := (hc.called.held item (by rw [hs]; rfl)).1
    simp only [Config.noLateFailure, Bool.and_eq_true] at hlate
    have hlt : (st.workSeqCounter - 1) % cfg.queueDepth < cfg.queueDepth :=
      Nat.mod_lt _ cfg.queueDepth_pos
    simp [validSlot, hlate.1, hlate.2, hitem, itemOf, hlt.not_ge] at hinvalid
  | deviceFails => cases hlate
  | push => cases hr; exact absurd rfl herror
  | drained =>
    simp only [Config.noLateFailure, Bool.and_eq_true, decide_eq_true_eq] at hlate
    rw [hlate.1, hlate.2] at hr
    cases hr
    exact absurd rfl herror
  | drainTimeout => cases hlate
  | _ => cases hr

/-- **Submissions are numbered atomically.**  In a run in which no submit fails after it has
taken a number: a submit that returns an error has left the counter, the record of queued
works and the queue as they were; no two works in flight share a completion slot; the `k`-th
queued work has number `k`, epoch parity `k % 2` and slot `(k - 1) % queueDepth`.  A submit
that fails later returns with the counter changed. -/
theorem numbering_atomic (cfg : Config) {last : Result} :
    (∀ {ls : List Label} {st : State},
      (machine cfg).runFrom cfg.noLateFailure (start last) ls = some st →
      (∀ l st' res, stepResult cfg st l = some (st', some res) → res ≠ .success →
        cfg.noLateFailure st l = true →
        st'.workSeqCounter = st'.atCall.1 ∧ st'.pushed = st'.atCall.2 ∧ st'.queue <:+ st'.atCall.2) ∧
      st.window.Pairwise (fun a b => a.slot ≠ b.slot) ∧
      ∀ k item, st.pushed[k]? = some item → item = itemOf cfg (k + 1)) ∧
    ∀ {ls : List Label} {st : State},
      (machine cfg).runFrom Theory.Machine.anyStep (start last) ls = some st →
      ∀ l st' res, stepResult cfg st l = some (st', some res) → res ≠ .success →
        cfg.noLateFailure st l = false → st'.workSeqCounter = st'.atCall.1 + 1 := by
  constructor
  · intro ls st hrun
    have hc := Consistent.of_run hrun
    refine ⟨fun l st' res hres herror hlate => ?_, ?_, fun k item hk => ?_⟩
    · obtain ⟨hs, hcounter, hpushed, hatCall, hqueue⟩ :=
        waiting_of_error (.of_stepResult hres) hlate rfl herror hc
      have hcall := hc.called.waiting hs
      rw [hcounter, hpushed, hatCall, hqueue, hcall]
      refine ⟨rfl, rfl, ?_⟩
      have hinflight : st.inflight <:+ st.pushed := by
        have hsuffix := hc.numbered.suffix
        simpa [State.window, State.numbered, hs, Submitting.held] using hsuffix
      refine List.IsSuffix.trans ?_ hinflight
      unfold State.inflight
      split
      · exact List.suffix_cons _ _
      · exact List.suffix_rfl
    · have hsuffix := hc.numbered.suffix
      rw [hc.numbered.consecutive] at hsuffix
      exact slots_pairwise hsuffix hc.numbered.room
    · have hnumbered : st.numbered[k]? = some item := by
        obtain ⟨hlt, -⟩ := List.getElem?_eq_some_iff.1 hk
        rw [State.numbered, List.getElem?_append_left hlt, hk]
      rw [hc.numbered.consecutive, List.getElem?_map] at hnumbered
      obtain ⟨k', hk', rfl⟩ := Option.map_eq_some_iff.1 hnumbered
      obtain ⟨hlt, rfl⟩ := List.getElem?_eq_some_iff.1 hk'
      rw [List.getElem_range]
  · intro ls st hrun l st' res hres herror hlate
    have hcalled := Called.of_run hrun
    have hheld : ∀ {item}, st.submitting.held = some item → st.workSeqCounter = st.atCall.1 + 1 :=
      fun h => (hcalled.held _ h).2.1
    have hm := Move.of_stepResult hres
    generalize hr : some res = r at hm
    cases hm with
    | refuse hs =>
      -- a submit that waits has no number yet
      cases l <;> simp [Config.noLateFailure] at hlate <;> simp [stepResult, hs] at hres
    | reject hs => exact hheld (by rw [hs]; rfl)
    | deviceFails hs => exact hheld (by rw [hs]; rfl)
    | push => cases hlate
    | drained hs => exact hcalled.draining _ hs
    | drainTimeout hs => exact hcalled.draining _ hs
    | _ => cases hr

/-! ### A failed event record -/

/-- Two slots, and stream memory operations. -/
def twoSlots : Config where
  queueDepth := 2
  queueDepth_pos := Nat.two_pos
  hasFlag := true
  initialized := true
  useStreamMemOps := true
  coldStartDrain := 0

/-- A submit whose `k`-th call of `prepareUserWait` fails, if it has so many. -/
def submitUpTo (k : ℕ) : List Label :=
  [.call, .enter, .checkFlag] ++ List.replicate (min k 7) (.device true) ++
    if k < 7 then [.device false] else [.push]

/-- Three submits, of which none fails; the thread takes the first work and finishes it. -/
def threeSubmits : List Label :=
  [.setDevice true []] ++ submitUpTo 7 ++ [.take, .signal true, .finish []] ++ submitUpTo 7 ++
    submitUpTo 7

theorem numbering_atomic_three :
    ∃ st, (machine twoSlots).runFrom twoSlots.noLateFailure (start .success) threeSubmits =
        some st ∧
      st.window = [⟨0, 2, 1⟩, ⟨1, 3, 0⟩] ∧ st.window.Pairwise fun a b => a.slot ≠ b.slot := by
  have hobs : ((machine twoSlots).runFrom twoSlots.noLateFailure (start .success)
      threeSubmits).map (fun st => st.window) = some [⟨0, 2, 1⟩, ⟨1, 3, 0⟩] := by decide +kernel
  obtain ⟨st, hrun, hobs⟩ := Option.map_eq_some_iff.1 hobs
  exact ⟨st, hrun, hobs, ((numbering_atomic twoSlots).1 hrun).2.1⟩

/-- The second submit fails at its first event record: it returns an error, and its number is
lost.  The third submit's work shares the completion slot of the first, which is still
running, and the second work that was queued has the parity of the first. -/
theorem number_lost :
    ∃ st₁ st₂ st, (machine twoSlots).runFrom Theory.Machine.anyStep (start .success)
        ([.setDevice true []] ++ submitUpTo 7 ++
          [.take, .call, .enter, .checkFlag, .device true, .device true]) = some st₁ ∧
      stepResult twoSlots st₁ (.device false) = some (st₂, some .deviceError) ∧
      st₂.atCall.1 = 1 ∧ st₂.workSeqCounter = 2 ∧
      (machine twoSlots).runFrom Theory.Machine.anyStep st₂ (submitUpTo 7) = some st ∧
      st.inflight = [⟨1, 1, 0⟩, ⟨1, 3, 0⟩] ∧ st.pushed = [⟨1, 1, 0⟩, ⟨1, 3, 0⟩] := by
  have hobs : ((machine twoSlots).runFrom Theory.Machine.anyStep (start .success)
      ([.setDevice true []] ++ submitUpTo 7 ++
        [.take, .call, .enter, .checkFlag, .device true, .device true])).bind (fun st₁ =>
      (stepResult twoSlots st₁ (.device false)).bind fun res =>
        ((machine twoSlots).runFrom Theory.Machine.anyStep res.1 (submitUpTo 7)).map fun st =>
          (res.2, res.1.atCall.1, res.1.workSeqCounter, st.inflight, st.pushed)) =
      some (some .deviceError, 1, 2, [⟨1, 1, 0⟩, ⟨1, 3, 0⟩], [⟨1, 1, 0⟩, ⟨1, 3, 0⟩]) := by
    decide +kernel
  obtain ⟨st₁, hrun, hobs⟩ := Option.bind_eq_some_iff.1 hobs
  obtain ⟨⟨st₂, res⟩, hres, hobs⟩ := Option.bind_eq_some_iff.1 hobs
  obtain ⟨st, hrest, hobs⟩ := Option.map_eq_some_iff.1 hobs
  simp only [Prod.mk.injEq] at hobs
  obtain ⟨rfl, hcall, hcounter, hinflight, hpushed⟩ := hobs
  exact ⟨st₁, st₂, st, hrun, hres, hcall, hcounter, hrest, hinflight, hpushed⟩

end Submission
end Executor
end HyLink
