import HyLink.Executor.Numbering

/-!
# Completion waits

`prepareUserWait` gives the user's stream its completion wait one call before it is
through, and the work is queued only afterwards.  A wait whose work is in flight is
signalled when the thread is through with the work, or gives it up; a wait whose submit
fails in between belongs to no work.

* `no_orphaned_wait` — in runs where that last call does not fail and every completion
  is stored, nobody waits for a completion that is not stored when the executor is
  quiet; and where the last call does fail, the completion is never stored.
* `orphaned_wait` — such a run.
-/

namespace HyLink
namespace Executor
namespace Submission

variable {cfg : Config} {st st' : State} {l : Label} {r : Option Result}

/-! ## What a step does to the works -/

theorem mem_inflight_of_push {item x : WorkItem} (hx : x ∈ st'.inflight)
    (hworker : st'.worker = st.worker) (hcurrent : st'.current = st.current)
    (hqueue : st'.queue = st.queue ++ [item]) : x ∈ st.inflight ∨ x = item := by
  rwa [inflight_append hworker hcurrent hqueue, List.mem_append, List.mem_singleton] at hx

theorem mem_inflight_push {item x : WorkItem} (hx : x ∈ st.inflight ∨ x = item)
    (hworker : st'.worker = st.worker) (hcurrent : st'.current = st.current)
    (hqueue : st'.queue = st.queue ++ [item]) : x ∈ st'.inflight := by
  rwa [inflight_append hworker hcurrent hqueue, List.mem_append, List.mem_singleton]

/-- Only the work that is being submitted is added to those in flight. -/
theorem Move.inflight (hm : Move cfg st l st' r) {item : WorkItem} (hitem : item ∈ st'.inflight) :
    item ∈ st.inflight ∨ (st.submitting = .prepared item ∧ st'.submitting.held = none) := by
  cases hm with
  | @push item' hs | @pushCold item' hs =>
    rcases @mem_inflight_of_push st _ item' item hitem rfl rfl rfl with h | rfl
    · exact Or.inl h
    · exact Or.inr ⟨hs, rfl⟩
  | threadFails => exact Or.inl ((finish_inflight (Or.inr rfl)).subset hitem)
  | finish => exact Or.inl ((finish_inflight (Or.inl rfl)).subset hitem)
  | threadStarts hw | runFails hw | signal hw | signalFails hw | threadEnds hw =>
    left
    simpa [State.inflight, State.busy, hw] using hitem
  | take hw hq =>
    left
    simpa [State.inflight, State.busy, hw, hq] using hitem
  | _ => exact Or.inl hitem

/-- The thread has not worked on anything yet. -/
def Untouched (st : State) : Prop := st.worker = .starting → st.current.workSeq = 0

theorem Untouched.move (h : Untouched st) (hm : Move cfg st l st' r) : Untouched st' := by
  intro hw
  cases hm with
  | threadStarts | take | runFails | signal | signalFails | threadEnds => cases hw
  | threadFails | finish => cases hw
  | _ => exact h hw

/-- The works that are given up are in flight. -/
theorem mem_inflight_of_abandoned (h : Untouched st)
    (hworker : st.worker = .starting ∨ ∃ result, st.worker = .finishing result) {item : WorkItem}
    (hitem : item ∈ st.abandoned) : item ∈ st.inflight := by
  rcases hworker with hw | ⟨result, hw⟩
  · simpa [State.abandoned, State.inflight, State.busy, hw, h hw] using hitem
  · simp only [State.inflight, State.busy, hw, if_true]
    unfold State.abandoned at hitem
    split at hitem
    · exact List.mem_cons_of_mem _ hitem
    · exact hitem

theorem finishCurrentWork_signalled {result : Result} {failed : List ℕ} {w : ℕ × ℕ}
    (hw : w ∈ (finishCurrentWork cfg st result failed).signalled) :
    w ∈ st.signalled ∨ ∃ item ∈ st.abandoned, item.wait = w := by
  unfold finishCurrentWork at hw
  split at hw
  · exact Or.inl hw
  · rcases List.mem_append.1 hw with hw | hw
    · exact Or.inl hw
    · obtain ⟨item, hitem, rfl⟩ := List.mem_map.1 hw
      exact Or.inr ⟨item, (List.mem_filter.1 hitem).1, rfl⟩

/-- Only works in flight are signalled. -/
theorem Move.signalled (hm : Move cfg st l st' r) (hu : Untouched st) {w : ℕ × ℕ}
    (hw : w ∈ st'.signalled) : w ∈ st.signalled ∨ ∃ item ∈ st.inflight, item.wait = w := by
  cases hm with
  | threadFails hworker =>
    refine (finishCurrentWork_signalled hw).imp_right fun ⟨item, hitem, heq⟩ => ?_
    exact ⟨item, mem_inflight_of_abandoned hu (Or.inl hworker) hitem, heq⟩
  | finish hworker =>
    refine (finishCurrentWork_signalled hw).imp_right fun ⟨item, hitem, heq⟩ => ?_
    exact ⟨item, mem_inflight_of_abandoned hu (Or.inr ⟨_, hworker⟩) hitem, heq⟩
  | signal hworker =>
    rcases List.mem_append.1 hw with hw | hw
    · exact Or.inl hw
    · rw [List.mem_singleton] at hw
      exact Or.inr ⟨st.current, by simp [State.inflight, State.busy, hworker], hw.symm⟩
  | _ => exact Or.inl hw

/-- A number is taken, given up, or kept. -/
theorem Move.held (hm : Move cfg st l st' r) :
    (st'.workSeqCounter = st.workSeqCounter ∧
      (st'.submitting.held = none ∨ st'.submitting.held = st.submitting.held)) ∨
    (st'.workSeqCounter = st.workSeqCounter + 1 ∧
      st'.submitting.held = some (itemOf cfg (st.workSeqCounter + 1))) := by
  cases hm with
  | reserve => exact Or.inr ⟨rfl, rfl⟩
  | prepare hs => exact Or.inl ⟨rfl, Or.inr (by rw [hs]; rfl)⟩
  | @device _ item _ rest _ hs =>
    refine Or.inl ⟨rfl, Or.inr ?_⟩
    rw [hs]
    show (if rest = [] then Submitting.prepared item else .preparing item rest).held = some item
    split <;> rfl
  | call | refuse | reject | deviceFails | push | pushCold | drained | drainTimeout =>
    exact Or.inl ⟨rfl, Or.inl rfl⟩
  | threadFails | finish => exact Or.inl ⟨by simp, Or.inr (by simp)⟩
  | _ => exact Or.inl ⟨rfl, Or.inr rfl⟩

/-! ## Numbers that are lost -/

/-- No work has the number, and nobody has signalled it. -/
structure Lost (n : ℕ) (st : State) : Prop where
  number : n ≤ st.workSeqCounter
  held : ∀ item, st.submitting.held = some item → item.workSeq ≠ n
  inflight : ∀ item ∈ st.inflight, item.workSeq ≠ n
  signalled : ∀ w ∈ st.signalled, w.2 ≠ n
  untouched : Untouched st

theorem Lost.move {n : ℕ} (h : Lost n st) (hm : Move cfg st l st' r) : Lost n st' := by
  refine ⟨?_, fun item hitem => ?_, fun item hitem => ?_, fun w hw => ?_, h.untouched.move hm⟩
  · have hle := h.number
    rcases hm.held with ⟨heq, -⟩ | ⟨heq, -⟩ <;> omega
  · rcases hm.held with ⟨-, hnone | heq⟩ | ⟨-, heq⟩
    · rw [hnone] at hitem
      cases hitem
    · exact h.held item (heq ▸ hitem)
    · rw [heq] at hitem
      cases hitem
      exact Nat.ne_of_gt (Nat.lt_succ_of_le h.number)
  · rcases hm.inflight hitem with hold | ⟨hs, -⟩
    · exact h.inflight item hold
    · exact h.held item (by rw [hs]; rfl)
  · rcases hm.signalled h.untouched hw with hold | ⟨item, hitem, rfl⟩
    · exact h.signalled w hold
    · exact h.inflight item hitem

/-- A lost number is never signalled. -/
theorem Lost.of_run {n : ℕ} {ls : List Label} (h : Lost n st)
    (hrun : (machine cfg).runFrom Theory.Machine.anyStep st ls = some st') : Lost n st' := by
  refine (machine cfg).invariant (fun st l st' h _ hstep => ?_) h hrun
  obtain ⟨r, -, hm⟩ := move_of_step hstep
  exact h.move hm

/-- The works in flight and the completions stored have the numbers before that of the
present submit. -/
structure Behind (st : State) : Prop where
  inflight : ∀ item ∈ st.inflight, item.workSeq + st.submitting.held.toList.length ≤
    st.workSeqCounter
  signalled : ∀ w ∈ st.signalled, w.2 + st.submitting.held.toList.length ≤ st.workSeqCounter
  untouched : Untouched st

theorem Behind.init (last : Result) : Behind (start last) :=
  ⟨nofun, nofun, fun _ => rfl⟩

theorem Behind.move (h : Behind st) (hcalled : Called cfg st) (hm : Move cfg st l st' r) :
    Behind st' := by
  have hle : ∀ {n : ℕ}, n + st.submitting.held.toList.length ≤ st.workSeqCounter →
      n + st'.submitting.held.toList.length ≤ st'.workSeqCounter := by
    intro n hn
    rcases hm.held with ⟨heq, hnone | hheld⟩ | ⟨heq, hheld⟩
    · rw [heq, hnone]
      exact (Nat.le_add_right _ _).trans hn
    · rwa [heq, hheld]
    · rw [heq, hheld]
      exact Nat.succ_le_succ ((Nat.le_add_right _ _).trans hn)
  refine ⟨fun item hitem => ?_, fun w hw => ?_, h.untouched.move hm⟩
  · rcases hm.inflight hitem with hold | ⟨hs, hnone⟩
    · exact hle (h.inflight item hold)
    · have hitem := (hcalled.held item (by rw [hs]; rfl)).1
      have hseq : item.workSeq = st.workSeqCounter := congrArg WorkItem.workSeq hitem
      rw [hnone, hseq]
      rcases hm.held with ⟨heq, -⟩ | ⟨-, hheld⟩
      · exact heq.ge
      · rw [hnone] at hheld
        cases hheld
  · rcases hm.signalled h.untouched hw with hold | ⟨item, hitem, rfl⟩
    · exact hle (h.signalled w hold)
    · exact hle (h.inflight item hitem)

/-- The number of a submit that gives up is lost. -/
theorem Behind.lost (h : Behind st) (hcalled : Called cfg st) {item : WorkItem}
    (hheld : st.submitting.held = some item) : Lost item.workSeq st.leave := by
  have hseq : item.workSeq = st.workSeqCounter :=
    congrArg WorkItem.workSeq (hcalled.held item hheld).1
  refine ⟨hseq.le, nofun, fun other hother => ?_, fun w hw => ?_, h.untouched⟩
  · have hlt := h.inflight other hother
    rw [hheld] at hlt
    rw [hseq]
    exact Nat.ne_of_lt hlt
  · have hlt := h.signalled w hw
    rw [hheld] at hlt
    rw [hseq]
    exact Nat.ne_of_lt hlt

/-! ## Every wait has a work -/

/-- The work whose wait the user's stream has, but which is not queued yet. -/
def Submitting.committed : Submitting → Option WorkItem
  | .preparing item [.recordWaitDone _] | .prepared item => some item
  | _ => none

/-- The work whose slot has been checked. -/
def Submitting.checked : Submitting → Option WorkItem
  | .preparing item _ | .prepared item => some item
  | _ => none

/-- What is left of `prepareUserWait`: the wait comes last but one. -/
def Shape (item : WorkItem) (calls : List Call) : Prop :=
  calls = [.recordWaitDone item.slot] ∨
    ∃ front c, calls = front ++ [c, .recordWaitDone item.slot] ∧ c.wait? = some item.wait ∧
      ∀ c' ∈ front, c'.wait? = none

variable (cfg) in
structure Accounted (st : State) : Prop where
  covered : ∀ w ∈ st.waits, w ∈ st.signalled ∨ (∃ item ∈ st.inflight, item.wait = w) ∨
    ∃ item, st.submitting.committed = some item ∧ item.wait = w
  valid : ∀ item, item ∈ st.inflight ∨ st.submitting.checked = some item →
    validSlot cfg item.slot = true ∧ item.workSeq ≠ 0
  finished : st.worker = .finishing .success → st.current.wait ∈ st.signalled

theorem Accounted.init (last : Result) : Accounted cfg (start last) := by
  refine ⟨nofun, fun item hitem => ?_, nofun⟩
  rcases hitem with hitem | hitem <;> cases hitem

/-- The completion stores all succeed, and the submit does not fail once the user's stream
has its wait; a submit that drains does not give up on a thread that has ended. -/
def Config.noLostWait (cfg : Config) (st : State) : Label → Bool
  | .device ok => ok || decide (st.submitting.committed = none)
  | .signal ok => cfg.useStreamMemOps || ok
  | .setDevice _ failed | .finish failed => cfg.useStreamMemOps || failed.isEmpty
  | .drained syncOk => decide (st.worker ≠ .ended) || (decide (st.lastResult = .success) && syncOk)
  | .drainTimeout => decide (st.worker ≠ .ended)
  | _ => true

/-- All that is given up is signalled. -/
theorem signalled_of_abandoned (h : Accounted cfg st) {result : Result} {failed : List ℕ}
    (hok : (cfg.useStreamMemOps || failed.isEmpty) = true) (herror : result ≠ .success)
    {item : WorkItem} (hitem : item ∈ st.inflight) :
    item.wait ∈ (finishCurrentWork cfg st result failed).signalled := by
  have hvalid := h.valid item (Or.inl hitem)
  have habandoned : item ∈ st.abandoned := by
    unfold State.abandoned
    unfold State.inflight at hitem
    split at hitem
    · rcases List.mem_cons.1 hitem with rfl | hitem
      · rw [if_neg hvalid.2]
        exact List.mem_cons_self
      · split
        · exact hitem
        · exact List.mem_cons_of_mem _ hitem
    · split
      · exact hitem
      · exact List.mem_cons_of_mem _ hitem
  have hsignal : signalOk cfg item (decide (item.workSeq ∉ failed)) = true := by
    rw [Bool.or_eq_true, List.isEmpty_iff] at hok
    rcases hok with hok | rfl <;> simp [signalOk, hvalid.1, *]
  rw [finishCurrentWork, if_neg herror]
  refine List.mem_append_right _ (List.mem_map.2 ⟨item, ?_, rfl⟩)
  exact List.mem_filter.2 ⟨habandoned, hsignal⟩

theorem Shape.prepareCalls (cfg : Config) (recorded : Bool) (item : WorkItem) :
    Shape item (prepareCalls cfg recorded item) := by
  right
  cases hops : cfg.useStreamMemOps
  · refine ⟨(if recorded then [.waitReuse item.slot] else []) ++
      [.clearReady item.slot item.workSeq, .clearFlag item.slot, .recordReset item.slot,
        .waitReset item.slot], .launchKernel item.slot item.workSeq, ?_, rfl, ?_⟩
    · simp [Submission.prepareCalls, hops]
    · cases recorded <;> simp [Call.wait?]
  · refine ⟨(if recorded then [.waitReuse item.slot] else []) ++
      [.clearReady item.slot item.workSeq, .recordReset item.slot, .waitReset item.slot,
        .writeReady item.slot item.workSeq], .waitComplete item.slot item.workSeq, ?_, rfl, ?_⟩
    · simp [Submission.prepareCalls, hops]
    · cases recorded <;> simp [Call.wait?]

/-- The next call is the last, gives the wait, or neither. -/
theorem Shape.cons {item : WorkItem} {c : Call} {rest : List Call} (h : Shape item (c :: rest)) :
    (c = .recordWaitDone item.slot ∧ rest = []) ∨
    (c.wait? = some item.wait ∧ rest = [.recordWaitDone item.slot]) ∨
    (c.wait? = none ∧ 2 ≤ rest.length ∧ Shape item rest) := by
  rcases h with h | ⟨front, c', h, hwait, hfront⟩
  · simp only [List.cons.injEq] at h
    exact Or.inl h
  · cases front with
    | nil =>
      simp only [List.nil_append, List.cons.injEq] at h
      obtain ⟨rfl, rfl⟩ := h
      exact Or.inr (Or.inl ⟨hwait, rfl⟩)
    | cons a front =>
      simp only [List.cons_append, List.cons.injEq] at h
      obtain ⟨rfl, rfl⟩ := h
      refine Or.inr (Or.inr ⟨hfront c List.mem_cons_self, by simp, Or.inr ⟨front, c', rfl, hwait, ?_⟩⟩)
      intro x hx
      exact hfront x (List.mem_cons_of_mem _ hx)

theorem mem_waits_append {c : Call} {w : ℕ × ℕ} :
    w ∈ (st.calls ++ [c]).filterMap Call.wait? ↔ w ∈ st.waits ∨ c.wait? = some w := by
  rw [List.filterMap_append, List.mem_append, State.waits]
  refine or_congr_right ⟨fun hw => ?_, fun hw => List.mem_filterMap.2 ⟨c, by simp, hw⟩⟩
  obtain ⟨c', hc', hw⟩ := List.mem_filterMap.1 hw
  rwa [List.mem_singleton.1 hc'] at hw

/-- How far `prepareUserWait` has come. -/
structure Prepared (st : State) : Prop where
  shape : ∀ item calls, st.submitting = .preparing item calls → Shape item calls
  /-- Before its last call it has given the wait. -/
  given : ∀ item slot, st.submitting = .preparing item [.recordWaitDone slot] →
    item.wait ∈ st.waits

theorem Prepared.of_eq (h : Prepared st) (hsubmitting : st'.submitting = st.submitting)
    (hcalls : st'.calls = st.calls) : Prepared st' := by
  refine ⟨?_, ?_⟩
  · rw [hsubmitting]
    exact h.shape
  · rw [hsubmitting, State.waits, hcalls]
    exact h.given

theorem Prepared.of_other (h : ∀ item calls, st.submitting ≠ .preparing item calls) :
    Prepared st :=
  ⟨fun item calls hs => absurd hs (h item calls), fun item _ hs => absurd hs (h item _)⟩

theorem Prepared.move (h : Prepared st) (hm : Move cfg st l st' r) : Prepared st' := by
  cases hm with
  | @prepare item recorded hs hvalid =>
    have hshape := Shape.prepareCalls cfg recorded item
    refine ⟨fun item' calls hc => ?_, fun item' slot hc => ?_⟩
    · cases hc
      exact hshape
    · -- the wait is still to be given
      have hlen : 2 ≤ (prepareCalls cfg recorded item).length := by
        unfold prepareCalls
        split <;> split <;> simp
      injection hc with _ hcalls
      rw [hcalls] at hlen
      simp at hlen
  | @device _ item c rest recorded hs =>
    have hcons := (h.shape item _ hs).cons
    refine ⟨fun item' calls hc => ?_, fun item' slot hc => ?_⟩
    · dsimp only at hc
      split at hc <;> cases hc
      rcases hcons with ⟨-, rfl⟩ | ⟨-, rfl⟩ | ⟨-, -, hshape⟩
      · exact absurd rfl ‹_›
      · exact Or.inl rfl
      · exact hshape
    · dsimp only at hc
      split at hc <;> cases hc
      rcases hcons with ⟨-, hnil⟩ | ⟨hwait, -⟩ | ⟨-, hlen, -⟩
      · cases hnil
      · exact mem_waits_append.2 (Or.inr hwait)
      · simp at hlen
  | threadFails | finish => exact h.of_eq (by simp) (by simp)
  | call | refuse | reserve | reject | deviceFails | push | pushCold | drained | drainTimeout =>
    exact .of_other nofun
  | _ => exact h.of_eq rfl rfl

/-- The waits are the same, and those that had a work keep it or are signalled. -/
theorem Accounted.covered_of_eq (h : Accounted cfg st) (hcalls : st'.calls = st.calls)
    (hsignalled : ∀ w ∈ st.signalled, w ∈ st'.signalled)
    (hinflight : ∀ item ∈ st.inflight, item ∈ st'.inflight ∨ item.wait ∈ st'.signalled)
    (hcommitted : ∀ item, st.submitting.committed = some item →
      st'.submitting.committed = some item ∨ item ∈ st'.inflight) :
    ∀ w ∈ st'.waits, w ∈ st'.signalled ∨ (∃ item ∈ st'.inflight, item.wait = w) ∨
      ∃ item, st'.submitting.committed = some item ∧ item.wait = w := by
  intro w hw
  have hw' : w ∈ st.waits := by rwa [State.waits, ← hcalls]
  rcases h.covered w hw' with hs | ⟨item, hitem, rfl⟩ | ⟨item, hitem, rfl⟩
  · exact Or.inl (hsignalled w hs)
  · rcases hinflight item hitem with hin | hs
    · exact Or.inr (Or.inl ⟨item, hin, rfl⟩)
    · exact Or.inl hs
  · rcases hcommitted item hitem with hc | hin
    · exact Or.inr (Or.inr ⟨item, hc, rfl⟩)
    · exact Or.inr (Or.inl ⟨item, hin, rfl⟩)

/-- A step of the submit, which gives no wait and queues nothing. -/
theorem Accounted.of_submit (h : Accounted cfg st) (hcalls : st'.calls = st.calls)
    (hinflight : st'.inflight = st.inflight) (hsignalled : st'.signalled = st.signalled)
    (hworker : st'.worker = st.worker) (hcurrent : st'.current = st.current)
    (hcommitted : ∀ item, st.submitting.committed = some item →
      st'.submitting.committed = some item)
    (hchecked : ∀ item, st'.submitting.checked = some item →
      validSlot cfg item.slot = true ∧ item.workSeq ≠ 0) : Accounted cfg st' := by
  refine ⟨h.covered_of_eq hcalls (fun w hw => hsignalled ▸ hw) (fun item hitem => ?_)
    (fun item hc => Or.inl (hcommitted item hc)), fun item hitem => ?_, ?_⟩
  · exact Or.inl (hinflight ▸ hitem)
  · rcases hitem with hitem | hitem
    · exact h.valid item (Or.inl (hinflight ▸ hitem))
    · exact hchecked item hitem
  · rw [hworker, hcurrent, hsignalled]
    exact h.finished

/-- A step of the thread. -/
theorem Accounted.of_thread (h : Accounted cfg st) (hsubmitting : st'.submitting = st.submitting)
    (hcalls : st'.calls = st.calls) (hsignalled : ∀ w ∈ st.signalled, w ∈ st'.signalled)
    (hinflight : ∀ item ∈ st.inflight, item ∈ st'.inflight ∨ item.wait ∈ st'.signalled)
    (hsub : ∀ item ∈ st'.inflight, item ∈ st.inflight)
    (hfinished : st'.worker = .finishing .success → st'.current.wait ∈ st'.signalled) :
    Accounted cfg st' := by
  refine ⟨h.covered_of_eq hcalls hsignalled hinflight (fun item hc => ?_), fun item hitem => ?_,
    hfinished⟩
  · left
    rwa [hsubmitting]
  · rw [hsubmitting] at hitem
    exact h.valid item (hitem.imp_left (hsub item))

/-- When a work is finished, every work that does not stay in flight is signalled. -/
theorem finish_inflight_or_signalled (h : Accounted cfg st) {result : Result} {failed : List ℕ}
    {worker : Worker} (hok : (cfg.useStreamMemOps || failed.isEmpty) = true)
    (hworker : (st.worker = .starting ∧ result ≠ .success) ∨ st.worker = .finishing result)
    (hidle : worker = .idle ∨ worker = .ended) {item : WorkItem} (hitem : item ∈ st.inflight) :
    item ∈ ({ finishCurrentWork cfg st result failed with worker := worker } : State).inflight ∨
      item.wait ∈ (finishCurrentWork cfg st result failed).signalled := by
  by_cases hresult : result = .success
  · subst hresult
    have hfinishing : st.worker = .finishing .success := by
      rcases hworker with ⟨-, hne⟩ | hw
      · exact absurd rfl hne
      · exact hw
    simp only [State.inflight, State.busy, hfinishing, if_true, List.mem_cons] at hitem
    rcases hitem with rfl | hitem
    · right
      exact h.finished hfinishing
    · left
      rcases hidle with rfl | rfl <;> simpa [State.inflight, State.busy, finishCurrentWork] using hitem
  · exact Or.inr (signalled_of_abandoned h hok hresult hitem)

theorem mem_signalled_finish {result : Result} {failed : List ℕ} {w : ℕ × ℕ}
    (hw : w ∈ st.signalled) : w ∈ (finishCurrentWork cfg st result failed).signalled := by
  unfold finishCurrentWork
  split
  · exact hw
  · exact List.mem_append_left _ hw

theorem Accounted.move (h : Accounted cfg st) (hcalled : Called cfg st) (hp : Prepared st)
    (hguard : cfg.noLostWait st l = true) (hm : Move cfg st l st' r) : Accounted cfg st' := by
  cases hm with
  | call hs => exact h.of_submit rfl rfl rfl rfl rfl (by simp [hs, Submitting.committed]) nofun
  | refuse hs =>
    exact h.of_submit rfl rfl rfl rfl rfl (by simp [hs, Submitting.committed]) nofun
  | reserve hs =>
    exact h.of_submit rfl rfl rfl rfl rfl (by simp [hs, Submitting.committed]) nofun
  | reject hs =>
    exact h.of_submit rfl rfl rfl rfl rfl (by simp [hs, Submitting.committed]) nofun
  | @prepare item recorded hs hvalid =>
    refine h.of_submit rfl rfl rfl rfl rfl (by simp [hs, Submitting.committed]) ?_
    intro item' hitem
    cases hitem
    obtain ⟨hitem, hcounter, -⟩ := hcalled.held item (by rw [hs]; rfl)
    refine ⟨hvalid, ?_⟩
    rw [hitem]
    show st.workSeqCounter ≠ 0
    omega
  | @device ok item c rest recorded hs =>
    have hvalid := h.valid item (Or.inr (by rw [hs]; rfl))
    have hchecked : ∀ item', (if rest = [] then Submitting.prepared item
        else .preparing item rest).checked = some item' → item' = item := by
      intro item' hitem
      split at hitem <;> cases hitem <;> rfl
    refine ⟨fun w hw => ?_, fun item' hitem => ?_, h.finished⟩
    · have hold : w ∈ st.waits → w ∈ st.signalled ∨ (∃ item ∈ st.inflight, item.wait = w) ∨
          ∃ item', (if rest = [] then Submitting.prepared item
            else .preparing item rest).committed = some item' ∧ item'.wait = w := by
        intro hw
        rcases h.covered w hw with hs' | hin | ⟨item', hc, rfl⟩
        · exact Or.inl hs'
        · exact Or.inr (Or.inl hin)
        · rw [hs] at hc
          rcases (hp.shape item _ hs).cons with ⟨rfl, rfl⟩ | ⟨-, rfl⟩ | ⟨-, hlen, -⟩
          · exact Or.inr (Or.inr ⟨item', hc, rfl⟩)
          · cases c <;> cases hc
          · rcases rest with _ | ⟨x, _ | ⟨y, rest⟩⟩
            · exact absurd hlen (by decide)
            · exact absurd hlen (by simp)
            · cases c <;> cases hc
      rcases mem_waits_append.1 hw with hold' | hnew
      · exact hold hold'
      · rcases (hp.shape item _ hs).cons with ⟨rfl, rfl⟩ | ⟨hwait, rfl⟩ | ⟨hnone, -, -⟩
        · cases hnew
        · rw [hwait] at hnew
          cases hnew
          exact Or.inr (Or.inr ⟨item, rfl, rfl⟩)
        · rw [hnone] at hnew
          cases hnew
    · rcases hitem with hitem | hitem
      · exact h.valid item' (Or.inl hitem)
      · rw [hchecked item' hitem]
        exact hvalid
  | deviceFails hs =>
    have hnone : st.submitting.committed = none := by
      simpa [Config.noLostWait] using hguard
    exact h.of_submit rfl rfl rfl rfl rfl (by simp [hnone]) nofun
  | @push item hs | @pushCold item hs =>
    have hvalid := h.valid item (Or.inr (by rw [hs]; rfl))
    refine ⟨h.covered_of_eq rfl (fun _ hw => hw) (fun x hx => ?_) (fun x hx => ?_),
      fun x hx => ?_, h.finished⟩
    · exact Or.inl (mem_inflight_push (Or.inl hx) rfl rfl rfl)
    · rw [hs] at hx
      cases hx
      have hitem : item ∈ st.inflight ∨ item = item := Or.inr rfl
      exact Or.inr (mem_inflight_push hitem rfl rfl rfl)
    · rcases hx with hx | hx
      · rcases @mem_inflight_of_push st _ item x hx rfl rfl rfl with hx | rfl
        · exact h.valid x (Or.inl hx)
        · exact hvalid
      · cases hx
  | drained hs =>
    exact h.of_submit rfl rfl rfl rfl rfl (by simp [hs, Submitting.committed]) nofun
  | drainTimeout hs =>
    exact h.of_submit rfl rfl rfl rfl rfl (by simp [hs, Submitting.committed]) nofun
  | threadFails hw =>
    refine h.of_thread (by simp) (by simp) (fun w => mem_signalled_finish) ?_ ?_ nofun
    · intro item hitem
      have herror : Result.deviceError ≠ .success := by simp
      exact finish_inflight_or_signalled h hguard (Or.inl ⟨hw, herror⟩) (Or.inr rfl) hitem
    · intro item hitem
      exact (finish_inflight (Or.inr rfl)).subset hitem
  | finish hw =>
    refine h.of_thread (by simp) (by simp) (fun w => mem_signalled_finish) ?_ ?_ nofun
    · intro item hitem
      exact finish_inflight_or_signalled h hguard (Or.inr hw) (Or.inl rfl) hitem
    · intro item hitem
      exact (finish_inflight (Or.inl rfl)).subset hitem
  | signal hw =>
    have hinflight : State.inflight { st with
        signalled := st.signalled ++ [st.current.wait]
        worker := .finishing .success } = st.inflight := by
      simp [State.inflight, State.busy, hw]
    refine h.of_thread rfl rfl (fun w => List.mem_append_left _) ?_ ?_ ?_
    · intro item hitem
      exact Or.inl (hinflight ▸ hitem)
    · intro item hitem
      exact hinflight ▸ hitem
    · intro _
      exact List.mem_append_right _ (List.mem_singleton_self _)
  | threadStarts hw | runFails hw | signalFails hw | threadEnds hw =>
    refine h.of_thread rfl rfl (fun w hw => hw) ?_ ?_ ?_
    · intro item hitem
      left
      simpa [State.inflight, State.busy, hw] using hitem
    · intro item hitem
      simpa [State.inflight, State.busy, hw] using hitem
    · intro hf
      simp_all
  | take hw hq =>
    refine h.of_thread rfl rfl (fun w hw => hw) ?_ ?_ fun h => by cases h
    · intro item hitem
      left
      simpa [State.inflight, State.busy, hw, hq] using hitem
    · intro item hitem
      simpa [State.inflight, State.busy, hw, hq] using hitem
  | idleTimeout => exact h.of_thread rfl rfl (fun w hw => hw) (fun _ hi => Or.inl hi) (fun _ hi => hi) h.finished
  | stop => exact h.of_thread rfl rfl (fun w hw => hw) (fun _ hi => Or.inl hi) (fun _ hi => hi) h.finished

/-! ## Who signals -/

variable (cfg) in
/-- What is known of a run under the guard. -/
structure Sound (st : State) : Prop where
  called : Called cfg st
  prepared : Prepared st
  accounted : Accounted cfg st
  drained : ∀ item, st.submitting = .draining item → item.wait ∈ st.signalled ∨ item ∈ st.inflight

/-- A queued work is in flight until it is signalled. -/
theorem drained_move (h : Accounted cfg st)
    (hdrained : ∀ item, st.submitting = .draining item →
      item.wait ∈ st.signalled ∨ item ∈ st.inflight)
    (hguard : cfg.noLostWait st l = true) (hm : Move cfg st l st' r) {item : WorkItem}
    (hs' : st'.submitting = .draining item) : item.wait ∈ st'.signalled ∨ item ∈ st'.inflight := by
  cases hm with
  | call | refuse | reserve | reject | prepare | deviceFails | push | drained | drainTimeout =>
    cases hs'
  | device =>
    dsimp only at hs'
    split at hs' <;> cases hs'
  | @pushCold item' =>
    cases hs'
    have hitem : item ∈ st.inflight ∨ item = item := Or.inr rfl
    exact Or.inr (mem_inflight_push hitem rfl rfl rfl)
  | threadFails hw =>
    have herror : Result.deviceError ≠ .success := nofun
    rcases hdrained item (by simpa using hs') with hsig | hin
    · exact Or.inl (mem_signalled_finish hsig)
    · exact (finish_inflight_or_signalled h hguard (Or.inl ⟨hw, herror⟩) (Or.inr rfl) hin).symm
  | finish hw =>
    rcases hdrained item (by simpa using hs') with hsig | hin
    · exact Or.inl (mem_signalled_finish hsig)
    · exact (finish_inflight_or_signalled h hguard (Or.inr hw) (Or.inl rfl) hin).symm
  | signal hw =>
    rcases hdrained item hs' with hsig | hin
    · exact Or.inl (List.mem_append_left _ hsig)
    · right
      simpa [State.inflight, State.busy, hw] using hin
  | threadStarts hw | runFails hw | signalFails hw | threadEnds hw =>
    refine (hdrained item hs').imp_right fun hin => ?_
    simpa [State.inflight, State.busy, hw] using hin
  | take hw hq =>
    refine (hdrained item hs').imp_right fun hin => ?_
    simpa [State.inflight, State.busy, hw, hq] using hin
  | idleTimeout => exact hdrained item hs'
  | stop => exact hdrained item hs'

theorem Sound.of_run {last : Result} {ls : List Label}
    (hrun : (machine cfg).runFrom cfg.noLostWait (start last) ls = some st) : Sound cfg st := by
  refine (machine cfg).invariant (fun st l st' h hguard hstep => ?_)
    ⟨Called.init last, .of_other nofun, Accounted.init last, nofun⟩ hrun
  obtain ⟨r, -, hm⟩ := move_of_step hstep
  exact ⟨h.called.move hm, h.prepared.move hm, h.accounted.move h.called h.prepared hguard hm,
    fun item hs => drained_move h.accounted h.drained hguard hm hs⟩

theorem Behind.of_run {last : Result} {ls : List Label}
    (hrun : (machine cfg).runFrom Theory.Machine.anyStep (start last) ls = some st) :
    Behind st := by
  have h := (machine cfg).invariant (I := fun st => Called cfg st ∧ Behind st)
    (fun st l st' h _ hstep => by
      obtain ⟨r, -, hm⟩ := move_of_step hstep
      exact ⟨h.1.move hm, h.2.move h.1 hm⟩) ⟨Called.init last, Behind.init last⟩ hrun
  exact h.2

theorem Prepared.of_run {last : Result} {ls : List Label}
    (hrun : (machine cfg).runFrom Theory.Machine.anyStep (start last) ls = some st) :
    Prepared st := by
  have hstart : Prepared (start last) := .of_other nofun
  refine (machine cfg).invariant (fun st l st' h _ hstep => ?_) hstart hrun
  obtain ⟨r, -, hm⟩ := move_of_step hstep
  exact h.move hm

/-- When a submit returns an error under the guard, the wait for its number is signalled, or
its work is in flight and the thread has not ended. -/
theorem Sound.error (h : Sound cfg st) (hb : Behind st)
    (hguard : cfg.noLostWait st l = true) (hm : Move cfg st l st' r) {res : Result}
    (hr : r = some res) (herror : res ≠ .success) {item : WorkItem}
    (hitem : st.submitting.item = some item) (hwait : item.wait ∈ st'.waits) :
    item.wait ∈ st'.signalled ∨ (item ∈ st'.inflight ∧ st'.worker ≠ .ended) := by
  have hnever : st.submitting.held = some item → st.submitting.committed = none →
      item.wait ∉ st.waits := by
    intro hheld hnone hw
    have hlost := hb.lost h.called hheld
    rcases h.accounted.covered _ hw with hs | ⟨other, hin, heq⟩ | ⟨other, hc, -⟩
    · exact hlost.signalled _ hs rfl
    · exact hlost.inflight other hin (congrArg Prod.snd heq)
    · rw [hnone] at hc
      cases hc
  cases hm with
  | refuse hs =>
    rw [hs] at hitem
    cases hitem
  | reject hs =>
    refine absurd hwait (hnever ?_ (by rw [hs]; rfl))
    rw [hs] at hitem ⊢
    exact hitem
  | deviceFails hs =>
    have hnone : st.submitting.committed = none := by
      simpa [Config.noLostWait] using hguard
    refine absurd hwait (hnever ?_ hnone)
    rw [hs] at hitem ⊢
    exact hitem
  | push => cases hr; exact absurd rfl herror
  | @drained ok other hs =>
    rw [hs] at hitem
    cases hitem
    rcases h.drained item hs with hsig | hin
    · exact Or.inl hsig
    · refine Or.inr ⟨hin, ?_⟩
      cases hr
      simp only [Config.noLostWait, Bool.or_eq_true, Bool.and_eq_true, decide_eq_true_eq] at hguard
      rcases hguard with hlive | ⟨hlast, hok⟩
      · exact hlive
      · rw [hlast, hok] at herror
        exact absurd rfl herror
  | @drainTimeout other hs =>
    rw [hs] at hitem
    cases hitem
    rcases h.drained item hs with hsig | hin
    · exact Or.inl hsig
    · refine Or.inr ⟨hin, ?_⟩
      show st.worker ≠ .ended
      simpa [Config.noLostWait] using hguard
  | _ => cases hr

/-- **No wait is orphaned.**  Take a run in which no submit fails once the user's stream has its
wait, in which every completion is stored, and in which no submit that drains a cold start
gives up on a thread that has ended.  When the executor is quiet, every completion a user's
stream waits for has been stored.  When a submit returns an error, the completion of its number
is not waited for, or has been stored, or its work is in flight on a thread that has not ended.
Where a submit does fail in its last call, the user's stream waits for a completion that no
continuation of the run stores. -/
theorem no_orphaned_wait (cfg : Config) {last : Result} :
    (∀ {ls : List Label} {st : State},
      (machine cfg).runFrom cfg.noLostWait (start last) ls = some st →
      (st.quiescent = true → ∀ w ∈ st.waits, w ∈ st.signalled) ∧
      ∀ l st' res item, stepResult cfg st l = some (st', some res) → res ≠ .success →
        cfg.noLostWait st l = true → st.submitting.item = some item → item.wait ∈ st'.waits →
        item.wait ∈ st'.signalled ∨ (item ∈ st'.inflight ∧ st'.worker ≠ .ended)) ∧
    ∀ {ls : List Label} {st st' : State} {item : WorkItem} {slot : ℕ},
      (machine cfg).runFrom Theory.Machine.anyStep (start last) ls = some st →
      st.submitting = .preparing item [.recordWaitDone slot] →
      step cfg st (.device false) = some st' → item.wait ∈ st'.waits ∧
      ∀ ls' st'', (machine cfg).runFrom Theory.Machine.anyStep st' ls' = some st'' →
        item.wait ∉ st''.signalled := by
  constructor
  · intro ls st hrun
    have h := Sound.of_run hrun
    have hb := Behind.of_run ((machine cfg).runFrom_mono (fun _ _ _ => rfl) hrun)
    refine ⟨fun hq w hw => ?_, fun l st' res item hres herror hguard hitem hwait => ?_⟩
    · simp only [State.quiescent, decide_eq_true_eq] at hq
      rcases h.accounted.covered w hw with hs | ⟨item, hin, -⟩ | ⟨item, hc, -⟩
      · exact hs
      · rw [hq.2] at hin
        cases hin
      · rw [hq.1] at hc
        cases hc
    · exact h.error hb hguard (.of_stepResult hres) rfl herror hitem hwait
  · intro ls st st' item slot hrun hs hstep
    have hst' : st' = st.leave := by
      simp only [step, stepResult, hs] at hstep
      cases hstep
      rfl
    subst hst'
    refine ⟨(Prepared.of_run hrun).given item slot hs, fun ls' st'' hrest hsignalled => ?_⟩
    have hlost := (Behind.of_run hrun).lost (Called.of_run hrun) (by rw [hs]; rfl)
    exact (hlost.of_run hrest).signalled _ hsignalled rfl

/-! ### A failed last call -/

/-- A submit, its work, and a submit that fails at its first event record. -/
def submitAndFail : List Label :=
  [.setDevice true []] ++ submitUpTo 7 ++ [.take, .signal true, .finish []] ++ submitUpTo 2

theorem no_orphaned_wait_fail :
    ∃ st, (machine twoSlots).runFrom twoSlots.noLostWait (start .success) submitAndFail =
        some st ∧
      st.quiescent = true ∧ st.waits = [(0, 1)] ∧ ∀ w ∈ st.waits, w ∈ st.signalled := by
  have hobs : ((machine twoSlots).runFrom twoSlots.noLostWait (start .success)
      submitAndFail).map (fun st => (st.quiescent, st.waits)) = some (true, [(0, 1)]) := by
    decide +kernel
  obtain ⟨st, hrun, hobs⟩ := Option.map_eq_some_iff.1 hobs
  simp only [Prod.mk.injEq] at hobs
  exact ⟨st, hrun, hobs.1, hobs.2, ((no_orphaned_wait twoSlots).1 hrun).1 hobs.1⟩

/-- The first submit fails to record the wait-done event and returns an error.  The executor is
quiet, and the user's stream waits for completion 1 of slot 0, which is not stored. -/
theorem orphaned_wait :
    ∃ st, (machine twoSlots).runFrom Theory.Machine.anyStep (start .success)
        ([.setDevice true []] ++ submitUpTo 6) = some st ∧
      st.quiescent = true ∧ st.waits = [(0, 1)] ∧ st.signalled = [] := by
  have hobs : ((machine twoSlots).runFrom Theory.Machine.anyStep (start .success)
      ([.setDevice true []] ++ submitUpTo 6)).map
        (fun st => (st.quiescent, st.waits, st.signalled)) = some (true, [(0, 1)], []) := by
    decide +kernel
  obtain ⟨st, hrun, hobs⟩ := Option.map_eq_some_iff.1 hobs
  simp only [Prod.mk.injEq] at hobs
  exact ⟨st, hrun, hobs⟩

end Submission
end Executor
end HyLink
