import HyLink.Executor.H2HPoolRest

/-!
# The host engine from the first submission to the end of its shutdown

The completions that the workers push and the executors poll, and what both backends guarantee over
whole runs.

* `scan_returned` — a poll returns the oldest completions of the work it asks for.
* `Mail` — no completion is lost or doubled.
* `h2h_pools` — every shard is executed once, every completion is polled once, and the shutdown ends.
* `h2h_pools_missed` — a worker misses the notification of the shutdown.
-/

namespace HyLink
namespace Executor
namespace HostPools

open Theory

variable {cfg : Config} {s s' : Engine} {e n w r : ℕ} {c : Completion}

/-! ## The completions -/

/-- The completion is of the work that is polled for. -/
def Completion.isFor (owner seq : ℕ) (c : Completion) : Bool :=
  decide (c.owner = owner ∧ c.seq = seq)

theorem scan_perm (owner seq room : ℕ) (l : List Completion) :
    l.Perm ((scan owner seq room l).1 ++
      ((scan owner seq room l).2.1 ++ (scan owner seq room l).2.2)) := by
  fun_induction scan owner seq room l with
  | case1 => exact List.Perm.nil
  | case2 l => simp
  | case3 room c l _ kept returned stale heq ih =>
    rw [heq] at ih
    exact (ih.cons c).trans List.perm_middle.symm
  | case4 room c l _ kept returned stale heq _ ih =>
    rw [heq] at ih
    refine (ih.cons c).trans ?_
    rw [← List.append_assoc, ← List.append_assoc]
    exact List.perm_middle.symm
  | case5 room c l _ kept returned stale heq _ ih =>
    rw [heq] at ih
    exact ih.cons c

/-- **A poll returns the oldest completions of the work it asks for**, as many as there is room. -/
theorem scan_returned (owner seq room : ℕ) (l : List Completion) :
    (scan owner seq room l).2.1 = (l.filter (Completion.isFor owner seq)).take room := by
  fun_induction scan owner seq room l with
  | case1 => simp
  | case2 l => simp
  | case3 room c l hmatch kept returned stale heq ih =>
    rw [heq] at ih
    have hfor : c.isFor owner seq = true := decide_eq_true hmatch
    rw [List.filter_cons_of_pos hfor, List.take_succ_cons, ← ih]
  | case4 room c l hmatch kept returned stale heq _ ih =>
    rw [heq] at ih
    rw [List.filter_cons_of_neg (by simpa [Completion.isFor] using hmatch), ← ih]
  | case5 room c l hmatch kept returned stale heq _ ih =>
    rw [heq] at ih
    rw [List.filter_cons_of_neg (by simpa [Completion.isFor] using hmatch), ← ih]

/-- Only completions of older work are erased. -/
theorem scan_stale (owner seq room : ℕ) (l : List Completion) :
    ∀ c ∈ (scan owner seq room l).2.2, c.owner = owner ∧ c.seq < seq := by
  fun_induction scan owner seq room l with
  | case1 => simp
  | case2 l => simp
  | case3 room c l _ kept returned stale heq ih =>
    rw [heq] at ih
    exact ih
  | case4 room c l _ kept returned stale heq hold ih =>
    rw [heq] at ih
    intro d hd
    rcases List.mem_cons.1 hd with rfl | hd
    · exact hold
    · exact ih d hd
  | case5 room c l _ kept returned stale heq _ ih =>
    rw [heq] at ih
    exact ih

/-- The work of a submission that is not queued yet. -/
def Submitter.work : Submitter → Option Work
  | .admitted work | .ready work => some work
  | _ => none

structure Mail (cfg : Config) (s : Engine) : Prop where
  sized : ∀ x ∈ s.submitters, ∀ work, x.work = some work → 0 < work.size
  /-- A completion is pushed for a submission whose shards are all done. -/
  pushed : ∀ c ∈ s.pushed, ∃ req, s.requests[c.request]? = some req ∧ req.remaining = 0 ∧
    c.owner = req.work.owner ∧ c.seq = req.work.seq
  once : (s.pushed.map Completion.request).Nodup
  finished : cfg.backend = .ascend → ∀ r req, s.requests[r]? = some req → req.remaining = 0 →
    ∃ c ∈ s.pushed, c.request = r
  conserved : s.pushed.Perm (s.completions ++ (s.returned ++ s.dropped))
  hint : s.completions.length ≤ s.hint
  dropped : ∀ c ∈ s.dropped, s.stage = .closed ∨ c.seq < s.polled c.owner

theorem Mail.init (cfg : Config) (k : ℕ) : Mail cfg (Engine.init k) := by
  refine ⟨fun x hx work hwork => ?_, fun c hc => absurd hc List.not_mem_nil, List.nodup_nil,
    fun _ r req h => (by cases h), List.Perm.nil, Nat.le_refl 0,
    fun c hc => absurd hc List.not_mem_nil⟩
  rw [List.eq_of_mem_replicate hx] at hwork
  cases hwork

theorem Mail.setPool (h : Mail cfg s) (n : ℕ) (p : Pool Item) : Mail cfg (s.setPool n p) :=
  ⟨h.sized, h.pushed, h.once, h.finished, h.conserved, h.hint, h.dropped⟩

theorem Mail.setSubmitter (h : Mail cfg s) (e : ℕ) {x : Submitter}
    (hx : ∀ work, x.work = some work → 0 < work.size) : Mail cfg (s.setSubmitter e x) := by
  refine ⟨fun y hy work hwork => ?_, h.pushed, h.once, h.finished, h.conserved, h.hint, h.dropped⟩
  rcases List.mem_or_eq_of_mem_set hy with hy | rfl
  · exact h.sized y hy work hwork
  · exact hx work hwork

/-- **The shards of a submission are queued.** -/
theorem Mail.push (h : Mail cfg s) {work : Work} (hpos : 0 < work.size) :
    Mail cfg { s with requests := s.requests ++ [⟨work, work.size⟩] } := by
  refine ⟨h.sized, fun c hc => ?_, h.once, fun hascend r req hr hdone => ?_, h.conserved, h.hint,
    h.dropped⟩
  · obtain ⟨req, hr, hrest⟩ := h.pushed c hc
    refine ⟨req, ?_, hrest⟩
    show (s.requests ++ _)[c.request]? = _
    rw [List.getElem?_append_left (List.getElem?_eq_some_iff.1 hr).1]
    exact hr
  · rcases request_cases hr with ⟨hr, _⟩ | ⟨-, rfl⟩
    · exact h.finished hascend r req hr hdone
    · exact absurd hdone (Nat.ne_of_gt hpos)

/-- **A shard of a submission is done with**; the last one brings the completion. -/
theorem Mail.finish (h : Mail cfg s) {req : Request} (hr : s.requests[r]? = some req)
    (hpos : 0 < req.remaining) : Mail cfg (finish cfg s r req) := by
  have hlt := (List.getElem?_eq_some_iff.1 hr).1
  have hother : ∀ c ∈ s.pushed, r ≠ c.request := by
    rintro c hc rfl
    obtain ⟨req', hr', hdone, _⟩ := h.pushed c hc
    cases Option.some.inj (hr.symm.trans hr')
    exact absurd hdone (Nat.ne_of_gt hpos)
  have hpushed : ∀ c ∈ s.pushed, ∃ req',
      (s.requests.set r { req with remaining := req.remaining - 1 })[c.request]? = some req' ∧
        req'.remaining = 0 ∧ c.owner = req'.work.owner ∧ c.seq = req'.work.seq := by
    intro c hc
    obtain ⟨req', hr', hrest⟩ := h.pushed c hc
    rw [List.getElem?_set_ne (hother c hc)]
    exact ⟨req', hr', hrest⟩
  have hget : ∀ {q req'}, (s.requests.set r { req with remaining := req.remaining - 1 })[q]? =
      some req' → q ≠ r → s.requests[q]? = some req' := by
    intro q req' hq hne
    rwa [List.getElem?_set_ne hne.symm] at hq
  unfold HostPools.finish
  dsimp only
  split
  · rename_i hlast
    refine ⟨h.sized, fun c hc => ?_, ?_, fun hascend q req' hq hdone => ?_, ?_, ?_, h.dropped⟩
    · rcases List.mem_append.1 hc with hc | hc
      · exact hpushed c hc
      · obtain rfl := List.mem_singleton.1 hc
        refine ⟨_, List.getElem?_set_self hlt, ?_, rfl, rfl⟩
        show req.remaining - 1 = 0
        rw [hlast.2]
    · rw [List.map_append]
      refine List.nodup_append.2 ⟨h.once, List.nodup_singleton _, fun q hq q' hq' => ?_⟩
      obtain ⟨c, hc, rfl⟩ := List.mem_map.1 hq
      rw [List.mem_singleton.1 hq']
      exact (hother c hc).symm
    · by_cases hqr : q = r
      · exact ⟨_, List.mem_append_right _ (List.mem_singleton_self _), hqr.symm⟩
      · obtain ⟨c, hc, hcq⟩ := h.finished hascend q req' (hget hq hqr) hdone
        exact ⟨c, List.mem_append_left _ hc, hcq⟩
    · refine (List.perm_append_comm.trans (h.conserved.cons _)).trans ?_
      show List.Perm _ ((s.completions ++ [_]) ++ (s.returned ++ s.dropped))
      rw [List.append_assoc]
      exact List.perm_middle.symm
    · show (s.completions ++ [_]).length ≤ s.hint + 1
      rw [List.length_append]
      exact Nat.add_le_add_right h.hint 1
  · rename_i hnot
    refine ⟨h.sized, hpushed, h.once, fun hascend q req' hq hdone => ?_, h.conserved, h.hint,
      h.dropped⟩
    by_cases hqr : q = r
    · subst hqr
      cases Option.some.inj ((List.getElem?_set_self hlt).symm.trans hq)
      -- the counter was above zero and not one
      refine absurd ⟨hascend, ?_⟩ hnot
      have hzero : req.remaining - 1 = 0 := hdone
      omega
    · exact h.finished hascend q req' (hget hq hqr) hdone

/-- **An executor polls.** -/
theorem Mail.poll (h : Mail cfg s) (owner seq max : ℕ) : Mail cfg (poll s owner seq max) := by
  have hpolled : ∀ q, s.polled q ≤
      Function.update s.polled owner (Nat.max (s.polled owner) seq) q := by
    intro q
    by_cases hq : q = owner
    · subst hq
      rw [Function.update_self]
      exact Nat.le_max_left _ _
    · rw [Function.update_of_ne hq]
  have hdropped : ∀ c ∈ s.dropped, s.stage = .closed ∨
      c.seq < Function.update s.polled owner (Nat.max (s.polled owner) seq) c.owner :=
    fun c hc => (h.dropped c hc).imp_right fun hlt => lt_of_lt_of_le hlt (hpolled c.owner)
  unfold HostPools.poll
  dsimp only
  split
  · exact ⟨h.sized, h.pushed, h.once, h.finished, h.conserved, h.hint, hdropped⟩
  · have hperm := scan_perm owner seq max s.completions
    have hstale := scan_stale owner seq max s.completions
    generalize scan owner seq max s.completions = found at hperm hstale
    obtain ⟨kept, returned, stale⟩ := found
    dsimp only at hperm hstale
    refine ⟨h.sized, h.pushed, h.once, h.finished, ?_, ?_, fun c hc => ?_⟩
    · show s.pushed.Perm (kept ++ (s.returned ++ returned ++ (s.dropped ++ stale)))
      refine h.conserved.trans ((hperm.append_right _).trans ?_)
      apply List.perm_iff_count.2
      intro c
      simp only [List.count_append]
      omega
    · show kept.length ≤ s.hint - returned.length
      have hlength := hperm.length_eq
      rw [List.length_append, List.length_append] at hlength
      have hhint := h.hint
      omega
    · rcases List.mem_append.1 hc with hc | hc
      · exact hdropped c hc
      · obtain ⟨howner, hlt⟩ := hstale c hc
        refine .inr ?_
        show c.seq < Function.update s.polled owner (Nat.max (s.polled owner) seq) c.owner
        rw [howner, Function.update_self]
        exact lt_of_lt_of_le hlt (Nat.le_max_right _ _)

/-- A worker that has copied a shard finds the submission's counter above zero. -/
theorem Books.remaining_pos (h : Books s) {x : Item} {req : Request}
    (hw : (s.pools n).workers[w]? = some (.copied x)) (hr : s.requests[x.request]? = some req) :
    0 < req.remaining := by
  obtain ⟨req', hr', hnode, _⟩ := h.here n x (pending_of_item hw rfl)
  cases Option.some.inj (hr.symm.trans hr')
  refine lt_of_lt_of_le ?_ (h.remaining x.request req hr).1
  rw [hnode]
  refine Nat.add_pos_right _ (List.countP_pos_iff.2 ⟨_, List.mem_of_getElem? hw, ?_⟩)
  exact decide_eq_true rfl

/-- Nothing was submitted yet, when the engine is initialised again. -/
theorem Mail.restart (h : Mail cfg s) (hnone : s.requests = []) :
    Mail cfg { s with initialized := true, stop := false, stage := .running } := by
  refine ⟨h.sized, h.pushed, h.once, h.finished, h.conserved, h.hint, fun c hc => ?_⟩
  have hmem : c ∈ s.pushed := by
    refine h.conserved.mem_iff.2 ?_
    exact List.mem_append_right _ (List.mem_append_right _ hc)
  obtain ⟨req, hr, _⟩ := h.pushed c hmem
  rw [hnone] at hr
  cases hr

theorem sized_after {k : ℕ} {work : Work}
    (hwork : (if k ≤ 1 then Submitter.idle else .notifying n (k - 1)).work = some work) :
    0 < work.size := by
  split at hwork <;> cases hwork

theorem Mail.step (h : Mail cfg s) (hs : Staff cfg s) (hb : Books s) (hwithin : Within cfg s)
    {l : Label} (hcalm : Calm cfg s l = true) (hstep : step cfg s l = some s') : Mail cfg s' := by
  have hopen : ∀ {stage : Stage}, s.stage ≠ .closed → ∀ c ∈ s.dropped,
      stage = .closed ∨ c.seq < s.polled c.owner :=
    fun hne c hc => .inr ((h.dropped c hc).resolve_left hne)
  cases Step.of_step hstep with
  | started | refuse => exact h
  | start hinit =>
    by_cases hclosed : s.stage = .closed
    · exact h.restart (hs.requests_nil (hwithin.unspawned hclosed hcalm))
    · exact ⟨h.sized, h.pushed, h.once, h.finished, h.conserved, h.hint, hopen hclosed⟩
  | @submit e dst work _ _ hpos =>
    refine h.setSubmitter e fun work' hwork => ?_
    cases hwork
    exact hpos
  | @spawn e work hx =>
    refine (h.setPool _ _).setSubmitter e fun work' hwork => ?_
    exact h.sized _ (List.mem_of_getElem? hx) work' hwork
  | @push e work hx =>
    have hpos := h.sized _ (List.mem_of_getElem? hx) work rfl
    exact ((h.push hpos).setPool _ _).setSubmitter e fun work' hwork => by cases hwork
  | @publish e | @notifyPool e =>
    exact (h.setPool _ _).setSubmitter e fun work hwork => by cases hwork
  | @notifyNone e => exact h.setSubmitter e fun _ => sized_after
  | @notifyOne e => exact (h.setPool _ _).setSubmitter e fun _ => sized_after
  | @move n w l p => exact h.setPool n p
  | execute => exact ⟨h.sized, h.pushed, h.once, h.finished, h.conserved, h.hint, h.dropped⟩
  | @complete n w y req hw hr => exact (h.setPool n _).finish hr (hb.remaining_pos hw hr)
  | @spurious n => exact h.setPool n _
  | @poll owner seq max => exact h.poll owner seq max
  | shutdown _ hstage | notifyAll hstage | notified hstage | join hstage =>
    exact ⟨h.sized, h.pushed, h.once, h.finished, h.conserved, h.hint, hopen (by simp [hstage])⟩
  | close =>
    refine ⟨h.sized, h.pushed, h.once, h.finished, ?_, Nat.le_refl 0, fun _ _ => .inl rfl⟩
    -- what is still there is erased
    show s.pushed.Perm ([] ++ (s.returned ++ (s.dropped ++ s.completions)))
    refine h.conserved.trans (List.perm_append_comm.trans ?_)
    rw [List.append_assoc]
    exact List.Perm.refl _

/-! ## Whole runs -/

/-- Every submitted shard is executed once. -/
structure ShardsOnce (cfg : Config) (s : Engine) : Prop where
  atMost : ∀ y, s.executed.count y ≤ 1
  /-- Until the shutdown a shard is queued, or a worker has it, or it is executed. -/
  running : s.stage = .running → ∀ r req, s.requests[r]? = some req → ∀ i < req.work.size,
    (s.pools req.work.node).tally ⟨r, i⟩ + s.executed.count ⟨r, i⟩ = 1
  rest : s.stage = .running → AtRest cfg s → ∀ r req, s.requests[r]? = some req →
    (∀ i < req.work.size, s.executed.count ⟨r, i⟩ = 1) ∧ req.remaining = 0 ∧
      (cfg.backend = .ascend → ∃ c ∈ s.pushed, c.request = r)

/-- Every completion of current work is returned by one poll. -/
structure PolledOnce (s : Engine) : Prop where
  pushed : (s.pushed.map Completion.request).Nodup
  atMost : ∀ c, s.returned.count c ≤ 1
  /-- It waits for a poll, or one has returned it. -/
  current : ∀ c ∈ s.pushed, s.stage ≠ .closed → s.polled c.owner ≤ c.seq →
    s.completions.count c + s.returned.count c = 1
  /-- A poll returns what waits of its work, the oldest first. -/
  poll : ∀ owner seq max, (poll s owner seq max).returned =
    s.returned ++ (s.completions.filter (Completion.isFor owner seq)).take max

/-- No worker of a notified pool is blocked, or will be, and the shutdown goes on to its end. -/
structure ShutdownEnds (cfg : Config) (s : Engine) : Prop where
  woken : ∀ n, s.Notified cfg n → ∀ a ∈ (s.pools n).workers, a ≠ .parked ∧ a ≠ .deciding
  notifies : ∀ k, s.stage = .notifying k → (step cfg s .notifyAll).isSome = true
  joins : ∀ k, s.stage = .joining k → AtRest cfg s → (step cfg s .join).isSome = true

theorem Books.shardsOnce (hb : Books s) (hs : Staff cfg s) (hm : Mail cfg s) :
    ShardsOnce cfg s := by
  refine ⟨fun y => ?_, fun hrun r req hr i hi => (hb.once r req hr i).2 hrun hi,
    fun hrun hrest r req hr => ?_⟩
  · by_cases hy : y ∈ s.executed
    · have hr := List.getElem?_eq_getElem (hb.old y hy)
      exact (Nat.le_add_left _ _).trans (hb.once y.request _ hr y.shard).1
    · rw [List.count_eq_zero.2 hy]
      exact Nat.zero_le 1
  · have hpending := hrest.pending (n := req.work.node) hs hb hrun
    have hdone : req.remaining = 0 := by
      rw [← (hb.remaining r req hr).2 hrun]
      exact hpending _
    refine ⟨fun i hi => ?_, hdone, fun hascend => hm.finished hascend r req hr hdone⟩
    have htally : (s.pools req.work.node).tally ⟨r, i⟩ = 0 :=
      Nat.le_zero.1 (tally_le_pending.trans_eq (hpending _))
    have honce := (hb.once r req hr i).2 hrun hi
    rwa [htally, Nat.zero_add] at honce

theorem Mail.polledOnce (h : Mail cfg s) : PolledOnce s := by
  have hcount : ∀ c, s.pushed.count c =
      s.completions.count c + (s.returned.count c + s.dropped.count c) := by
    intro c
    rw [h.conserved.count_eq, List.count_append, List.count_append]
  have hnodup := List.Nodup.of_map _ h.once
  refine ⟨h.once, fun c => ?_, fun c hc hopen hcurrent => ?_, fun owner seq max => ?_⟩
  · have hle := List.nodup_iff_count_le_one.1 hnodup c
    rw [hcount] at hle
    omega
  · have hone := List.count_eq_one_of_mem hnodup hc
    have hkept : s.dropped.count c = 0 := by
      refine List.count_eq_zero.2 fun hdropped => ?_
      rcases h.dropped c hdropped with hclosed | hlt
      · exact hopen hclosed
      · exact absurd hlt (Nat.not_lt.2 hcurrent)
    rw [hcount, hkept] at hone
    exact hone
  · unfold HostPools.poll
    dsimp only
    split
    · rename_i hhint
      have hempty : s.completions = [] :=
        List.eq_nil_of_length_eq_zero (Nat.le_zero.1 (hhint ▸ h.hint))
      show s.returned = _
      rw [hempty, List.filter_nil, List.take_nil, List.append_nil]
    · exact congrArg (s.returned ++ ·) (scan_returned owner seq max s.completions)

theorem Staff.shutdownEnds (hs : Staff cfg s) (hb : Books s) : ShutdownEnds cfg s := by
  refine ⟨fun n hn a ha => ?_, fun k hstage => ?_, fun k hstage hrest => ?_⟩
  · obtain ⟨hparked, hdeciding⟩ := (hs.pools n).woken hn
    exact ⟨fun h => hparked (h ▸ ha), fun h => hdeciding (h ▸ ha)⟩
  · simp only [HostPools.step, hstage]
    split <;> rfl
  · by_cases hk : k < cfg.nodes
    · have hnotified : s.Notified cfg k := by
        unfold Engine.Notified
        rw [hstage]
        exact hk
      have hgone := hrest.gone hs hb hnotified
      simp only [HostPools.step, hstage, if_pos hk, if_pos hgone]
      rfl
    · simp only [HostPools.step, hstage, if_neg hk]
      rfl

/-- **The pools of the host engine.**  In every run in which no worker is about to block when the
shutdown notifies its pool, and the engine is not initialised again over pools it has lost the
workers of, every submitted shard is executed once and every completion of current work is polled
once; the threads come to rest after so many steps, and then the shutdown can join them. -/
theorem h2h_pools (cfg : Config) (executors : ℕ) {ls : List Label} {s : Engine}
    (hrun : (machine cfg).runFrom (Calm cfg) (Engine.init executors) ls = some s) :
    ShardsOnce cfg s ∧ PolledOnce s ∧ ShutdownEnds cfg s ∧
      ∀ ls' t, (machine cfg).runFrom (fun _ l => l.ofThreads) s ls' = some t →
        ls'.length ≤ s.budget cfg := by
  have hinv : (Staff cfg s ∧ Books s) ∧ Mail cfg s ∧ Within cfg s := by
    refine (machine cfg).invariant
      (I := fun s => (Staff cfg s ∧ Books s) ∧ Mail cfg s ∧ Within cfg s)
      (fun s l s' hi hcalm hstep => ?_)
      ⟨⟨Staff.init cfg executors, Books.init executors⟩, Mail.init cfg executors,
        Within.init cfg executors⟩ hrun
    obtain ⟨⟨hs, hb⟩, hm, hw⟩ := hi
    exact ⟨⟨hs.step hw hcalm hstep, hb.step hs hw hcalm hstep⟩, hm.step hs hb hw hcalm hstep,
      (budget_step hw hstep).1⟩
  obtain ⟨⟨hs, hb⟩, hm, hw⟩ := hinv
  refine ⟨hb.shardsOnce hs hm, hm.polledOnce, hs.shutdownEnds hb, fun ls' t hrest => ?_⟩
  have hcount := (machine cfg).countP_le_of_measure (I := Within cfg) (Engine.budget cfg)
    (fun _ => true) (fun s l s' hi hl hstep => (budget_step hi hstep).imp_right fun h => h hl) hw
    hrest
  rw [List.countP_true] at hcount
  exact (Nat.le_add_right _ _).trans hcount

/-- One pool with one worker. -/
def single (backend : Backend) : Config := ⟨backend, 1, 1, Nat.one_pos, Nat.one_pos⟩

/-- A copy of one shard is submitted, executed and polled, and the engine is shut down. -/
def copyAndClose : List Label :=
  [.start, .submit 0 0 ⟨0, 1, 0, 0⟩, .spawn 0, .push 0, .publish 0, .notify 0 none, .move 0 0 .peek,
    .move 0 0 (.tryLock true), .execute 0 0, .complete 0 0, .poll 0 0 1, .shutdown, .notifyAll,
    .notifyAll, .move 0 0 .peek, .move 0 0 .evaluate, .join, .join]

theorem h2h_pools_closed :
    (((machine (single .ascend)).runFrom (Calm (single .ascend)) (Engine.init 1) copyAndClose).map
      fun s => (s.executed, s.returned, s.stage)) = some ([⟨0, 0⟩], [⟨0, 0, 0⟩], .closed) ∧
    ∀ s, (machine (single .ascend)).runFrom (Calm (single .ascend)) (Engine.init 1) copyAndClose =
      some s → ShardsOnce (single .ascend) s :=
  ⟨by decide, fun _ hs => (h2h_pools (single .ascend) 1 hs).1⟩

/-- The worker has seen the queue empty and the stop flag unset, and blocks when the pool is
notified. -/
def missed : List Label :=
  [.start, .submit 0 0 ⟨0, 1, 0, 0⟩, .spawn 0, .push 0, .publish 0, .notify 0 none, .move 0 0 .peek,
    .move 0 0 .evaluate, .execute 0 0, .complete 0 0, .move 0 0 .peek, .move 0 0 .evaluate,
    .shutdown, .notifyAll, .notifyAll, .move 0 0 .block]

/-- **The notification of the shutdown is missed.**  The shutdown joins a worker that nobody wakes
up, and no thread can go on. -/
theorem h2h_pools_missed :
    ∃ s, (machine (single .cuda)).runFrom Machine.anyStep (Engine.init 1) missed = some s ∧
      s.stage = .joining 0 ∧ AtRest (single .cuda) s ∧ step (single .cuda) s .join = none ∧
      ¬ ShutdownEnds (single .cuda) s := by
  have hrun : ((machine (single .cuda)).runFrom Machine.anyStep (Engine.init 1) missed).map
      (fun s => (s.stage, s.submitters, (s.pools 0).workers)) =
        some (.joining 0, [.idle], [.parked]) := by decide
  obtain ⟨s, hs, heq⟩ := Option.map_eq_some_iff.1 hrun
  have hstage : s.stage = .joining 0 := congrArg (·.1) heq
  have hsubmitters : s.submitters = [.idle] := congrArg (·.2.1) heq
  have hworkers : (s.pools 0).workers = [.parked] := congrArg (·.2.2) heq
  have hwithin : Within (single .cuda) s :=
    (machine (single .cuda)).invariant (fun s l s' hi _ hstep => (budget_step hi hstep).1)
      (Within.init (single .cuda) 1) hs
  have hrest : AtRest (single .cuda) s := by
    refine AtRest.of_idle (fun x hx => ?_) fun n a ha => ?_
    · rw [hsubmitters] at hx
      exact List.mem_singleton.1 hx
    · cases n with
      | zero =>
        rw [hworkers] at ha
        exact .inl (List.mem_singleton.1 ha)
      | succ n =>
        rw [(hwithin.outside (n + 1) (Nat.succ_pos n)).1] at ha
        cases ha
  have hjoin : step (single .cuda) s .join = none := by
    simp [step, hstage, hworkers, single]
  refine ⟨s, hs, hstage, hrest, hjoin, fun hends => ?_⟩
  have hjoins := hends.joins 0 hstage hrest
  rw [hjoin] at hjoins
  cases hjoins

end HostPools
end Executor
end HyLink
