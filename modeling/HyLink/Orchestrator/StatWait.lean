import HyLink.Orchestrator.PlanAgreement

/-!
# Rank 0 waits for stats that come

When rank 0 finds a stat of the current epoch it waits until every rank has one.  A rank
whose callbacks have all taken an earlier epoch and whose later collectives register none
never writes one, and the others wait for rank 0's parameters.

* `feeding` — rank 0 starts to wait only if every rank has registered more callbacks than
  have taken an earlier epoch, and no callback puts an older epoch over a stat unless
  another one is still to come.
* `aggregation_fed` — then, whenever rank 0 waits, every missing stat is still to be written
  by a callback under way or by an entry past the barrier.
* `stat_never_comes` — two ranks, a fast-only collective and a late callback: rank 0 waits
  for ever.
-/

namespace HyLink
namespace Orchestrator
namespace Feedback

open Theory

variable {K : Type} [Field K] [LinearOrder K] {cfg : Config K}

/-! ## Callbacks under way -/

/-- A callback of the rank is to load the epoch, or has loaded the current one and not
stored it. -/
def State.toStamp (s : State cfg) (r : ℕ) : Prop :=
  s.pending r ≠ [] ∨ ∃ c ∈ s.running r, c.stage = .loaded s.statEpoch

/-- A callback of the rank will write the slot in the current epoch. -/
def State.willWrite (s : State cfg) (r : ℕ) : Prop :=
  s.toStamp r ∨ ((s.slots r).epoch = s.statEpoch ∧ s.writing r = true)

/-- The callbacks a rank registers for the collectives with these plans. -/
def registrations (cfg : Config K) (r : ℕ) (plans : List Plan) : ℕ :=
  plans.zipIdx.countP fun p => cfg.registers r p.2 p.1

/-- The collective whose barrier the rank is past and which it has not launched. -/
def State.toLaunch (s : State cfg) (r : ℕ) : Option ℕ :=
  match s.stage r with
  | .waitSense m => if m = s.barrierSense then some (s.plans r).length else none
  | .planning => some (s.plans r).length
  | .launching _ => some ((s.plans r).length - 1)
  | _ => none

/-- The rank is past the barrier of a collective for which it will register a callback. -/
def State.willRegister (s : State cfg) (r : ℕ) : Prop :=
  ∃ seq plan, s.toLaunch r = some seq ∧ (s.plans 0)[seq]? = some plan ∧
    cfg.registers r seq plan = true

/-- **Every missing stat is still to come.** -/
def State.Fed (s : State cfg) : Prop :=
  ∀ epoch i, s.stage 0 = .scanAll epoch i → ∀ r < cfg.nranks,
    (s.slots r).current epoch = true ∨ s.willWrite r ∨ s.willRegister r

/-! ## The condition -/

/-- Every rank has registered more callbacks, for the collectives before rank 0's, than have
taken an epoch before the current one. -/
def State.supplied (s : State cfg) : Bool :=
  (List.range cfg.nranks).all fun r =>
    decide (s.loadsBefore r < registrations cfg r (s.plans 0))

/-- Besides the running callback `i` another one of the rank is to stamp its slot. -/
def State.anotherToStamp (s : State cfg) (r i : ℕ) : Bool :=
  !(s.pending r).isEmpty ||
    ((s.running r).eraseIdx i).any fun c => decide (c.stage = .loaded s.statEpoch)

/-- **The condition on a step.** -/
def feeding (s : State cfg) : Label K → Bool
  | .thread r _ =>
    match s.stage r with
    | .scanAny epoch i => !(decide (i < cfg.nranks) && (s.slots i).current epoch) || s.supplied
    | _ => true
  | .startCallback _ _ _ _ => true
  | .callback r i =>
    match (s.running r)[i]? with
    | some ⟨_, _, .loaded epoch⟩ =>
      decide (epoch = s.statEpoch) || decide ((s.slots r).epoch ≠ s.statEpoch) ||
        s.anotherToStamp r i
    | _ => true

/-! ## What holds in every state -/

/-- The collectives a rank has launched. -/
def State.launched (s : State cfg) (r : ℕ) : List Plan :=
  match s.stage r with
  | .launching _ => (s.plans r).dropLast
  | _ => s.plans r

/-- The epoch `ReadAllStatsAndAggregate` has loaded. -/
def Stage.epoch : Stage K → Option ℕ
  | .scanAny epoch _ | .scanAll epoch _ | .gather epoch _ | .clear epoch _ _ _
  | .advance epoch _ _ => some epoch
  | _ => none

/-- Rank 0 is taking the stats. -/
def Stage.taking : Stage K → Bool
  | .clear _ _ _ _ | .advance _ _ _ => true
  | _ => false

structure Counted (s : State cfg) : Prop where
  /-- Every registered callback is pending or has loaded an epoch. -/
  registered : ∀ r < cfg.nranks,
    s.loads r + (s.pending r).length = registrations cfg r (s.launched r)
  before : ∀ r, s.loadsBefore r ≤ s.loads r
  /-- A callback that took the current epoch leads to a stat. -/
  fresh : (s.stage 0).taking = false → ∀ r < cfg.nranks, s.loadsBefore r < s.loads r →
    (s.slots r).current s.statEpoch = true ∨ s.willWrite r
  epoch : ∀ epoch, (s.stage 0).epoch = some epoch → epoch = s.statEpoch
  waiting : ∀ epoch i, s.stage 0 = .scanAll epoch i → s.supplied = true

theorem registrations_append (r : ℕ) (plans : List Plan) (p : Plan) :
    registrations cfg r (plans ++ [p]) =
      registrations cfg r plans + if cfg.registers r plans.length p then 1 else 0 := by
  unfold registrations
  rw [List.zipIdx_append, List.countP_append, List.zipIdx_cons, List.zipIdx_nil, Nat.zero_add,
    List.countP_singleton]

/-! ## The threads keep it -/

variable [FloorSemiring K] {s s' : State cfg} {r : ℕ}

theorem Advance.stage_ne (h : Advance s r s') {q : ℕ} (hq : q ≠ r) : s'.stage q = s.stage q :=
  congrArg RankView.stage (h.view_ne hq)

theorem Advance.plans_ne (h : Advance s r s') {q : ℕ} (hq : q ≠ r) : s'.plans q = s.plans q :=
  congrArg RankView.plans (h.view_ne hq)

theorem Advance.callbacks (h : Advance s r s') : s'.loads = s.loads ∧ s'.running = s.running := by
  cases h <;> exact ⟨rfl, rfl⟩

/-- A thread adds a record at most. -/
theorem Advance.pending (h : Advance s r s') (q : ℕ) :
    s'.pending q = s.pending q ∨ ∃ x, s'.pending q = s.pending q ++ [x] := by
  cases h
  case launch plan seq hst hseq hreg =>
    by_cases hq : q = r
    · subst hq
      exact .inr ⟨_, Function.update_self _ _ _⟩
    · exact .inl (Function.update_of_ne hq _ _)
  all_goals exact .inl rfl

/-- Only rank 0, when it takes the stats, changes slots and epoch. -/
theorem Advance.quiet (h : Advance s r s') (hroles : Roles s.stage)
    (htake : (s.stage 0).taking = false) :
    s'.slots = s.slots ∧ s'.statEpoch = s.statEpoch ∧ s'.loadsBefore = s.loadsBefore := by
  have hrole := (hroles r).1
  cases h
  case clear hst hi =>
    rw [hst] at hrole
    obtain rfl := hrole rfl
    rw [hst] at htake
    cases htake
  case advance hst =>
    rw [hst] at hrole
    obtain rfl := hrole rfl
    rw [hst] at htake
    cases htake
  all_goals exact ⟨rfl, rfl, rfl⟩

/-- When rank 0 has taken the stats, no callback has loaded the new epoch. -/
theorem Advance.taken (h : Advance s r s') (htake : (s.stage 0).taking = true) :
    (s'.stage 0).taking = true ∨ s'.loadsBefore = s.loads := by
  by_cases hr : r = 0
  · subst hr
    cases h
    case clear hst hi => exact .inl (by simp [State.goto, Stage.taking])
    case cleared hst hi => exact .inl (by simp [State.goto, Stage.taking])
    case advance hst => exact .inr rfl
    all_goals
      rename s.stage 0 = _ => hst
      rw [hst] at htake
      cases htake
  · rw [h.stage_ne (Ne.symm hr)]
    exact .inl htake

/-- The collectives launched and the callbacks registered. -/
theorem Advance.registered (h : Advance s r s') (hs : Counted s)
    (hlast : ∀ plan, s.stage r = .launching plan → (s.plans r).getLast? = some plan)
    (hr : r < cfg.nranks) :
    s.loads r + (s'.pending r).length = registrations cfg r (s'.launched r) := by
  have hreg := hs.registered r hr
  have hsplit : ∀ {plan}, s.stage r = .launching plan → s.plans r = (s.plans r).dropLast ++ [plan] ∧
      (s.plans r).length - 1 = (s.plans r).dropLast.length := by
    intro plan hst
    refine ⟨?_, (List.length_dropLast).symm⟩
    exact (List.dropLast_append_getLast? plan (hlast plan hst)).symm
  cases h
  case plan key suggested plan hst hkey hsug hplan =>
    unfold State.launched at hreg ⊢
    rw [hst] at hreg
    simpa [State.goto] using hreg
  case launch plan seq hst hseq hreg' =>
    obtain ⟨hplans, hlen⟩ := hsplit hst
    unfold State.launched at hreg ⊢
    rw [hst] at hreg
    simp only [State.goto, Function.update_self, List.length_append, List.length_singleton]
    rw [hplans, registrations_append, ← hlen, ← hseq, if_pos hreg', ← hreg]
    omega
  case launchSilent plan seq hst hseq hreg' =>
    obtain ⟨hplans, hlen⟩ := hsplit hst
    unfold State.launched at hreg ⊢
    rw [hst] at hreg
    simp only [State.goto, Function.update_self]
    rw [hplans, registrations_append, ← hlen, ← hseq, if_neg (by simp [hreg']), ← hreg]
    rfl
  case arrive m hst =>
    unfold State.launched at hreg ⊢
    rw [hst] at hreg
    by_cases hfull : (s.barrierCount + 1) % 2 ^ 32 = cfg.nranks
    · rw [if_pos hfull]
      simpa [State.goto] using hreg
    · rw [if_neg hfull]
      simpa [State.goto] using hreg
  all_goals
    rename s.stage r = _ => hst
    unfold State.launched at hreg ⊢
    rw [hst] at hreg
    simpa [State.goto] using hreg

omit [FloorSemiring K] in
/-- What a rank has to write stays to be written. -/
theorem willWrite_mono {q : ℕ} (hslots : s'.slots = s.slots) (hepoch : s'.statEpoch = s.statEpoch)
    (hrunning : s'.running q = s.running q) (hpending : s.pending q ≠ [] → s'.pending q ≠ [])
    (h : (s.slots q).current s.statEpoch = true ∨ s.willWrite q) :
    (s'.slots q).current s'.statEpoch = true ∨ s'.willWrite q := by
  unfold State.willWrite State.toStamp State.writing at *
  rw [hslots, hepoch, hrunning]
  rcases h with h | (h | h) | h
  · exact .inl h
  · exact .inr (.inl (.inl (hpending h)))
  · exact .inr (.inl (.inr h))
  · exact .inr (.inr h)

omit [FloorSemiring K] in
theorem supplied_congr (hbefore : s'.loadsBefore = s.loadsBefore) (hplans : s'.plans 0 = s.plans 0) :
    s'.supplied = s.supplied := by
  unfold State.supplied
  rw [hbefore, hplans]

/-- Rank 0 starts to wait where the condition lets it, and waits on. -/
theorem Advance.waiting {raced : Option (OpKey × ExecStat K)} (h : Advance s r s')
    (hs : Counted s) (hroles : Roles s.stage) (hguard : feeding s (.thread r raced) = true)
    {epoch i : ℕ} (hst' : s'.stage 0 = .scanAll epoch i) : s'.supplied = true := by
  by_cases hr : r = 0
  · subst hr
    cases h
    case found hst hi hc =>
      have hsupplied : s.supplied = true := by simpa [feeding, hst, hi, hc] using hguard
      exact hsupplied
    case present hst hi hc => exact hs.waiting _ _ hst
    case missing hst hi hc => exact hs.waiting _ _ hst
    case arrive m hst =>
      simp only [State.goto, Function.update_self] at hst'
      split at hst' <;> cases hst'
    all_goals simp [State.goto] at hst'
  · have htake : (s.stage 0).taking = false := by
      rw [← h.stage_ne (Ne.symm hr), hst']
      rfl
    rw [h.stage_ne (Ne.symm hr)] at hst'
    rw [supplied_congr (h.quiet hroles htake).2.2 (h.plans_ne (Ne.symm hr))]
    exact hs.waiting _ _ hst'

/-- Rank 0 keeps the epoch it has loaded. -/
theorem Advance.epoch (h : Advance s r s') (hs : Counted s) (hroles : Roles s.stage) {epoch : ℕ}
    (he : (s'.stage 0).epoch = some epoch) : epoch = s'.statEpoch := by
  by_cases hr : r = 0
  · subst hr
    have hold := hs.epoch
    cases h
    case loadEpoch hst =>
      simp only [State.goto, Function.update_self, Stage.epoch, Option.some.injEq] at he
      exact he.symm
    case arrive m hst =>
      simp only [State.goto, Function.update_self] at he
      split at he <;> cases he
    all_goals
      rename s.stage 0 = _ => hst
      rw [hst] at hold
      simp only [State.goto, Function.update_self, Stage.epoch, Option.some.injEq,
        reduceCtorEq] at he
      try exact he ▸ hold _ rfl
  · rw [h.stage_ne (Ne.symm hr)] at he
    have hkeep : s'.statEpoch = s.statEpoch := by
      have hrole := (hroles r).1
      cases h
      case advance hst =>
        rw [hst] at hrole
        exact absurd (hrole rfl) hr
      all_goals rfl
    rw [hkeep]
    exact hs.epoch _ he

/-- **A step of a thread keeps the counts.** -/
theorem Counted.advance {raced : Option (OpKey × ExecStat K)} (hs : Counted s)
    (h : Advance s r s') (hroles : Roles s.stage)
    (hlast : ∀ plan, s.stage r = .launching plan → (s.plans r).getLast? = some plan)
    (hr : r < cfg.nranks) (hguard : feeding s (.thread r raced) = true) : Counted s' := by
  obtain ⟨hloads, hrunning⟩ := h.callbacks
  refine ⟨?_, ?_, ?_, fun _ => h.epoch hs hroles, fun _ _ => h.waiting hs hroles hguard⟩
  · intro q hq
    rw [hloads]
    by_cases hqr : q = r
    · subst hqr
      exact h.registered hs hlast hq
    · have hlaunched : s'.launched q = s.launched q := by
        unfold State.launched
        rw [h.stage_ne hqr, h.plans_ne hqr]
      have hpending : s'.pending q = s.pending q := by
        cases h
        case launch hst hseq hreg => exact Function.update_of_ne hqr _ _
        all_goals rfl
      rw [hlaunched, hpending]
      exact hs.registered q hq
  · intro q
    rw [hloads]
    cases h
    case advance hst => exact le_refl _
    all_goals exact hs.before q
  · intro htake' q hq hlt
    cases htake : (s.stage 0).taking with
    | true =>
      rcases h.taken htake with ht | hnew
      · rw [ht] at htake'
        cases htake'
      · rw [hnew, hloads] at hlt
        exact absurd hlt (lt_irrefl _)
    | false =>
      obtain ⟨hslots, hepoch, hbefore⟩ := h.quiet hroles htake
      rw [hbefore, hloads] at hlt
      refine willWrite_mono hslots hepoch (congrFun hrunning q) ?_ (hs.fresh htake q hq hlt)
      intro hne
      rcases h.pending q with hp | ⟨x, hp⟩
      · rw [hp]
        exact hne
      · rw [hp]
        simp

/-! ## The callbacks keep it -/

omit [FloorSemiring K]

theorem Counted.startCallback {i : ℕ} {fastTime pcieTime : K} (hs : Counted s)
    (h : startCallback s r i fastTime pcieTime = some s') : Counted s' := by
  obtain ⟨p, hp, rfl⟩ := Option.map_eq_some_iff.1 h
  have hi : i < (s.pending r).length := (List.getElem?_eq_some_iff.1 hp).1
  refine ⟨?_, ?_, ?_, hs.epoch, hs.waiting⟩
  · intro q hq
    have hreg := hs.registered q hq
    by_cases hqr : q = r
    · subst hqr
      simp only [Function.update_self, List.length_eraseIdx_of_lt hi]
      change _ = registrations cfg q (s.launched q)
      omega
    · simp only [Function.update_of_ne hqr]
      exact hreg
  · intro q
    by_cases hqr : q = r
    · subst hqr
      simp only [Function.update_self]
      exact (hs.before q).trans (Nat.le_succ _)
    · simp only [Function.update_of_ne hqr]
      exact hs.before q
  · intro htake q hq hlt
    by_cases hqr : q = r
    · subst hqr
      refine .inr (.inl (.inr ?_))
      simp only [Function.update_self]
      exact ⟨_, List.mem_append_right _ List.mem_cons_self, rfl⟩
    · simp only [Function.update_of_ne hqr] at hlt
      refine willWrite_mono (s := s) rfl rfl (Function.update_of_ne hqr _ _) ?_
        (hs.fresh htake q hq hlt)
      simp only [Function.update_of_ne hqr]
      exact id

/-- The other elements of a list. -/
theorem mem_other {α : Type} {l : List α} {i : ℕ} {x y : α} (hi : l[i]? = some x) (hy : y ∈ l)
    (hne : y ≠ x) (z : α) : y ∈ l.set i z ∧ y ∈ l.eraseIdx i := by
  obtain ⟨j, hj, rfl⟩ := List.mem_iff_getElem.1 hy
  have hij : i ≠ j := by
    rintro rfl
    exact hne (Option.some.inj ((List.getElem?_eq_getElem hj).symm.trans hi))
  constructor
  · rw [List.mem_iff_getElem?]
    exact ⟨j, by rw [List.getElem?_set_ne hij, List.getElem?_eq_getElem hj]⟩
  · exact List.mem_eraseIdx_iff_getElem.2 ⟨j, hj, hij.symm, rfl⟩

theorem store_slot (s : State cfg) (r : ℕ) (slot : StatSlot K) (cs : List (Running K)) :
    ((s.setSlot r slot).setRunning r cs).slots r = slot := Function.update_self _ _ _

theorem store_willWrite (s : State cfg) (r : ℕ) (slot : StatSlot K) (cs : List (Running K)) :
    ((s.setSlot r slot).setRunning r cs).willWrite r ↔
      (s.pending r ≠ [] ∨ ∃ c ∈ cs, c.stage = .loaded s.statEpoch) ∨
        (slot.epoch = s.statEpoch ∧ (cs.any fun c => c.stage.writing) = true) := by
  simp only [State.willWrite, State.toStamp, State.writing, State.setRunning, State.setSlot,
    Function.update_self]

/-- A callback changes its rank's slot and its own stage; what is left to check is that the
stat is still on its way. -/
theorem Counted.stored (hs : Counted s) {slot : StatSlot K} {cs : List (Running K)}
    (hfresh : (s.slots r).current s.statEpoch = true ∨ s.willWrite r →
      slot.current s.statEpoch = true ∨
        (s.pending r ≠ [] ∨ ∃ c ∈ cs, c.stage = .loaded s.statEpoch) ∨
          (slot.epoch = s.statEpoch ∧ (cs.any fun c => c.stage.writing) = true)) :
    Counted ((s.setSlot r slot).setRunning r cs) := by
  refine ⟨hs.registered, hs.before, ?_, hs.epoch, hs.waiting⟩
  intro htake q hq hlt
  have hold := hs.fresh htake q hq hlt
  by_cases hqr : q = r
  · subst hqr
    rw [store_slot, store_willWrite]
    exact hfresh hold
  · unfold State.willWrite State.toStamp State.writing at *
    simp only [State.setRunning, State.setSlot, Function.update_of_ne hqr]
    exact hold

omit [Field K] [LinearOrder K] in
/-- A running callback goes from one store to the next. -/
theorem writing_set {l : List (Running K)} {i : ℕ} {x z : Running K} (hi : l[i]? = some x)
    (hz : z.stage.writing = true) : ((l.set i z).any fun c => c.stage.writing) = true := by
  have hlt := (List.getElem?_eq_some_iff.1 hi).1
  exact List.any_eq_true.2 ⟨z, List.mem_set hlt z, hz⟩

/-- **A store of a callback keeps the counts.** -/
theorem Counted.callbackStep {i : ℕ} (hs : Counted s) (hguard : feeding s (.callback r i) = true)
    (h : callbackStep s r i = some s') : Counted s' := by
  obtain ⟨⟨seq, stat, stage⟩, hc, rfl⟩ := Option.map_eq_some_iff.1 h
  have hlt := (List.getElem?_eq_some_iff.1 hc).1
  -- a callback that is to stamp the current epoch is another one than one that is not
  have hother : stage ≠ .loaded s.statEpoch → (∃ c ∈ s.running r, c.stage = .loaded s.statEpoch) →
      ∀ z, (∃ c ∈ (s.running r).set i z, c.stage = .loaded s.statEpoch) ∧
        ∃ c ∈ (s.running r).eraseIdx i, c.stage = .loaded s.statEpoch := by
    rintro hne ⟨c, hmem, hst⟩ z
    have hcne : c ≠ ⟨seq, stat, stage⟩ := by
      rintro rfl
      exact hne hst
    obtain ⟨hset, herase⟩ := mem_other hc hmem hcne z
    exact ⟨⟨c, hset, hst⟩, c, herase, hst⟩
  cases stage with
  | loaded epoch =>
    apply hs.stored
    intro hold
    by_cases he : epoch = s.statEpoch
    · exact .inr (.inr ⟨he, writing_set hc rfl⟩)
    · have hne : CallbackStage.loaded epoch ≠ .loaded s.statEpoch :=
        fun heq => he (CallbackStage.loaded.inj heq)
      simp only [feeding, hc, he, decide_false, Bool.false_or, Bool.or_eq_true,
        decide_eq_true_eq, State.anotherToStamp, Bool.not_eq_true', List.isEmpty_eq_false_iff,
        List.any_eq_true] at hguard
      rcases hguard with hold' | hp | ⟨c, hmem, hst⟩
      · rcases hold with hcur | (hp | hload) | ⟨hep, -⟩
        · simp only [StatSlot.current, Bool.and_eq_true, decide_eq_true_eq] at hcur
          exact absurd hcur.2 hold'
        · exact .inr (.inl (.inl hp))
        · exact .inr (.inl (.inr (hother hne hload _).1))
        · exact absurd hep hold'
      · exact .inr (.inl (.inl hp))
      · exact .inr (.inl (.inr (hother hne ⟨c, List.mem_of_mem_eraseIdx hmem, hst⟩ _).1))
  | stamped =>
    apply hs.stored
    intro hold
    rcases hold with hcur | (hp | hload) | ⟨hep, -⟩
    · exact .inl hcur
    · exact .inr (.inl (.inl hp))
    · exact .inr (.inl (.inr (hother nofun hload _).1))
    · exact .inr (.inr ⟨hep, writing_set hc rfl⟩)
  | keyed =>
    apply hs.stored
    intro hold
    rcases hold with hcur | (hp | hload) | ⟨hep, -⟩
    · exact .inl hcur
    · exact .inr (.inl (.inl hp))
    · exact .inr (.inl (.inr (hother nofun hload _).1))
    · exact .inr (.inr ⟨hep, writing_set hc rfl⟩)
  | filled =>
    apply hs.stored
    intro hold
    rcases hold with hcur | (hp | hload) | ⟨hep, -⟩
    · simp only [StatSlot.current, Bool.and_eq_true] at hcur
      exact .inl (by simpa [StatSlot.current] using hcur.2)
    · exact .inr (.inl (.inl hp))
    · exact .inr (.inl (.inr (hother nofun hload ⟨seq, stat, .filled⟩).2))
    · exact .inl (by simpa [StatSlot.current] using hep)

/-! ## Whenever rank 0 waits -/

section Waiting

variable [FloorSemiring K] {fo : cfg.algo.Following cfg.planner}

/-- The plan that is launched is the last one computed. -/
theorem Agrees.launching_last (ha : Agrees fo s) (hr : r < cfg.nranks) {plan : Plan}
    (hst : s.stage r = .launching plan) : (s.plans r).getLast? = some plan := by
  by_cases hr0 : r = 0
  · subst hr0
    have hplans := ha.leader.plans
    have hcache := ha.leader.cache
    change leaderCache fo _ _ _ _ _ _ (s.stage 0) at hcache
    rw [hst] at hcache
    change s.plans 0 = _ at hplans
    rw [hplans]
    exact hcache.2.2.2
  · have hplans := (ha.followers r hr hr0).plans
    have hcache := (ha.followers r hr hr0).cache
    change followerCache _ _ _ _ (s.stage r) at hcache
    rw [hst] at hcache
    change s.plans r = _ at hplans
    rw [hplans]
    exact hcache.2

/-- Who has computed as many plans has computed the same. -/
theorem Agrees.plans_eq (ha : Agrees fo s) {q : ℕ} (hr : r < cfg.nranks) (hq : q < cfg.nranks)
    (hlen : (s.plans r).length = (s.plans q).length) : s.plans r = s.plans q :=
  (List.prefix_of_prefix_length_le (ha.plans_prefix hr) (ha.plans_prefix hq) hlen.le).eq_of_length
    hlen

/-- **Before rank 0 announces, the others have launched what rank 0 has,** but for a last
collective that they are to launch without waiting. -/
theorem Agrees.launched (ha : Agrees fo s) (hplace : (s.stage 0).place = .outside)
    (hr : r < cfg.nranks) :
    s.launched r = s.plans 0 ∨ ∃ plan, s.plans 0 = s.launched r ++ [plan] ∧
      s.toLaunch r = some (s.launched r).length := by
  have hn : 0 < cfg.nranks := Nat.zero_lt_of_lt hr
  have hlevel0 : (s.plans 0).length = s.released :=
    ha.sound.done_eq hn (by
      show ((s.stage 0).place).past s.barrierSense = false
      rw [hplace]
      rfl)
  have hpast : ((s.stage r).place).past s.barrierSense = true →
      ∃ plan, s.plans 0 = s.plans r ++ [plan] := by
    intro hp
    have hlevel : (s.plans r).length + 1 = s.released := ha.sound.done_past hr hp
    have hprefix : s.plans r <+: s.plans 0 := List.prefix_of_prefix_length_le (ha.plans_prefix hr)
      (ha.plans_prefix hn) (by omega)
    obtain ⟨rest, hrest⟩ := hprefix
    have hlen : rest.length = 1 := by
      have := congrArg List.length hrest
      rw [List.length_append] at this
      omega
    obtain ⟨plan, rfl⟩ := List.length_eq_one_iff.1 hlen
    exact ⟨plan, hrest.symm⟩
  have hlevel : ((s.stage r).place).past s.barrierSense = false → s.plans r = s.plans 0 := by
    intro hp
    have hlen : (s.plans r).length = s.released := ha.sound.done_eq hr hp
    exact ha.plans_eq hr hn (hlen.trans hlevel0.symm)
  unfold State.launched State.toLaunch
  cases hst : s.stage r
  case launching plan =>
    have hlast := ha.launching_last hr hst
    have hsame := hlevel (by rw [hst]; rfl)
    refine .inr ⟨plan, ?_, ?_⟩
    · rw [← hsame]
      exact (List.dropLast_append_getLast? plan hlast).symm
    · simp
  case planning =>
    obtain ⟨plan, hplan⟩ := hpast (by rw [hst]; rfl)
    exact .inr ⟨plan, hplan, rfl⟩
  case waitSense m =>
    by_cases hm : m = s.barrierSense
    · obtain ⟨plan, hplan⟩ := hpast (by rw [hst]; simp [Stage.place, Rounds.Place.past, hm])
      exact .inr ⟨plan, hplan, by simp [hm]⟩
    · exact .inl (hlevel (by rw [hst]; simp [Stage.place, Rounds.Place.past, hm]))
  all_goals exact .inl (hlevel (by rw [hst]; rfl))

/-- **Every missing stat is still to come** in a state with these counts. -/
theorem Counted.fed (hc : Counted s) (ha : Agrees fo s) : s.Fed := by
  intro epoch i hst r hr
  obtain rfl : epoch = s.statEpoch := hc.epoch epoch (by rw [hst]; rfl)
  have hsupplied := hc.waiting _ _ hst
  have hmore : s.loadsBefore r < registrations cfg r (s.plans 0) := by
    have := List.all_eq_true.1 hsupplied r (List.mem_range.2 hr)
    exact of_decide_eq_true this
  by_cases hloaded : s.loadsBefore r < s.loads r
  · rcases hc.fresh (by rw [hst]; rfl) r hr hloaded with hcur | hwrite
    · exact .inl hcur
    · exact .inr (.inl hwrite)
  · by_cases hp : s.pending r = []
    · -- all callbacks registered so far have taken an earlier epoch
      have hreg := hc.registered r hr
      have hbefore := hc.before r
      rw [hp, List.length_nil] at hreg
      rcases ha.launched (by rw [hst]; rfl) hr with
        hsame | ⟨plan, hplans, hlaunch⟩
      · rw [hsame] at hreg
        omega
      · rw [hplans, registrations_append] at hmore
        refine .inr (.inr ⟨_, plan, hlaunch, ?_, ?_⟩)
        · rw [hplans]
          exact List.getElem?_concat_length
        · by_contra hno
          rw [if_neg hno] at hmore
          omega
    · exact .inr (.inl (.inl (.inl hp)))

/-- What holds in every state of a run under the condition. -/
theorem Counted.step {l : Label K} (hc : Counted s) (ha : Agrees fo s)
    (hguard : feeding s l = true) (h : step s l = some s') : Counted s' := by
  cases l with
  | thread r raced =>
    simp only [Feedback.step] at h
    split at h
    · rename_i hr
      exact hc.advance (threadStep_advance h) ha.roles (fun _ => ha.launching_last hr) hr hguard
    · cases h
  | startCallback r i fastTime pcieTime =>
    simp only [Feedback.step] at h
    split at h
    · exact hc.startCallback h
    · cases h
  | callback r i =>
    simp only [Feedback.step] at h
    split at h
    · exact hc.callbackStep hguard h
    · cases h

omit [FloorSemiring K] in
theorem Counted.attached (slots : ℕ → StatSlot K) (entries : Entries K) (version : ℕ) :
    Counted (attached cfg slots entries version) := by
  refine ⟨fun _ _ => rfl, fun _ => le_refl _, ?_, ?_, ?_⟩
  · intro _ r _ hlt
    exact absurd hlt (lt_irrefl _)
  · intro epoch he
    cases he
  · intro epoch i hst
    cases hst

/-- **Rank 0 waits for stats that come.**  In every run whose steps meet the condition, in
every state where rank 0 waits for the stats of its epoch, each missing one is still to be
written. -/
theorem aggregation_fed [IsStrictOrderedRing K] (cfg : Config K) (slots : ℕ → StatSlot K)
    (entries : Entries K) (version : ℕ) {labels : List (Label K)} {s : State cfg}
    (hrun : (machine cfg).runFrom feeding (Feedback.attached cfg slots entries version) labels =
      some s) : s.Fed := by
  have h := (machine cfg).invariant
    (I := fun s => Agrees (cfg.algorithm.following cfg.planner) s ∧ Counted s)
    (fun s l s' hs hguard hstep => ⟨hs.1.step hstep, hs.2.step hs.1 hguard hstep⟩)
    ⟨.attached _ _ _ _, .attached _ _ _⟩ hrun
  exact h.2.fed h.1

end Waiting

/-! ## A late callback -/

/-- A callback of the rank from its first step to its last. -/
def callbackRun (r : ℕ) : List (Label ℚ) :=
  .startCallback r 0 1 1 :: List.replicate 4 (.callback r 0)

/-- A collective in whose entry rank 0 takes a stat of both ranks. -/
def aggregatingRound : List (Label ℚ) := threadSteps 0 24 ++ threadSteps 1 13 ++ threadSteps 0 3

/-- Rank 0 waits and rank 1's callback is pending. -/
theorem aggregation_fed_pair : ∃ s,
    (machine twoRanks).runFrom feeding twoRanksAttached
      (quietRound ++ callbackRun 0 ++ threadSteps 0 4) = some s ∧
      (s.pending 1).length = 1 ∧ s.Fed := by
  have hobs : ((machine twoRanks).runFrom feeding twoRanksAttached
      (quietRound ++ callbackRun 0 ++ threadSteps 0 4)).map (fun s => (s.pending 1).length) =
      some 1 := by decide +kernel
  obtain ⟨s, hrun, hpending⟩ := Option.map_eq_some_iff.1 hobs
  exact ⟨s, hrun, hpending, aggregation_fed twoRanks (fun _ => emptySlot) [] 0 hrun⟩

/-- Two split collectives; rank 1's callbacks both take epoch 0, of rank 0's only the first.
Rank 0 aggregates, the third collective uses the fast path alone, and rank 0's second callback
takes epoch 1. -/
def lateCallback : List (Label ℚ) :=
  quietRound ++ quietRound ++ callbackRun 0 ++ callbackRun 1 ++ callbackRun 1 ++
    aggregatingRound ++ callbackRun 0 ++ threadSteps 0 4 ++ threadSteps 1 1

/-- What is shown of a state: rank 0 waits for all, rank 1 waits for rank 0, rank 1 has a
stat; and the callbacks of rank 1. -/
def State.stuck {cfg : Config ℚ} (s : State cfg) : Bool × Bool × Bool × ℕ × ℕ :=
  (match s.stage 0 with
    | .scanAll epoch _ => decide (epoch = 1)
    | _ => false,
   match s.stage 1 with
    | .waitParams => true
    | _ => false,
   (s.slots 1).current 1, (s.pending 1).length, (s.running 1).length)

/-- **Rank 0 waits for ever.** -/
theorem stat_never_comes : ¬ ∀ labels s,
    (machine twoRanks).runFrom Machine.anyStep twoRanksAttached labels = some s → s.Fed := by
  intro hall
  have hobs : ((machine twoRanks).runFrom Machine.anyStep twoRanksAttached lateCallback).map
      State.stuck = some (true, true, false, 0, 0) := by decide +kernel
  obtain ⟨s, hrun, hstuck⟩ := Option.map_eq_some_iff.1 hobs
  have hfed := hall _ s hrun
  simp only [State.stuck, Prod.mk.injEq] at hstuck
  obtain ⟨h0, h1, hslot, hpending, hrunning⟩ := hstuck
  cases hst : s.stage 0 <;> rw [hst] at h0 <;> try cases h0
  rename_i epoch i
  obtain rfl : epoch = 1 := of_decide_eq_true h0
  have hp := List.length_eq_zero_iff.1 hpending
  have hr := List.length_eq_zero_iff.1 hrunning
  rcases hfed 1 i hst 1 (by decide) with hcur | hwrite | ⟨seq, plan, hlaunch, -⟩
  · rw [hslot] at hcur
    cases hcur
  · simp [State.willWrite, State.toStamp, State.writing, hp, hr] at hwrite
  · have hst1 : s.stage 1 = .waitParams := by
      cases h : s.stage 1 <;> rw [h] at h1 <;> first | rfl | cases h1
    rw [State.toLaunch, hst1] at hlaunch
    cases hlaunch

end Feedback
end Orchestrator
end HyLink
