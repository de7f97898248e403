import Mathlib.Data.Rat.Floor
import HyLink.Orchestrator.Replicas
import HyLink.Theory.Rounds

/-!
# All ranks compute the same plans

The entries of the collectives are rounds of a leader and its followers: rank 0 announces the
parameter table, the others read it, and all meet at the barrier.  So every rank reads the
same announcement in its n-th collective, and from the announcements the plans follow.

* `threadStep_moves` — a step of a host thread is a step of the protocol, or none.
* `plan_agreement` — in every run, the n-th plans of two ranks are equal.
-/

namespace HyLink
namespace Orchestrator
namespace Feedback

open Theory

variable {K : Type} [Field K] [LinearOrder K] [FloorSemiring K] {cfg : Config K}

/-! ## The entries are rounds -/

/-- Where the thread stands in the round. -/
def Stage.place : Stage K → Rounds.Place
  | .readVersion _ | .readEntries _ _ | .checkVersion _ _ _ | .merge _ | .consume => .reading
  | .enterBarrier => .entering
  | .arrive m => .arriving m
  | .resetCount m => .resetting m
  | .raiseSense m => .raising m
  | .waitSense m => .waiting m
  | .planning => .leaving
  | _ => .outside

/-- The stages of rank 0 alone. -/
def Stage.leaderOnly : Stage K → Bool
  | .waitConsumed | .loadEpoch | .scanAny _ _ | .scanAll _ _ | .gather _ _ | .clear _ _ _ _
  | .advance _ _ _ | .update _ _ | .writeEntry _ | .bumpVersion | .signal => true
  | _ => false

/-- The stages of the other ranks alone. -/
def Stage.followerOnly : Stage K → Bool
  | .waitParams | .consume => true
  | _ => false

/-- Every thread is in a stage of its own. -/
def Roles (stage : ℕ → Stage K) : Prop :=
  ∀ r, ((stage r).leaderOnly → r = 0) ∧ ((stage r).followerOnly → r ≠ 0)

/-- What the protocol sees of a state. -/
def State.protocol (s : State cfg) : Rounds.State where
  place := fun r => (s.stage r).place
  done := fun r => (s.plans r).length
  announced := s.announced.length
  unread := s.paramReadCount
  arrived := s.barrierCount
  sense := s.barrierSense
  released := s.released

omit [FloorSemiring K] in
theorem place_goto (s : State cfg) (r : ℕ) (stage : Stage K) :
    (fun q => ((s.goto r stage).stage q).place) =
      Function.update (fun q => (s.stage q).place) r stage.place :=
  Function.comp_update Stage.place s.stage r stage

omit [FloorSemiring K] in
theorem protocol_goto (s : State cfg) (r : ℕ) (stage : Stage K) :
    (s.goto r stage).protocol = s.protocol.goto r stage.place := by
  unfold State.protocol Rounds.State.goto
  rw [place_goto]
  rfl

omit [FloorSemiring K] in
theorem protocol_goto_same {s : State cfg} {r : ℕ} {stage : Stage K}
    (h : (s.stage r).place = stage.place) : (s.goto r stage).protocol = s.protocol := by
  rw [protocol_goto, ← h]
  unfold Rounds.State.goto
  exact congrArg (fun place => { s.protocol with place := place }) (Function.update_eq_self r _)

omit [Field K] [LinearOrder K] [FloorSemiring K] in
theorem Roles.update {stages : ℕ → Stage K} (h : Roles stages) {r : ℕ} {stage : Stage K}
    (hl : stage.leaderOnly → r = 0) (hf : stage.followerOnly → r ≠ 0) :
    Roles (Function.update stages r stage) := by
  intro q
  by_cases hq : q = r
  · subst hq
    rw [Function.update_self]
    exact ⟨hl, hf⟩
  · rw [Function.update_of_ne hq]
    exact h q

/-- A step of a host thread keeps the roles. -/
theorem Advance.roles {s s' : State cfg} {r : ℕ} (h : Advance s r s') (hroles : Roles s.stage) :
    Roles s'.stage := by
  have hr := hroles r
  cases h
  case arrive hst =>
    apply hroles.update
    all_goals
      split <;> simp [Stage.leaderOnly, Stage.followerOnly]
  all_goals
    rename s.stage r = _ => hst
    rw [hst] at hr
    apply hroles.update
    all_goals
      simp_all [Stage.leaderOnly, Stage.followerOnly]

omit [FloorSemiring K] in
theorem move_of_stage {s s' : State cfg} (r : ℕ) (stage : Stage K)
    (h : s'.stage = Function.update s.stage r stage)
    (hm : Rounds.Move cfg.nranks s.protocol
      { s'.protocol with place := (s.protocol.goto r stage.place).place }) :
    Rounds.Move cfg.nranks s.protocol s'.protocol := by
  have hplace : (fun q => (s'.stage q).place) =
      Function.update (fun q => (s.stage q).place) r stage.place := by
    rw [h]
    exact Function.comp_update Stage.place s.stage r stage
  have heq : s'.protocol = { s'.protocol with place := (s.protocol.goto r stage.place).place } :=
    congrArg (fun place => { s'.protocol with place := place }) hplace
  exact heq ▸ hm

/-- **A step of a host thread is a step of the protocol, or the protocol sees none.** -/
theorem Advance.moves {s s' : State cfg} {r : ℕ} (h : Advance s r s') (hr : r < cfg.nranks)
    (hroles : Roles s.stage) (hs : Rounds.Sound cfg.nranks s.protocol) :
    s'.protocol = s.protocol ∨ Rounds.Move cfg.nranks s.protocol s'.protocol := by
  have hrole := hroles r
  have hmax := cfg.le_max
  have hplace : ∀ {stage : Stage K}, s.stage r = stage → s.protocol.place r = stage.place :=
    fun h => congrArg Stage.place h
  cases h
  case signal hst =>
    rw [hst] at hrole
    obtain rfl : r = 0 := hrole.1 rfl
    refine .inr (move_of_stage 0 (.readVersion 0) rfl ?_)
    have hm : Rounds.Move cfg.nranks s.protocol _ := .announce (hplace hst)
    have hlen : (s.announced ++ [s.entries.take kMaxParamEntries]).length =
      s.announced.length + 1 := by simp
    show Rounds.Move _ _ (Rounds.State.mk _ _ (s.announced ++ [_]).length _ _ _ _)
    rw [hlen]
    exact hm
  case notified hst hcount =>
    rw [hst] at hrole
    rw [protocol_goto]
    exact .inr (.start hr (hrole.2 rfl) (hplace hst) hcount)
  case mergeFirst hst hr0 =>
    subst hr0
    refine .inr (move_of_stage 0 .enterBarrier rfl ?_)
    exact .pass (hplace hst)
  case consume hst =>
    rw [hst] at hrole
    have hcount : s.paramReadCount ≠ 0 ∧ s.paramReadCount ≤ cfg.nranks := by
      have hann := hs.inside r hr (.inl (hplace hst))
      have hun := hs.unread hann
      have hlt : (List.range cfg.nranks).countP
          (fun q => q == 0 || (s.protocol.place q).consumed s.barrierSense) ≠ cfg.nranks := by
        intro hall
        have := Theory.countP_range_eq.1 hall r hr
        rw [hplace hst] at this
        simp [Stage.place, Rounds.Place.consumed, hrole.2 rfl] at this
      change s.paramReadCount + _ = cfg.nranks at hun
      constructor
      · intro hzero
        rw [hzero, Nat.zero_add] at hun
        exact hlt hun
      · omega
    have hword : (s.paramReadCount + 2 ^ 32 - 1) % 2 ^ 32 = s.paramReadCount - 1 := by omega
    rw [hword]
    refine .inr (move_of_stage r .enterBarrier rfl ?_)
    exact .consume hr (hrole.2 rfl) (hplace hst)
  case enterBarrier hst =>
    rw [protocol_goto]
    exact .inr (.enter hr (hplace hst))
  case arrive m hst =>
    have hlt : s.barrierCount < cfg.nranks :=
      (hs.counting hr (by simp [hplace hst, Stage.place])
        (by simp [hplace hst, Stage.place, Rounds.Place.last])).2
    have hword : (s.barrierCount + 1) % 2 ^ 32 = s.barrierCount + 1 := by omega
    rw [hword]
    have hm := Rounds.Move.arrive hr (hplace hst)
    by_cases hfull : s.barrierCount + 1 = cfg.nranks
    · rw [if_pos (show s.protocol.arrived + 1 = cfg.nranks from hfull)] at hm
      rw [if_pos hfull]
      exact .inr (move_of_stage r (.resetCount m) rfl hm)
    · rw [if_neg (show s.protocol.arrived + 1 ≠ cfg.nranks from hfull)] at hm
      rw [if_neg hfull]
      exact .inr (move_of_stage r (.waitSense m) rfl hm)
  case resetCount m hst =>
    refine .inr (move_of_stage r (.raiseSense m) rfl ?_)
    exact .reset hr (hplace hst)
  case raiseSense m hst =>
    refine .inr (move_of_stage r .planning rfl ?_)
    exact .raise hr (hplace hst)
  case sensed m hst hm =>
    rw [protocol_goto]
    exact .inr (.leave hr (hplace hst) hm)
  case plan key suggested plan hst hkey hsug hplan =>
    have hm := Rounds.Move.finish hr (hplace hst)
    have hdone : (fun q => (Function.update s.plans r (s.plans r ++ [plan]) q).length) =
        Function.update s.protocol.done r (s.protocol.done r + 1) := by
      have h := Function.comp_update List.length s.plans r (s.plans r ++ [plan])
      rw [List.length_append] at h
      exact h
    refine .inr (move_of_stage r (.launching plan) rfl ?_)
    show Rounds.Move _ _ (Rounds.State.mk _
      (fun q => (Function.update s.plans r (s.plans r ++ [plan]) q).length) _ _ _ _ _)
    rw [hdone]
    exact hm
  all_goals
    rename s.stage r = _ => hst
    exact .inl (protocol_goto_same (by rw [hst]; rfl))

/-! ## What a rank has -/

/-- The part of a state that belongs to one rank's thread. -/
structure RankView (cfg : Config K) where
  stage : Stage K
  cache : ParamCache K
  controller : Controller cfg.algo
  plans : List Plan

def State.view (s : State cfg) (r : ℕ) : RankView cfg :=
  ⟨s.stage r, s.cache r, s.controller r, s.plans r⟩

/-- The cache of a rank that only reads, in round `n` after the rounds of `rep`. -/
def followerCache (announced : List (Entries K)) (rep : Replica cfg) (n : ℕ) (cache : ParamCache K) :
    Stage K → Prop
  | .checkVersion _ _ snapshot | .merge snapshot =>
    cache = rep.cache ∧ announced[n]? = some snapshot
  | .consume | .enterBarrier | .arrive _ | .resetCount _ | .raiseSense _ | .waitSense _
  | .planning => ∃ snapshot, announced[n]? = some snapshot ∧ cache = mergeAll rep.cache snapshot
  | .launching plan => cache = rep.cache ∧ rep.plans.getLast? = some plan
  | _ => cache = rep.cache

/-- **A rank that only reads is where the announcements lead.** -/
structure FollowerOk (announced : List (Entries K)) (v : RankView cfg) : Prop where
  plans : v.plans = (Replica.after cfg (announced.take v.plans.length)).plans
  controller : v.controller = (Replica.after cfg (announced.take v.plans.length)).controller
  cache : followerCache announced (Replica.after cfg (announced.take v.plans.length))
    v.plans.length v.cache v.stage

/-- Rank 0's cache and controller; `entries` is the table as a reader takes it. -/
def leaderCache (fo : cfg.algo.Following cfg.planner) (announced : List (Entries K))
    (entries : Entries K) (rep : Replica cfg) (n : ℕ) (cache : ParamCache K)
    (controller : Controller cfg.algo) : Stage K → Prop
  | .writeEntry key =>
    ∃ v, cache = Table.set rep.cache key v ∧ Tracks fo cache rep.controller controller
  | .bumpVersion | .signal =>
    mergeAll cache entries = mergeAll rep.cache entries ∧
      Tracks fo (mergeAll rep.cache entries) rep.controller controller
  | .readVersion _ | .readEntries _ _ =>
    announced[n]? = some entries ∧ mergeAll cache entries = mergeAll rep.cache entries ∧
      Tracks fo (mergeAll rep.cache entries) rep.controller controller
  | .checkVersion _ _ snapshot | .merge snapshot =>
    snapshot = entries ∧ announced[n]? = some entries ∧
      mergeAll cache entries = mergeAll rep.cache entries ∧
      Tracks fo (mergeAll rep.cache entries) rep.controller controller
  | .consume | .enterBarrier | .arrive _ | .resetCount _ | .raiseSense _ | .waitSense _
  | .planning =>
    announced[n]? = some entries ∧ cache = mergeAll rep.cache entries ∧
      Tracks fo cache rep.controller controller
  | .launching plan =>
    cache = rep.cache ∧ Tracks fo rep.cache rep.controller controller ∧
      Tracks fo (mergeAll rep.cache entries) rep.controller controller ∧
      rep.plans.getLast? = some plan
  | _ =>
    cache = rep.cache ∧ Tracks fo rep.cache rep.controller controller ∧
      Tracks fo (mergeAll rep.cache entries) rep.controller controller

/-- **Rank 0 tracks the ranks that only read.** -/
structure LeaderOk (fo : cfg.algo.Following cfg.planner) (announced : List (Entries K))
    (entries : Entries K) (v : RankView cfg) : Prop where
  plans : v.plans = (Replica.after cfg (announced.take v.plans.length)).plans
  cache : leaderCache fo announced entries
    (Replica.after cfg (announced.take v.plans.length)) v.plans.length v.cache v.controller v.stage

/-- **What holds in every state.** -/
structure Agrees (fo : cfg.algo.Following cfg.planner) (s : State cfg) : Prop where
  sound : Rounds.Sound cfg.nranks s.protocol
  roles : Roles s.stage
  leader : LeaderOk fo s.announced (s.entries.take kMaxParamEntries) (s.view 0)
  followers : ∀ r < cfg.nranks, r ≠ 0 → FollowerOk s.announced (s.view r)
  /-- As long as the last announcement is read, the table is what was announced. -/
  table : s.announced.length = s.released + 1 →
    s.announced.getLast? = some (s.entries.take kMaxParamEntries)

variable {fo : cfg.algo.Following cfg.planner}

/-- A further announcement does not change what a rank has read. -/
theorem FollowerOk.append {announced : List (Entries K)} {v : RankView cfg}
    (h : FollowerOk announced v) (hle : v.plans.length ≤ announced.length) (e : Entries K) :
    FollowerOk (announced ++ [e]) v := by
  have htake : (announced ++ [e]).take v.plans.length = announced.take v.plans.length :=
    List.take_append_of_le_length hle
  have hget : ∀ {x : Entries K}, announced[v.plans.length]? = some x →
      (announced ++ [e])[v.plans.length]? = some x := by
    intro x hx
    have hlt := (List.getElem?_eq_some_iff.1 hx).1
    rw [List.getElem?_append_left hlt]
    exact hx
  refine ⟨?_, ?_, ?_⟩
  · rw [htake]
    exact h.plans
  · rw [htake]
    exact h.controller
  · rw [htake]
    have hc := h.cache
    cases hst : v.stage <;> rw [hst] at hc
    case checkVersion retry version snapshot => exact ⟨hc.1, hget hc.2⟩
    case merge snapshot => exact ⟨hc.1, hget hc.2⟩
    case consume | enterBarrier | arrive | resetCount | raiseSense | waitSense | planning =>
      obtain ⟨snapshot, hs, hm⟩ := hc
      exact ⟨snapshot, hget hs, hm⟩
    all_goals exact hc

/-! ## Every step keeps it -/

/-- What a thread does to the ranks' own parts, seen from another rank. -/
theorem Advance.view_ne {s s' : State cfg} {r q : ℕ} (h : Advance s r s') (hq : q ≠ r) :
    s'.view q = s.view q := by
  cases h <;> simp [State.view, State.goto, Function.update_of_ne hq]

/-- Only rank 0 announces or writes the table. -/
theorem Advance.shared {s s' : State cfg} {r : ℕ} (h : Advance s r s') (hroles : Roles s.stage)
    (hr : r ≠ 0) : s'.announced = s.announced ∧ s'.entries = s.entries := by
  have hrole := (hroles r).1
  cases h
  case writeEntry hst =>
    rw [hst] at hrole
    exact absurd (hrole rfl) hr
  case signal hst =>
    rw [hst] at hrole
    exact absurd (hrole rfl) hr
  all_goals exact ⟨rfl, rfl⟩

/-- The announcement a rank reads is the last one. -/
theorem Agrees.reading {s : State cfg} (h : Agrees fo s) {r : ℕ} (hr : r < cfg.nranks)
    (hp : (s.stage r).place = .reading) :
    s.announced[(s.plans r).length]? = some (s.entries.take kMaxParamEntries) := by
  have hlen : s.announced.length = (s.plans r).length + 1 := h.sound.reading_announced hr hp
  have htable := h.table (h.sound.inside r hr (.inl hp))
  rw [List.getLast?_eq_getElem?, hlen, Nat.add_sub_cancel] at htable
  exact htable

/-- A rank that only reads has planned. -/
theorem planned {announced : List (Entries K)} {cache : ParamCache K}
    {controller : Controller cfg.algo} {plans : List Plan} {snapshot : Entries K} {key : OpKey}
    {suggested : K × Controller cfg.algo} {plan : Plan}
    (hround : Replica.after cfg (announced.take (plans.length + 1)) =
      (Replica.after cfg (announced.take plans.length)).round snapshot)
    (hplans : plans = (Replica.after cfg (announced.take plans.length)).plans)
    (hcontroller : controller = (Replica.after cfg (announced.take plans.length)).controller)
    (hcache : cache = mergeAll (Replica.after cfg (announced.take plans.length)).cache snapshot)
    (hkey : key = cfg.opKey plans.length)
    (hsug : suggested = controller.suggestAlpha key cache)
    (hplan : plan = createPlan cfg.planner key.bytes suggested.1 (cache.lookup key).usePcie) :
    FollowerOk announced (⟨.launching plan, cache, suggested.2, plans ++ [plan]⟩ : RankView cfg) := by
  generalize hrep : Replica.after cfg (announced.take plans.length) = rep at *
  have hlen : (plans ++ [plan]).length = plans.length + 1 := List.length_append
  have hplan' : plan = Replica.plan cfg rep.plans.length (mergeAll rep.cache snapshot)
      rep.controller := by
    rw [hplan, hsug, hkey, hcache, hcontroller, hplans]
    rfl
  refine ⟨?_, ?_, ?_⟩
  · show plans ++ [plan] = (Replica.after cfg (announced.take (plans ++ [plan]).length)).plans
    rw [hlen, hround, hplan']
    exact congrArg (· ++ [_]) hplans
  · show suggested.2 =
      (Replica.after cfg (announced.take (plans ++ [plan]).length)).controller
    rw [hlen, hround, hsug, hkey, hcache, hcontroller, hplans]
    rfl
  · show cache = (Replica.after cfg (announced.take (plans ++ [plan]).length)).cache ∧
      (Replica.after cfg (announced.take (plans ++ [plan]).length)).plans.getLast? = some plan
    rw [hlen, hround, hplan']
    exact ⟨hcache, List.getLast?_concat⟩

omit [FloorSemiring K] in
/-- The view of a rank whose thread only goes on. -/
theorem view_goto (s : State cfg) (r : ℕ) (stage : Stage K) :
    (s.goto r stage).view r = { s.view r with stage := stage } := by
  simp [State.view, State.goto]

/-- **A thread keeps a rank that only reads where the announcements lead.** -/
theorem Advance.follower {s s' : State cfg} {r : ℕ} (h : Advance s r s') (hs : Agrees fo s)
    (hr : r < cfg.nranks) (hr0 : r ≠ 0) : FollowerOk s.announced (s'.view r) := by
  have hok := hs.followers r hr hr0
  have hrole := (hs.roles r).1
  have hcache := hok.cache
  have hgoto : ∀ {stage : Stage K}, followerCache s.announced
      (Replica.after cfg (s.announced.take (s.plans r).length)) (s.plans r).length (s.cache r)
      stage → FollowerOk s.announced ((s.goto r stage).view r) := by
    intro stage hc
    rw [view_goto]
    exact ⟨hok.plans, hok.controller, hc⟩
  change followerCache _ (Replica.after cfg (s.announced.take (s.plans r).length))
    (s.plans r).length (s.cache r) (s.stage r) at hcache
  cases h
  case readEntries hst =>
    have hread := hs.reading hr (by rw [hst]; rfl)
    rw [hst] at hcache
    exact hgoto ⟨hcache, hread⟩
  case retry hst =>
    rw [hst] at hcache
    exact hgoto hcache.1
  case merge snapshot hst hr' =>
    rw [hst] at hcache
    have hmerged : FollowerOk s.announced (⟨.consume, mergeAll (s.cache r) snapshot,
        s.controller r, s.plans r⟩ : RankView cfg) :=
      ⟨hok.plans, hok.controller, snapshot, hcache.2, congrArg (mergeAll · snapshot) hcache.1⟩
    simpa [State.view, State.goto] using hmerged
  case arrive m hst =>
    rw [hst] at hcache
    apply hgoto
    split <;> exact hcache
  case plan key suggested plan hst hkey hsug hplan =>
    rw [hst] at hcache
    obtain ⟨snapshot, hsnap, hc⟩ := hcache
    have hnext := planned (Replica.after_take_succ hsnap) hok.plans hok.controller hc hkey hsug
      hplan
    simpa [State.view, State.goto] using hnext
  case launch plan seq hst hseq hreg =>
    rw [hst] at hcache
    have hnext : FollowerOk s.announced ((s.goto r .idle).view r) := hgoto hcache.1
    exact hnext
  case launchSilent plan seq hst hseq hreg =>
    rw [hst] at hcache
    exact hgoto hcache.1
  case enterFirst hst hr' => exact absurd hr' hr0
  case mergeFirst hst hr' => exact absurd hr' hr0
  case enter hst hr' =>
    rw [hst] at hcache
    exact hgoto hcache
  case notified hst hcount =>
    rw [hst] at hcache
    exact hgoto hcache
  case readVersion hst =>
    rw [hst] at hcache
    exact hgoto hcache
  case consistent hst =>
    rw [hst] at hcache
    exact hgoto hcache
  case consume hst =>
    rw [hst] at hcache
    have hnext : FollowerOk s.announced ((s.goto r .enterBarrier).view r) := hgoto hcache
    simpa [State.view, State.goto] using hnext
  case enterBarrier hst =>
    rw [hst] at hcache
    exact hgoto hcache
  case resetCount hst =>
    rw [hst] at hcache
    exact hgoto hcache
  case raiseSense hst =>
    rw [hst] at hcache
    exact hgoto hcache
  case sensed hst hm =>
    rw [hst] at hcache
    exact hgoto hcache
  all_goals
    rename s.stage r = _ => hst
    rw [hst] at hrole
    exact absurd (hrole rfl) hr0

/-- Rank 0 has planned. -/
theorem planned_leader {announced : List (Entries K)} {entries : Entries K} {cache : ParamCache K}
    {controller : Controller cfg.algo} {plans : List Plan} {key : OpKey}
    {suggested : K × Controller cfg.algo} {plan : Plan}
    (hget : announced[plans.length]? = some entries)
    (hplans : plans = (Replica.after cfg (announced.take plans.length)).plans)
    (hcache : cache = mergeAll (Replica.after cfg (announced.take plans.length)).cache entries)
    (htracks : Tracks fo cache (Replica.after cfg (announced.take plans.length)).controller
      controller)
    (hkey : key = cfg.opKey plans.length)
    (hsug : suggested = controller.suggestAlpha key cache)
    (hplan : plan = createPlan cfg.planner key.bytes suggested.1 (cache.lookup key).usePcie) :
    LeaderOk fo announced entries
      (⟨.launching plan, cache, suggested.2, plans ++ [plan]⟩ : RankView cfg) := by
  have hround : Replica.after cfg (announced.take (plans.length + 1)) =
      (Replica.after cfg (announced.take plans.length)).round entries :=
    Replica.after_take_succ hget
  generalize hrep : Replica.after cfg (announced.take plans.length) = rep at *
  have hlen : (plans ++ [plan]).length = plans.length + 1 := List.length_append
  have hplan' : plan = Replica.plan cfg rep.plans.length (mergeAll rep.cache entries)
      rep.controller := by
    rw [← hcache, htracks.plan_eq, hplan, hsug, hkey, hplans]
    rfl
  have hnext := (htracks.suggest key).2
  have hcontroller : (rep.round entries).controller = (rep.controller.suggestAlpha key cache).2 := by
    rw [hkey, hplans, hcache]
    rfl
  refine ⟨?_, ?_⟩
  · show plans ++ [plan] = (Replica.after cfg (announced.take (plans ++ [plan]).length)).plans
    rw [hlen, hround, hplan']
    exact congrArg (· ++ [_]) hplans
  · show leaderCache fo announced entries
      (Replica.after cfg (announced.take (plans ++ [plan]).length)) (plans ++ [plan]).length cache
      suggested.2 (.launching plan)
    rw [hlen, hround, hsug]
    have hmerged : (rep.round entries).cache = cache := hcache.symm
    have hagain : mergeAll cache entries = cache := by rw [hcache, mergeAll_mergeAll]
    refine ⟨hcache, ?_, ?_, ?_⟩
    · rw [hmerged, hcontroller]
      exact hnext
    · rw [hmerged, hagain, hcontroller]
      exact hnext
    · rw [hplan']
      exact List.getLast?_concat

/-- **A thread keeps rank 0 tracking the others.** -/
theorem Advance.leader {s s' : State cfg} (h : Advance s 0 s') (hs : Agrees fo s) :
    LeaderOk fo s'.announced (s'.entries.take kMaxParamEntries) (s'.view 0) := by
  have hok := hs.leader
  have hn : 0 < cfg.nranks := Nat.lt_of_lt_of_le Nat.zero_lt_two cfg.two_le
  have hrole := (hs.roles 0).2
  have hplans := hok.plans
  have hcache := hok.cache
  have hgoto : ∀ {stage : Stage K}, leaderCache fo s.announced
      (s.entries.take kMaxParamEntries)
      (Replica.after cfg (s.announced.take (s.plans 0).length)) (s.plans 0).length (s.cache 0)
      (s.controller 0) stage →
      LeaderOk fo s.announced (s.entries.take kMaxParamEntries) ((s.goto 0 stage).view 0) := by
    intro stage hc
    rw [view_goto]
    exact ⟨hok.plans, hc⟩
  change leaderCache fo _ _ (Replica.after cfg (s.announced.take (s.plans 0).length))
    (s.plans 0).length (s.cache 0) (s.controller 0) (s.stage 0) at hcache
  change s.plans 0 = (Replica.after cfg (s.announced.take (s.plans 0).length)).plans at hplans
  cases h
  case update key stat hst =>
    rw [hst] at hcache
    obtain ⟨hc, htracks, -⟩ := hcache
    rw [← hc] at htracks
    have hnext : LeaderOk fo s.announced (s.entries.take kMaxParamEntries)
        (⟨.writeEntry key,
          ((s.controller 0).update cfg.planner.pcieEnabled key stat (s.cache 0)).1,
          ((s.controller 0).update cfg.planner.pcieEnabled key stat (s.cache 0)).2,
          s.plans 0⟩ : RankView cfg) := by
      refine ⟨hplans, ?_, ?_, htracks.update _ key stat⟩
      · exact Controller.updated cfg.planner.pcieEnabled stat
          (cfg.algo.update stat ((s.controller 0).getOrCreate key)) ((s.cache 0).lookup key)
      · rw [hc]
        rfl
    simpa [State.view, State.goto] using hnext
  case writeEntry key hst =>
    rw [hst] at hcache
    obtain ⟨v, hc, htracks⟩ := hcache
    have hlookup : (s.cache 0).lookup key = v := by
      rw [hc, ParamCache.lookup, Table.find_set_self]
      rfl
    have htake : List.take kMaxParamEntries [(key, (s.cache 0).lookup key)] = [(key, v)] := by
      rw [hlookup]
      rfl
    have hnext : LeaderOk fo s.announced [(key, v)]
        (⟨.bumpVersion, s.cache 0, s.controller 0, s.plans 0⟩ : RankView cfg) := by
      refine ⟨hplans, ?_, ?_⟩
      · show mergeAll (s.cache 0) [(key, v)] = mergeAll _ [(key, v)]
        rw [mergeAll_singleton, mergeAll_singleton, hc, Table.set_set]
      · rw [mergeAll_singleton]
        exact hc ▸ htracks
    show LeaderOk fo s.announced (List.take kMaxParamEntries [(key, (s.cache 0).lookup key)]) _
    rw [htake]
    simpa [State.view, State.goto] using hnext
  case signal hst =>
    rw [hst] at hcache
    have hlen : s.announced.length = (s.plans 0).length :=
      hs.sound.outside_announced hn (congrArg Stage.place hst)
    have htake : (s.announced ++ [s.entries.take kMaxParamEntries]).take (s.plans 0).length =
        s.announced.take (s.plans 0).length := List.take_append_of_le_length hlen.ge
    have hget : (s.announced ++ [s.entries.take kMaxParamEntries])[(s.plans 0).length]? =
        some (s.entries.take kMaxParamEntries) := by
      rw [← hlen]
      exact List.getElem?_concat_length
    have hnext : LeaderOk fo (s.announced ++ [s.entries.take kMaxParamEntries])
        (s.entries.take kMaxParamEntries)
        (⟨.readVersion 0, s.cache 0, s.controller 0, s.plans 0⟩ : RankView cfg) := by
      refine ⟨?_, hget, ?_⟩
      · rw [htake]
        exact hplans
      · rw [htake]
        exact hcache
    simpa [State.view, State.goto] using hnext
  case readEntries hst =>
    rw [hst] at hcache
    exact hgoto ⟨rfl, hcache⟩
  case retry hst =>
    rw [hst] at hcache
    exact hgoto hcache.2
  case mergeFirst snapshot hst hr' =>
    rw [hst] at hcache
    obtain ⟨rfl, hget, hmerge, htracks⟩ := hcache
    have hnext : LeaderOk fo s.announced (s.entries.take kMaxParamEntries)
        (⟨.enterBarrier, mergeAll (s.cache 0) (s.entries.take kMaxParamEntries), s.controller 0,
          s.plans 0⟩ : RankView cfg) := by
      refine ⟨hplans, hget, hmerge, ?_⟩
      rw [hmerge]
      exact htracks
    simpa [State.view, State.goto] using hnext
  case plan key suggested plan hst hkey hsug hplan =>
    rw [hst] at hcache
    obtain ⟨hget, hc, htracks⟩ := hcache
    have hnext := planned_leader hget hplans hc htracks hkey hsug hplan
    simpa [State.view, State.goto] using hnext
  case arrive m hst =>
    rw [hst] at hcache
    apply hgoto
    split <;> exact hcache
  case noneFound hst hi =>
    rw [hst] at hcache
    exact hgoto ⟨congrArg (mergeAll · _) hcache.1, hcache.2.2⟩
  case launch plan seq hst hseq hreg =>
    rw [hst] at hcache
    have hnext : LeaderOk fo s.announced (s.entries.take kMaxParamEntries)
        ((s.goto 0 .idle).view 0) := hgoto ⟨hcache.1, hcache.2.1, hcache.2.2.1⟩
    exact hnext
  case launchSilent plan seq hst hseq hreg =>
    rw [hst] at hcache
    exact hgoto ⟨hcache.1, hcache.2.1, hcache.2.2.1⟩
  case enter hst hr' => exact absurd rfl hr'
  case merge hst hr' => exact absurd rfl hr'
  case notified hst hcount =>
    rw [hst] at hrole
    exact absurd rfl (hrole rfl)
  case consume hst =>
    rw [hst] at hrole
    exact absurd rfl (hrole rfl)
  case advance epoch key stat hst =>
    rw [hst] at hcache
    have hnext : LeaderOk fo s.announced (s.entries.take kMaxParamEntries)
        ((s.goto 0 (.update key stat)).view 0) := hgoto hcache
    simpa [State.view, State.goto] using hnext
  case bumpVersion hst =>
    rw [hst] at hcache
    have hnext : LeaderOk fo s.announced (s.entries.take kMaxParamEntries)
        ((s.goto 0 .signal).view 0) := hgoto hcache
    simpa [State.view, State.goto] using hnext
  all_goals
    rename s.stage 0 = _ => hst
    rw [hst] at hcache
    exact hgoto hcache

/-- Rank 0 adds an announcement at most. -/
theorem Advance.announced {s s' : State cfg} {r : ℕ} (h : Advance s r s') :
    s'.announced = s.announced ∨ ∃ e, s'.announced = s.announced ++ [e] := by
  cases h
  case signal hst => exact .inr ⟨_, rfl⟩
  all_goals exact .inl rfl

/-- What is read is not written. -/
theorem Advance.table {s s' : State cfg} {r : ℕ} (h : Advance s r s') (hs : Agrees fo s)
    (hr : r < cfg.nranks) (hlen : s'.announced.length = s'.released + 1) :
    s'.announced.getLast? = some (s'.entries.take kMaxParamEntries) := by
  have hrole := (hs.roles r).1
  have hann : s.announced.length = s.released ∨ s.announced.length = s.released + 1 :=
    hs.sound.announced
  cases h
  case signal hst => exact List.getLast?_concat
  case writeEntry key hst =>
    rw [hst] at hrole
    obtain rfl : r = 0 := hrole rfl
    have hout : s.announced.length = s.released :=
      hs.sound.leader (.inl (congrArg Stage.place hst))
    change s.announced.length = s.released + 1 at hlen
    omega
  case raiseSense m hst =>
    change s.announced.length = s.released + 1 + 1 at hlen
    omega
  all_goals exact hs.table hlen

/-- **A step of a thread keeps the agreement.** -/
theorem Agrees.advance {s s' : State cfg} {r : ℕ} (hs : Agrees fo s) (hr : r < cfg.nranks)
    (h : Advance s r s') : Agrees fo s' := by
  have hn : 0 < cfg.nranks := Nat.lt_of_lt_of_le Nat.zero_lt_two cfg.two_le
  refine ⟨?_, h.roles hs.roles, ?_, ?_, h.table hs hr⟩
  · rcases h.moves hr hs.roles hs.sound with hsame | hmove
    · rw [hsame]
      exact hs.sound
    · exact hs.sound.move hn hmove
  · by_cases hr0 : r = 0
    · subst hr0
      exact h.leader hs
    · obtain ⟨hann, hent⟩ := h.shared hs.roles hr0
      rw [hann, hent, h.view_ne (Ne.symm hr0)]
      exact hs.leader
  · intro q hq hq0
    by_cases hqr : q = r
    · subst hqr
      rw [(h.shared hs.roles hq0).1]
      exact h.follower hs hq hq0
    · rw [h.view_ne hqr]
      rcases h.announced with hann | ⟨e, hann⟩
      · rw [hann]
        exact hs.followers q hq hq0
      · rw [hann]
        exact (hs.followers q hq hq0).append (hs.sound.done_le hq) e

omit [FloorSemiring K] in
/-- What a callback leaves alone. -/
theorem startCallback_frame {s s' : State cfg} {r i : ℕ} {fastTime pcieTime : K}
    (h : startCallback s r i fastTime pcieTime = some s') :
    s'.protocol = s.protocol ∧ s'.stage = s.stage ∧ s'.announced = s.announced ∧
      s'.entries = s.entries ∧ s'.released = s.released ∧ s'.view = s.view := by
  obtain ⟨p, -, rfl⟩ := Option.map_eq_some_iff.1 h
  exact ⟨rfl, rfl, rfl, rfl, rfl, rfl⟩

omit [FloorSemiring K] in
theorem callbackStep_frame {s s' : State cfg} {r i : ℕ} (h : callbackStep s r i = some s') :
    s'.protocol = s.protocol ∧ s'.stage = s.stage ∧ s'.announced = s.announced ∧
      s'.entries = s.entries ∧ s'.released = s.released ∧ s'.view = s.view := by
  obtain ⟨c, -, rfl⟩ := Option.map_eq_some_iff.1 h
  cases c.stage <;> exact ⟨rfl, rfl, rfl, rfl, rfl, rfl⟩

theorem Agrees.of_frame {s s' : State cfg} (hs : Agrees fo s)
    (h : s'.protocol = s.protocol ∧ s'.stage = s.stage ∧ s'.announced = s.announced ∧
      s'.entries = s.entries ∧ s'.released = s.released ∧ s'.view = s.view) : Agrees fo s' := by
  obtain ⟨h1, h2, h3, h4, h5, h6⟩ := h
  refine ⟨?_, ?_, ?_, ?_, ?_⟩
  · rw [h1]
    exact hs.sound
  · rw [h2]
    exact hs.roles
  · rw [h3, h4, h6]
    exact hs.leader
  · rw [h3, h6]
    exact hs.followers
  · rw [h3, h4, h5]
    exact hs.table

/-- **Every step keeps the agreement.** -/
theorem Agrees.step {s s' : State cfg} {l : Label K} (hs : Agrees fo s)
    (h : step s l = some s') : Agrees fo s' := by
  cases l with
  | thread r raced =>
    simp only [Feedback.step] at h
    split at h
    · rename_i hr
      exact hs.advance hr (threadStep_advance h)
    · cases h
  | startCallback r i fastTime pcieTime =>
    simp only [Feedback.step] at h
    split at h
    · exact hs.of_frame (startCallback_frame h)
    · cases h
  | callback r i =>
    simp only [Feedback.step] at h
    split at h
    · exact hs.of_frame (callbackStep_frame h)
    · cases h

/-- Where nobody has entered, all agree. -/
theorem Agrees.attached (fo : cfg.algo.Following cfg.planner) (slots : ℕ → StatSlot K)
    (entries : Entries K) (version : ℕ) : Agrees fo (attached cfg slots entries version) := by
  have hn : 0 < cfg.nranks := Nat.lt_of_lt_of_le Nat.zero_lt_two cfg.two_le
  refine ⟨?_, ?_, ?_, ?_, ?_⟩
  · refine ⟨fun _ _ => rfl, ?_, ?_, ?_, fun _ _ _ _ => rfl, fun _ => hn, fun _ => rfl, ?_,
      .inl rfl, ?_, fun _ => rfl⟩
    · intro r hr m hm
      rcases hm with hm | hm | hm <;> cases hm
    · intro r hr hl
      cases hl
    · intro _
      show 0 = _
      symm
      rw [List.countP_eq_zero]
      intro q _
      exact Bool.false_ne_true
    · intro r hr hin
      rcases hin with hin | hin <;> cases hin
    · intro h
      cases h
  · intro r
    exact ⟨nofun, nofun⟩
  · exact ⟨rfl, rfl, Tracks.start _, Tracks.start _⟩
  · intro r hr hr0
    exact ⟨rfl, rfl, rfl⟩
  · intro h
    cases h

/-- Every rank has computed the first plans of a rank that has read all announcements. -/
theorem Agrees.plans_prefix {s : State cfg} (hs : Agrees fo s) {r : ℕ} (hr : r < cfg.nranks) :
    s.plans r <+: (Replica.after cfg s.announced).plans := by
  have hplans : s.plans r = (Replica.after cfg (s.announced.take (s.plans r).length)).plans := by
    by_cases hr0 : r = 0
    · subst hr0
      exact hs.leader.plans
    · exact (hs.followers r hr hr0).plans
  rw [hplans]
  exact Replica.plans_take_prefix _ _

theorem Agrees.of_run [IsStrictOrderedRing K] {P : State cfg → Label K → Bool}
    {slots : ℕ → StatSlot K} {entries : Entries K} {version : ℕ} {labels : List (Label K)}
    {s : State cfg}
    (hrun : (machine cfg).runFrom P (Feedback.attached cfg slots entries version) labels =
      some s) : Agrees (cfg.algorithm.following cfg.planner) s :=
  (machine cfg).invariant (fun _ _ _ hs _ hstep => hs.step hstep) (.attached _ _ _ _) hrun

/-- **All ranks compute the same plans.**  In every run of the ranks' entries and callbacks, if
two ranks have planned their `n`-th collective, the two plans are equal. -/
theorem plan_agreement [IsStrictOrderedRing K] (cfg : Config K) (slots : ℕ → StatSlot K)
    (entries : Entries K) (version : ℕ) {labels : List (Label K)} {s : State cfg}
    (hrun : (machine cfg).runFrom Machine.anyStep (attached cfg slots entries version) labels =
      some s) {r q n : ℕ} (hr : r < cfg.nranks) (hq : q < cfg.nranks) {p p' : Plan}
    (hp : (s.plans r)[n]? = some p) (hp' : (s.plans q)[n]? = some p') : p = p' := by
  have hs := Agrees.of_run hrun
  have hget : ∀ {x : ℕ} {y : Plan}, x < cfg.nranks → (s.plans x)[n]? = some y →
      (Replica.after cfg s.announced).plans[n]? = some y := by
    intro x y hx hy
    obtain ⟨rest, hrest⟩ := hs.plans_prefix hx
    rw [← hrest, List.getElem?_append_left (List.getElem?_eq_some_iff.1 hy).1]
    exact hy
  exact Option.some.inj ((hget hr hp).symm.trans (hget hq hp'))

/-! ## Two ranks -/

/-- Two ranks with the static algorithm.  The first two collectives are large enough to be
split, the later ones are not. -/
def twoRanks : Config ℚ where
  nranks := 2
  two_le := Nat.succ_le_of_lt Nat.one_lt_two
  le_max := by decide
  planner := ⟨true, 4096, 4096⟩
  algorithm := .static (1 / 2)
  bucketBytes := fun _ => 0
  topologyHash := 1
  calls := fun seq => ⟨.allReduce, if seq < 2 then 65536 else 1024, 7, true⟩
  pcieStream := fun _ => true
  fastOnlyBwLog := false
  callback := fun _ _ => true
  fastSuccess := fun _ _ => true
  pcieSuccess := fun _ _ => true

def emptySlot : StatSlot ℚ :=
  ⟨0, ⟨.allReduce, 0, 0, 0, 0, 0⟩, ⟨0, 0, 0, 0, true, true⟩, false, 0, 0⟩

def twoRanksAttached : State twoRanks := attached twoRanks (fun _ => emptySlot) [] 0

/-- The thread of a rank takes some steps. -/
def threadSteps (r n : ℕ) : List (Label ℚ) := List.replicate n (.thread r none)

/-- A collective in whose entry rank 0 finds no stat. -/
def quietRound : List (Label ℚ) := threadSteps 0 13 ++ threadSteps 1 13 ++ threadSteps 0 3

theorem plan_agreement_pair : ∃ s p p',
    (machine twoRanks).runFrom Machine.anyStep twoRanksAttached quietRound = some s ∧
      (s.plans 0)[0]? = some p ∧ (s.plans 1)[0]? = some p' ∧ p.usePcie = true ∧ p = p' := by
  have hobs : ((machine twoRanks).runFrom Machine.anyStep twoRanksAttached quietRound).map
      (fun s => (s.plans 0, s.plans 1)) =
      some ([⟨32768, 32768, true⟩], [⟨32768, 32768, true⟩]) := by decide +kernel
  obtain ⟨s, hrun, hplans⟩ := Option.map_eq_some_iff.1 hobs
  obtain ⟨hfirst, hsecond⟩ := Prod.mk.inj hplans
  have h0 : (s.plans 0)[0]? = some ⟨32768, 32768, true⟩ := by
    rw [hfirst]
    rfl
  have h1 : (s.plans 1)[0]? = some ⟨32768, 32768, true⟩ := by
    rw [hsecond]
    rfl
  exact ⟨s, _, _, hrun, h0, h1, rfl,
    plan_agreement twoRanks (fun _ => emptySlot) [] 0 hrun (by decide) (by decide) h0 h1⟩

end Feedback
end Orchestrator
end HyLink
