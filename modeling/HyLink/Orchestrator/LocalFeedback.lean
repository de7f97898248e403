import Mathlib.Data.Finset.Card
import Mathlib.Data.Rat.Floor
import HyLink.Orchestrator.StatStore
import HyLink.Theory.Replay

/-!
# Feedback without the shared store

The ranks of a communicator where `ShmParamStore::Attach` may fail: a rank that is not attached
plans from its own controller, and its completion callbacks feed it.  A rank that is attached goes
through the round of the store and its barrier; what it reads from the segment is part of the
label.

* `State.Knows` — what a rank that is not attached knows comes from its log.
* `plans_agree` — where no rank is attached, and alike samples are fed, all plans agree.
* `plans_differ` — two ranks with different times.
-/

namespace HyLink
namespace Orchestrator
namespace Feedback
namespace Local

open Theory

variable {K : Type} [Field K] [LinearOrder K]

/-! ## What the processes are given -/

def kMaxRanks : ℕ := 128

/-- A communicator of any size, with feedback enabled. -/
structure Setup (K : Type) [Field K] [LinearOrder K] where
  nranks : ℕ
  nranks_lt : nranks < 2 ^ 31
  /-- `IsShmParamSyncEnabled`. -/
  shmParamSync : Bool
  planner : PlannerConfig
  algorithm : Algorithm K
  /-- `SizeBucket::BucketBytes`. -/
  bucketBytes : ℕ → ℕ
  topologyHash : ℕ
  calls : ℕ → Call
  /-- The rank has a PCIe stream. -/
  pcieStream : ℕ → Bool
  /-- `IsFastOnlyBwLogEnabled`. -/
  fastOnlyBwLog : Bool
  /-- The rank's call gets as far as `RegisterStreamPending`. -/
  callback : ℕ → ℕ → Bool
  fastSuccess : ℕ → ℕ → Bool
  pcieSuccess : ℕ → ℕ → Bool

namespace Setup

def algo (cfg : Setup K) : AdaptiveAlgo K := cfg.algorithm.create

/-- `MakeOpKey` for the collective with this number. -/
def opKey (cfg : Setup K) (seq : ℕ) : OpKey where
  op := (cfg.calls seq).op
  bytes := (cfg.calls seq).bytes
  bucketBytes := cfg.bucketBytes (cfg.calls seq).bytes
  datatype := (cfg.calls seq).datatype
  nranks := cfg.nranks
  topologyHash := cfg.topologyHash

/-- The plan the collective is launched with. -/
def launchedPlan (cfg : Setup K) (seq : ℕ) (plan : Plan) : Plan :=
  if plan.usePcie ∧ ¬ (cfg.calls seq).pcieSupported then Plan.forceFastOnly (cfg.opKey seq).bytes
  else plan

/-- The rank registers a callback for the collective. -/
def registers (cfg : Setup K) (r seq : ℕ) (plan : Plan) : Bool :=
  let launched := cfg.launchedPlan seq plan
  if launched.usePcie = false ∨ launched.pcieBytes = 0 ∨ cfg.pcieStream r = false then
    cfg.fastOnlyBwLog && cfg.callback r seq
  else cfg.callback r seq

end Setup

/-! ## The ranks -/

/-- Where the host thread of a rank is in `PrepareCollectiveLaunch`. -/
inductive Stage where
  /-- Outside the library. -/
  | idle
  /-- After `EnsureShmAttached`. -/
  | round
  /-- After `ShmRoundBegin`. -/
  | meet
  | enterBarrier
  | arrive (mySense : Bool)
  | resetCount (mySense : Bool)
  | raiseSense (mySense : Bool)
  | waitSense (mySense : Bool)
  /-- `ParamCache::Lookup`. -/
  | lookup
  /-- `SuggestAlpha`, with the `use_pcie` that was looked up. -/
  | suggest (usePcie : Bool)
  | launching (plan : Plan)
  deriving DecidableEq

/-- What happens to the cache and the controller of a rank that is not attached. -/
inductive Event (K : Type) where
  | looked (key : OpKey)
  /-- `AdaptiveController::Update` by a callback. -/
  | fed (key : OpKey) (stat : ExecStat K)
  | planned (key : OpKey)
  deriving DecidableEq

def Event.ident : Event K → KeyIdent
  | .looked key | .fed key _ | .planned key => key.ident

def Event.isPlanned : Event K → Bool
  | .planned _ => true
  | _ => false

structure State (cfg : Setup K) where
  /-- The segment has the magic number and the number of ranks. -/
  headerValid : Bool
  barrierCount : ℕ
  barrierSense : Bool
  attached : ℕ → Bool
  stage : ℕ → Stage
  cache : ℕ → ParamCache K
  controller : ℕ → Controller cfg.algo
  pending : ℕ → List Pending
  /-- The callbacks that are about to update the controller. -/
  updating : ℕ → List (OpKey × ExecStat K)
  /-- The plans a rank has computed (history). -/
  plans : ℕ → List Plan
  /-- What happened to the cache and the controller (history). -/
  log : ℕ → List (Event K)

variable {cfg : Setup K}

namespace State

def goto (s : State cfg) (r : ℕ) (stage : Stage) : State cfg :=
  { s with stage := Function.update s.stage r stage }

def note (s : State cfg) (r : ℕ) (e : Event K) : State cfg :=
  { s with log := Function.update s.log r (s.log r ++ [e]) }

/-- `Attach` by a rank: a segment without a valid header is set to zero, and rank 0 resets one that
has it. -/
def attach (s : State cfg) (r : ℕ) : State cfg :=
  let fresh := !s.headerValid || r == 0
  { s with
    headerValid := true
    barrierCount := if fresh then 0 else s.barrierCount
    barrierSense := if fresh then false else s.barrierSense
    attached := Function.update s.attached r true }

/-- `EnsureShmAttached`; `ok` says whether the calls to the system succeed. -/
def ensureShmAttached (s : State cfg) (r : ℕ) (ok : Bool) : State cfg :=
  if cfg.shmParamSync = true ∧ 1 < cfg.nranks ∧ s.attached r = false ∧ cfg.nranks ≤ kMaxRanks ∧
    ok = true then s.attach r else s

end State

/-- The round of the store: rank 0 updates its controller with `aggregate`, if there is one, and
every rank merges the entries it reads. -/
def roundStep (s : State cfg) (r : ℕ) (aggregate : Option (OpKey × ExecStat K))
    (entries : Entries K) : State cfg :=
  if s.attached r then
    let next :=
      match aggregate with
      | some (key, stat) =>
        if r = 0 then (s.controller r).update cfg.planner.pcieEnabled key stat (s.cache r)
        else (s.cache r, s.controller r)
      | none => (s.cache r, s.controller r)
    { s.goto r .meet with
      cache := Function.update s.cache r (mergeAll next.1 entries)
      controller := Function.update s.controller r next.2 }
  else s.goto r .meet

/-- One step of the host thread of a rank after the round. -/
def hostStep [FloorSemiring K] (s : State cfg) (r : ℕ) : Option (State cfg) :=
  match s.stage r with
  | .meet => some (s.goto r (if s.attached r then .enterBarrier else .lookup))
  | .enterBarrier => some (s.goto r (.arrive (!s.barrierSense)))
  | .arrive mySense =>
    let count := (s.barrierCount + 1) % 2 ^ 32
    some { s.goto r (if count = cfg.nranks then .resetCount mySense else .waitSense mySense) with
      barrierCount := count }
  | .resetCount mySense => some { s.goto r (.raiseSense mySense) with barrierCount := 0 }
  | .raiseSense mySense => some { s.goto r .lookup with barrierSense := mySense }
  | .waitSense mySense => if s.barrierSense = mySense then some (s.goto r .lookup) else none
  | .lookup =>
    let key := cfg.opKey (s.plans r).length
    some ((s.goto r (.suggest ((s.cache r).lookup key).usePcie)).note r (.looked key))
  | .suggest usePcie =>
    let key := cfg.opKey (s.plans r).length
    let suggested := (s.controller r).suggestAlpha key (s.cache r)
    let plan := createPlan cfg.planner key.bytes suggested.1 usePcie
    some { (s.goto r (.launching plan)).note r (.planned key) with
      controller := Function.update s.controller r suggested.2
      plans := Function.update s.plans r (s.plans r ++ [plan]) }
  | .launching plan =>
    let seq := (s.plans r).length - 1
    let record : Pending :=
      ⟨seq, cfg.launchedPlan seq plan, cfg.fastSuccess r seq, cfg.pcieSuccess r seq⟩
    some { s.goto r .idle with
      pending :=
        if cfg.registers r seq plan then Function.update s.pending r (s.pending r ++ [record])
        else s.pending }
  | _ => none

/-- The stat of a completion callback that measures these times. -/
def measured (p : Pending) (fastTime pcieTime : K) : ExecStat K where
  fastTime := fastTime
  pcieTime := if p.plan.usePcie then pcieTime else 0
  fastBytes := p.plan.fastBytes
  pcieBytes := p.plan.pcieBytes
  fastSuccess := p.fastSuccess
  pcieSuccess := p.pcieSuccess

/-- A callback takes its record, measures, and chooses where the stat goes: to the segment, away,
or to the rank's own controller. -/
def completeStep (s : State cfg) (r i : ℕ) (fastTime pcieTime : K) (ok : Bool) :
    Option (State cfg) :=
  ((s.pending r)[i]?).map fun p =>
    let s := { s with pending := Function.update s.pending r ((s.pending r).eraseIdx i) }
    let s : State cfg := s.ensureShmAttached r ok
    if 1 < cfg.nranks ∧ s.attached r = true then s
    else if 1 < cfg.nranks ∧ cfg.shmParamSync = false then s
    else
      { s with
        updating := Function.update s.updating r
          (s.updating r ++ [(cfg.opKey p.seq, measured p fastTime pcieTime)]) }

/-- A callback updates the controller. -/
def updateStep (s : State cfg) (r i : ℕ) : Option (State cfg) :=
  ((s.updating r)[i]?).map fun sample =>
    let next := (s.controller r).update cfg.planner.pcieEnabled sample.1 sample.2 (s.cache r)
    { s.note r (.fed sample.1 sample.2) with
      updating := Function.update s.updating r ((s.updating r).eraseIdx i)
      cache := Function.update s.cache r next.1
      controller := Function.update s.controller r next.2 }

inductive Label (K : Type) where
  | enter (r : ℕ) (ok : Bool)
  | round (r : ℕ) (aggregate : Option (OpKey × ExecStat K)) (entries : Entries K)
  | host (r : ℕ)
  | complete (r i : ℕ) (fastTime pcieTime : K) (ok : Bool)
  | update (r i : ℕ)

def Label.rank : Label K → ℕ
  | .enter r _ | .round r _ _ | .host r | .complete r _ _ _ _ | .update r _ => r

def step [FloorSemiring K] (s : State cfg) (l : Label K) : Option (State cfg) :=
  if l.rank < cfg.nranks then
    match l with
    | .enter r ok =>
      if s.stage r = .idle then some ((s.ensureShmAttached r ok).goto r .round) else none
    | .round r aggregate entries =>
      if s.stage r = .round then some (roundStep s r aggregate entries) else none
    | .host r => hostStep s r
    | .complete r i fastTime pcieTime ok => completeStep s r i fastTime pcieTime ok
    | .update r i => updateStep s r i
  else none

def machine [FloorSemiring K] (cfg : Setup K) : Machine (State cfg) (Label K) := ⟨step⟩

/-- The communicator is new; the segment may have a valid header, with the words of the barrier at
rest. -/
def initial (cfg : Setup K) (headerValid : Bool) : State cfg where
  headerValid := headerValid
  barrierCount := 0
  barrierSense := false
  attached := fun _ => false
  stage := fun _ => .idle
  cache := fun _ => Table.empty
  controller := fun _ => Table.empty
  pending := fun _ => []
  updating := fun _ => []
  plans := fun _ => []
  log := fun _ => []

/-! ## What is to hold -/

/-- **The ranks plan alike, and on their own.** -/
structure Agree [FloorSemiring K] (s : State cfg) : Prop where
  /-- The `n`-th plans of two ranks are equal. -/
  equal : ∀ (n r q : ℕ) (p p' : Plan), r < cfg.nranks → q < cfg.nranks → (s.plans r)[n]? = some p →
    (s.plans q)[n]? = some p' → p = p'
  /-- Every rank comes to its next plan without the others. -/
  goesOn : ∀ r < cfg.nranks, ∃ labels s', (∀ l ∈ labels, Label.rank l = r) ∧
    (machine cfg).runFrom Machine.anyStep s labels = some s' ∧
    (s'.plans r).length = (s.plans r).length + 1

/-- Two samples that every state of the algorithm takes alike, and after which PCIe is used
alike. -/
structure Alike (cfg : Setup K) (stat stat' : ExecStat K) : Prop where
  update : ∀ algo, cfg.algo.update stat algo = cfg.algo.update stat' algo
  usePcie : ∀ algo prev,
    (Controller.updated (A := cfg.algo) cfg.planner.pcieEnabled stat algo prev).usePcie =
      (Controller.updated (A := cfg.algo) cfg.planner.pcieEnabled stat' algo prev).usePcie

/-- The two events are of one kind, with alike samples. -/
def Event.Alike (cfg : Setup K) : Event K → Event K → Prop
  | .looked _, .looked _ | .planned _, .planned _ => True
  | .fed _ stat, .fed _ stat' => Local.Alike cfg stat stat'
  | _, _ => False

/-- What happens under the key of the `n`-th collective before the rank plans it. -/
def eventsBefore (cfg : Setup K) (n : ℕ) (log : List (Event K)) : List (Event K) :=
  (before Event.isPlanned n log).filter fun e => decide (e.ident = (cfg.opKey n).ident)

/-! ## What the log says -/

/-- What a rank knows under a key. -/
structure Entry (A : AdaptiveAlgo K) where
  param : Option (ParamValue K)
  algo : Option A.State
  /-- The `use_pcie` that was looked up last. -/
  looked : Option Bool

variable {A : AdaptiveAlgo K}

/-- Nothing is known. -/
def Entry.empty : Entry A := ⟨none, none, none⟩

/-- `ParamCache::Lookup`. -/
def Entry.value (v : Entry A) : ParamValue K := v.param.getD .unknown

/-- The algorithm after `SuggestAlpha`. -/
def Entry.suggested (v : Entry A) : A.State :=
  match v.param with
  | none => v.algo.getD A.initial
  | some current => A.suggest current (v.algo.getD A.initial)

def Entry.act (pcieEnabled : Bool) : Event K → Entry A → Entry A
  | .looked _, v => { v with looked := some v.value.usePcie }
  | .fed _ stat, v =>
    let algo := A.update stat (v.algo.getD A.initial)
    { v with
      param := some (Controller.updated (A := A) pcieEnabled stat algo v.value)
      algo := some algo }
  | .planned _, v => { v with algo := some v.suggested }

/-- What a rank knows after the events of its log. -/
def known (cfg : Setup K) (log : List (Event K)) : KeyIdent → Entry cfg.algo :=
  replay Event.ident (Entry.act cfg.planner.pcieEnabled) (fun _ => .empty) log

/-- The plan of a collective from what is known under its key. -/
def planFrom [FloorSemiring K] (cfg : Setup K) (n : ℕ) (v : Entry cfg.algo) : Plan :=
  createPlan cfg.planner (cfg.opKey n).bytes (cfg.algo.alpha v.suggested) (v.looked.getD true)

/-- **What a rank knows** that is not attached. -/
structure State.Knows [FloorSemiring K] (s : State cfg) (r : ℕ) : Prop where
  cache : s.cache r = fun i => (known cfg (s.log r) i).param
  controller : s.controller r = fun i => (known cfg (s.log r) i).algo
  looked : ∀ used, s.stage r = .suggest used →
    (known cfg (s.log r) (cfg.opKey (s.plans r).length).ident).looked = some used
  planned : (s.log r).countP Event.isPlanned = (s.plans r).length
  plans : ∀ n < (s.plans r).length, (s.plans r)[n]? = some
    (planFrom cfg n (known cfg (before Event.isPlanned n (s.log r)) (cfg.opKey n).ident))

theorem known_snoc (log : List (Event K)) (e : Event K) :
    known cfg (log ++ [e]) = Function.update (known cfg log) e.ident
      (Entry.act cfg.planner.pcieEnabled e (known cfg log e.ident)) :=
  replay_snoc _ _ _ _ _

/-- What an event does not change of an entry, it changes nowhere. -/
theorem known_unchanged {B : Type} (f : Entry cfg.algo → B) (log : List (Event K)) {e : Event K}
    (h : ∀ v, f (Entry.act cfg.planner.pcieEnabled e v) = f v) :
    (fun i => f (known cfg (log ++ [e]) i)) = fun i => f (known cfg log i) := by
  funext i
  rw [known_snoc]
  by_cases hi : i = e.ident
  · subst hi
    rw [Function.update_self, h]
  · rw [Function.update_of_ne hi]

/-- `SuggestAlpha` in terms of what is known. -/
theorem suggestAlpha_eq {cache : ParamCache K} {controller : Controller cfg.algo}
    {log : List (Event K)} (hcache : cache = fun i => (known cfg log i).param)
    (hcontroller : controller = fun i => (known cfg log i).algo) (key : OpKey) :
    controller.suggestAlpha key cache =
      (cfg.algo.alpha (known cfg log key.ident).suggested,
        fun i => (known cfg (log ++ [.planned key]) i).algo) := by
  have hset : ∀ algo, (known cfg log key.ident).suggested = algo →
      Table.set controller key algo = fun i => (known cfg (log ++ [.planned key]) i).algo := by
    intro algo halgo
    funext i
    rw [known_snoc, Table.set, hcontroller]
    by_cases h : i = key.ident
    · subst h
      simp [Entry.act, Event.ident, halgo]
    · simp [Event.ident, Function.update_of_ne h]
  have hcreate : controller.getOrCreate key =
      (known cfg log key.ident).algo.getD cfg.algo.initial := by
    rw [hcontroller]
    rfl
  have hfind : Table.find cache key = (known cfg log key.ident).param := by
    rw [hcache]
    rfl
  unfold Controller.suggestAlpha
  rw [hfind, hcreate]
  cases hparam : (known cfg log key.ident).param with
  | none =>
    have hsuggested : (known cfg log key.ident).suggested =
        (known cfg log key.ident).algo.getD cfg.algo.initial := by
      rw [Entry.suggested, hparam]
    simp only [hset _ hsuggested, hsuggested]
  | some current =>
    have hsuggested : (known cfg log key.ident).suggested = cfg.algo.suggest current
        ((known cfg log key.ident).algo.getD cfg.algo.initial) := by
      rw [Entry.suggested, hparam]
    simp only [hset _ hsuggested, hsuggested]

/-- `Update` in terms of what is known. -/
theorem update_eq {cache : ParamCache K} {controller : Controller cfg.algo}
    {log : List (Event K)} (hcache : cache = fun i => (known cfg log i).param)
    (hcontroller : controller = fun i => (known cfg log i).algo) (key : OpKey)
    (stat : ExecStat K) :
    controller.update cfg.planner.pcieEnabled key stat cache =
      (fun i => (known cfg (log ++ [.fed key stat]) i).param,
        fun i => (known cfg (log ++ [.fed key stat]) i).algo) := by
  have hcreate : controller.getOrCreate key =
      (known cfg log key.ident).algo.getD cfg.algo.initial := by
    rw [hcontroller]
    rfl
  have hlookup : cache.lookup key = (known cfg log key.ident).value := by
    rw [hcache]
    rfl
  unfold Controller.update
  rw [hcreate, hlookup, known_snoc]
  refine Prod.ext ?_ ?_
  · funext i
    show Table.set cache key _ i = _
    rw [Table.set, hcache]
    by_cases h : i = key.ident
    · subst h
      simp [Entry.act, Event.ident]
    · simp [Event.ident, Function.update_of_ne h]
  · funext i
    show Table.set controller key _ i = _
    rw [Table.set, hcontroller]
    by_cases h : i = key.ident
    · subst h
      simp [Entry.act, Event.ident]
    · simp [Event.ident, Function.update_of_ne h]

/-! ## What a step does to a rank -/

/-- The step leaves what a rank knows. -/
structure Keeps (s s' : State cfg) (r : ℕ) : Prop where
  cache : s'.cache r = s.cache r
  controller : s'.controller r = s.controller r
  plans : s'.plans r = s.plans r
  log : s'.log r = s.log r

theorem ensureShmAttached_cases (s : State cfg) (r : ℕ) (ok : Bool) :
    s.ensureShmAttached r ok = s ∨ s.ensureShmAttached r ok = s.attach r := by
  unfold State.ensureShmAttached
  split
  · exact .inr rfl
  · exact .inl rfl

/-- A rank that is not attached afterwards has not attached. -/
theorem ensureShmAttached_eq {s : State cfg} {r : ℕ} {ok : Bool}
    (h : (s.ensureShmAttached r ok).attached r = false) : s.ensureShmAttached r ok = s := by
  rcases ensureShmAttached_cases s r ok with heq | heq
  · exact heq
  · rw [heq] at h
    simp [State.attach] at h

theorem attach_other {s : State cfg} {r q : ℕ} (h : q ≠ r) :
    (s.attach r).attached q = s.attached q := by
  simp [State.attach, Function.update_of_ne h]

/-- What a step does to the other ranks: nothing. -/
structure Apart (s s' : State cfg) (q : ℕ) : Prop where
  keeps : Keeps s s' q
  stage : s'.stage q = s.stage q
  attached : s'.attached q = s.attached q
  updating : s'.updating q = s.updating q

theorem Apart.refl (s : State cfg) (q : ℕ) : Apart s s q :=
  ⟨⟨rfl, rfl, rfl, rfl⟩, rfl, rfl, rfl⟩

theorem Apart.trans {s t u : State cfg} {q : ℕ} (h : Apart s t q) (h' : Apart t u q) :
    Apart s u q :=
  ⟨⟨h'.1.1.trans h.1.1, h'.1.2.trans h.1.2, h'.1.3.trans h.1.3, h'.1.4.trans h.1.4⟩,
    h'.2.trans h.2, h'.3.trans h.3, h'.4.trans h.4⟩

theorem apart_goto (s : State cfg) {r q : ℕ} (h : q ≠ r) (stage : Stage) :
    Apart s (s.goto r stage) q :=
  ⟨⟨rfl, rfl, rfl, rfl⟩, Function.update_of_ne h _ _, rfl, rfl⟩

theorem apart_ensure (s : State cfg) {r q : ℕ} (h : q ≠ r) (ok : Bool) :
    Apart s (s.ensureShmAttached r ok) q := by
  rcases ensureShmAttached_cases s r ok with heq | heq
  · rw [heq]
    exact Apart.refl s q
  · rw [heq]
    exact ⟨⟨rfl, rfl, rfl, rfl⟩, rfl, attach_other h, rfl⟩

/-- Attaching changes nothing that a rank knows. -/
theorem ensure_keeps (s : State cfg) (r : ℕ) (ok : Bool) (q : ℕ) :
    Keeps s (s.ensureShmAttached r ok) q ∧ (s.ensureShmAttached r ok).stage = s.stage ∧
      ((s.ensureShmAttached r ok).attached q = false → s.attached q = false) := by
  rcases ensureShmAttached_cases s r ok with heq | heq
  · rw [heq]
    exact ⟨⟨rfl, rfl, rfl, rfl⟩, rfl, id⟩
  · rw [heq]
    refine ⟨⟨rfl, rfl, rfl, rfl⟩, rfl, fun hnot => ?_⟩
    by_cases hq : q = r
    · subst hq
      simp [State.attach] at hnot
    · rwa [attach_other hq] at hnot

theorem complete_keeps {s s' : State cfg} {r i : ℕ} {fastTime pcieTime : K} {ok : Bool}
    (hstep : completeStep s r i fastTime pcieTime ok = some s') (q : ℕ) :
    Keeps s s' q ∧ s'.stage = s.stage ∧ (s'.attached q = false → s.attached q = false) := by
  obtain ⟨p, -, rfl⟩ := Option.map_eq_some_iff.1 hstep
  obtain ⟨⟨h1, h2, h3, h4⟩, hstage, hattached⟩ := ensure_keeps
    { s with pending := Function.update s.pending r ((s.pending r).eraseIdx i) } r ok q
  dsimp only
  split
  · exact ⟨⟨h1, h2, h3, h4⟩, hstage, hattached⟩
  · split
    · exact ⟨⟨h1, h2, h3, h4⟩, hstage, hattached⟩
    · exact ⟨⟨h1, h2, h3, h4⟩, hstage, hattached⟩

variable [FloorSemiring K]

theorem State.Knows.keep {s s' : State cfg} {r : ℕ} (h : s.Knows r) (hkeeps : Keeps s s' r)
    (hstage : ∀ used, s'.stage r = .suggest used → s.stage r = .suggest used) : s'.Knows r := by
  obtain ⟨hcache, hcontroller, hplans, hlog⟩ := hkeeps
  refine ⟨?_, ?_, ?_, ?_, ?_⟩
  · rw [hcache, hlog]
    exact h.cache
  · rw [hcontroller, hlog]
    exact h.controller
  · intro used hused
    rw [hlog, hplans]
    exact h.looked used (hstage used hused)
  · rw [hlog, hplans]
    exact h.planned
  · rw [hlog, hplans]
    exact h.plans

theorem step_apart {s s' : State cfg} {l : Label K} (h : step s l = some s') {q : ℕ}
    (hq : q ≠ l.rank) : Apart s s' q := by
  unfold step at h
  split at h
  · cases l with
    | enter r ok =>
      dsimp only at h
      split at h
      · cases h
        exact (apart_ensure s hq ok).trans (apart_goto _ hq _)
      · cases h
    | round r aggregate entries =>
      dsimp only at h
      split at h
      · cases h
        unfold roundStep
        split
        · exact ⟨⟨Function.update_of_ne hq _ _, Function.update_of_ne hq _ _, rfl, rfl⟩,
            Function.update_of_ne hq _ _, rfl, rfl⟩
        · exact apart_goto s hq _
      · cases h
    | host r =>
      have hgoto : ∀ stage, Apart s (s.goto r stage) q := fun stage => apart_goto s hq stage
      unfold hostStep at h
      dsimp only at h
      split at h
      · cases h
        exact hgoto _
      · cases h
        exact hgoto _
      · cases h
        exact ⟨⟨rfl, rfl, rfl, rfl⟩, (hgoto _).stage, rfl, rfl⟩
      · cases h
        exact ⟨⟨rfl, rfl, rfl, rfl⟩, (hgoto _).stage, rfl, rfl⟩
      · cases h
        exact ⟨⟨rfl, rfl, rfl, rfl⟩, (hgoto _).stage, rfl, rfl⟩
      · split at h
        · cases h
          exact hgoto _
        · cases h
      · cases h
        exact ⟨⟨rfl, rfl, rfl, Function.update_of_ne hq _ _⟩, (hgoto _).stage, rfl, rfl⟩
      · cases h
        exact ⟨⟨rfl, Function.update_of_ne hq _ _, Function.update_of_ne hq _ _,
          Function.update_of_ne hq _ _⟩, Function.update_of_ne hq _ _, rfl, rfl⟩
      · cases h
        exact ⟨⟨rfl, rfl, rfl, rfl⟩, (hgoto _).stage, rfl, rfl⟩
      · cases h
    | complete r i fastTime pcieTime ok =>
      obtain ⟨p, -, rfl⟩ := Option.map_eq_some_iff.1 h
      have hensure := apart_ensure
        { s with pending := Function.update s.pending r ((s.pending r).eraseIdx i) } hq ok
      have hall : Apart s ({ s with
          pending := Function.update s.pending r ((s.pending r).eraseIdx i) }.ensureShmAttached r ok)
          q :=
        ⟨⟨hensure.1.1, hensure.1.2, hensure.1.3, hensure.1.4⟩, hensure.2, hensure.3, hensure.4⟩
      dsimp only
      split
      · exact hall
      · split
        · exact hall
        · exact ⟨⟨hall.1.1, hall.1.2, hall.1.3, hall.1.4⟩, hall.2, hall.3,
            (Function.update_of_ne hq _ _).trans hall.4⟩
    | update r i =>
      obtain ⟨sample, -, rfl⟩ := Option.map_eq_some_iff.1 h
      exact ⟨⟨Function.update_of_ne hq _ _, Function.update_of_ne hq _ _, rfl,
        Function.update_of_ne hq _ _⟩, rfl, rfl, Function.update_of_ne hq _ _⟩
  · cases h

/-! ## A rank that is not attached -/

/-- The stages of `BarrierSync`. -/
def Stage.inBarrier : Stage → Bool
  | .enterBarrier | .arrive _ | .resetCount _ | .raiseSense _ | .waitSense _ => true
  | _ => false

theorem State.Knows.look {s : State cfg} {r : ℕ} (h : s.Knows r) :
    ((s.goto r (.suggest ((s.cache r).lookup (cfg.opKey (s.plans r).length)).usePcie)).note r
      (.looked (cfg.opKey (s.plans r).length))).Knows r := by
  set key := cfg.opKey (s.plans r).length with hkey
  have hlog : ((s.goto r (.suggest ((s.cache r).lookup key).usePcie)).note r (.looked key)).log r =
      s.log r ++ [.looked key] := Function.update_self r _ _
  refine ⟨?_, ?_, ?_, ?_, ?_⟩
  · rw [hlog, known_unchanged Entry.param _ fun _ => rfl]
    exact h.cache
  · rw [hlog, known_unchanged Entry.algo _ fun _ => rfl]
    exact h.controller
  · intro used hused
    have hstage : (Function.update s.stage r (.suggest ((s.cache r).lookup key).usePcie)) r =
        .suggest used := hused
    rw [Function.update_self] at hstage
    have hvalue : (s.cache r).lookup key = (known cfg (s.log r) key.ident).value := by
      rw [h.cache]
      rfl
    rw [hlog]
    show (known cfg (s.log r ++ [.looked key]) key.ident).looked = some used
    rw [known_snoc, Event.ident, Function.update_self]
    show some (known cfg (s.log r) key.ident).value.usePcie = some used
    rw [← hvalue]
    exact congrArg some (Stage.suggest.inj hstage)
  · rw [hlog, List.countP_append, h.planned]
    rfl
  · intro n hn
    have hcount : n < (s.log r).countP Event.isPlanned := by
      rw [h.planned]
      exact hn
    rw [hlog, before_append_of_lt hcount]
    exact h.plans n hn

theorem State.Knows.plan {s : State cfg} {r : ℕ} (h : s.Knows r) {used : Bool}
    (hstage : s.stage r = .suggest used) {s' : State cfg} (hstep : hostStep s r = some s') :
    s'.Knows r := by
  simp only [hostStep, hstage] at hstep
  set key := cfg.opKey (s.plans r).length with hkey
  rw [suggestAlpha_eq h.cache h.controller key] at hstep
  set plan := createPlan cfg.planner key.bytes
    (cfg.algo.alpha (known cfg (s.log r) key.ident).suggested) used with hplan
  have hfrom : plan = planFrom cfg (s.plans r).length (known cfg (s.log r) key.ident) := by
    rw [planFrom, h.looked used hstage]
    rfl
  obtain hs' := (Option.some.inj hstep).symm
  have hcache : s'.cache r = s.cache r := by rw [hs']; rfl
  have hcontroller : s'.controller r =
      fun i => (known cfg (s.log r ++ [.planned key]) i).algo := by
    rw [hs']
    exact Function.update_self r _ _
  have hplans : s'.plans r = s.plans r ++ [plan] := by
    rw [hs']
    exact Function.update_self r _ _
  have hlog : s'.log r = s.log r ++ [.planned key] := by
    rw [hs']
    exact Function.update_self r _ _
  have hlaunching : s'.stage r = .launching plan := by
    rw [hs']
    exact Function.update_self r _ _
  refine ⟨?_, ?_, ?_, ?_, ?_⟩
  · rw [hcache, hlog, known_unchanged Entry.param _ fun _ => rfl]
    exact h.cache
  · rw [hcontroller, hlog]
  · intro used' hused
    rw [hlaunching] at hused
    cases hused
  · rw [hlog, hplans, List.countP_append, h.planned, List.length_append]
    rfl
  · intro n hn
    rw [hplans, List.length_append, List.length_singleton] at hn
    rw [hlog, hplans]
    by_cases hlt : n < (s.plans r).length
    · have hcount : n < (s.log r).countP Event.isPlanned := by
        rw [h.planned]
        exact hlt
      rw [before_append_of_lt hcount, List.getElem?_append_left hlt]
      exact h.plans n hlt
    · obtain rfl : n = (s.plans r).length := by omega
      have hbefore : before Event.isPlanned (s.plans r).length (s.log r ++ [.planned key]) =
          s.log r := by
        rw [← h.planned]
        exact before_snoc rfl
      rw [List.getElem?_concat_length, hbefore, hfrom]

theorem State.Knows.update {s s' : State cfg} {r i : ℕ} (h : s.Knows r)
    (hstep : updateStep s r i = some s') : s'.Knows r := by
  obtain ⟨⟨key, stat⟩, -, rfl⟩ := Option.map_eq_some_iff.1 hstep
  have hlog : Function.update s.log r (s.log r ++ [.fed key stat]) r = s.log r ++ [.fed key stat] :=
    Function.update_self r _ _
  refine ⟨?_, ?_, ?_, ?_, ?_⟩
  · show Function.update s.cache r _ r = fun i => (known cfg (Function.update s.log r _ r) i).param
    rw [hlog, Function.update_self, update_eq h.cache h.controller]
  · show Function.update s.controller r _ r =
      fun i => (known cfg (Function.update s.log r _ r) i).algo
    rw [hlog, Function.update_self, update_eq h.cache h.controller]
  · intro used hused
    show (known cfg (Function.update s.log r _ r) _).looked = some used
    rw [hlog]
    have hall : (fun i => (known cfg (s.log r ++ [.fed key stat]) i).looked) =
        fun i => (known cfg (s.log r) i).looked := known_unchanged Entry.looked _ fun _ => rfl
    exact (congrFun hall _).trans (h.looked used hused)
  · show (Function.update s.log r _ r).countP _ = (s.plans r).length
    rw [hlog, List.countP_append, h.planned]
    rfl
  · intro n hn
    have hcount : n < (s.log r).countP Event.isPlanned := by
      rw [h.planned]
      exact hn
    show (s.plans r)[n]? =
      some (planFrom cfg n (known cfg (before _ n (Function.update s.log r _ r)) _))
    rw [hlog, before_append_of_lt hcount]
    exact h.plans n hn

/-- **Every step** leaves a rank that is not attached with what its log says, and outside the
barrier. -/
structure State.Lone (s : State cfg) (r : ℕ) : Prop where
  knows : s.Knows r
  outside : (s.stage r).inBarrier = false

theorem State.Lone.goto {s : State cfg} {r : ℕ} (h : s.Lone r) {stage : Stage}
    (hstage : ∀ used, stage ≠ .suggest used) (hout : stage.inBarrier = false) :
    (s.goto r stage).Lone r := by
  have hself : (s.goto r stage).stage r = stage := Function.update_self r _ _
  refine ⟨h.knows.keep ⟨rfl, rfl, rfl, rfl⟩ fun used hused => ?_, ?_⟩
  · rw [hself] at hused
    exact absurd hused (hstage used)
  · rw [hself]
    exact hout

theorem lone_host {s s' : State cfg} {r : ℕ} (h : s.Lone r) (hnot : s.attached r = false)
    (hstep : hostStep s r = some s') : s'.Lone r := by
  cases hstage : s.stage r with
  | idle | round => simp [hostStep, hstage] at hstep
  | meet =>
    simp only [hostStep, hstage, hnot, Bool.false_eq_true, if_false, Option.some.injEq] at hstep
    subst hstep
    exact h.goto nofun rfl
  | enterBarrier | arrive | resetCount | raiseSense | waitSense =>
    have hout := h.outside
    rw [hstage] at hout
    cases hout
  | lookup =>
    simp only [hostStep, hstage, Option.some.injEq] at hstep
    subst hstep
    refine ⟨h.knows.look, ?_⟩
    show (Function.update s.stage r _ r).inBarrier = false
    rw [Function.update_self]
    rfl
  | suggest used =>
    refine ⟨h.knows.plan hstage hstep, ?_⟩
    simp only [hostStep, hstage, Option.some.injEq] at hstep
    subst hstep
    show (Function.update s.stage r _ r).inBarrier = false
    rw [Function.update_self]
    rfl
  | launching plan =>
    simp only [hostStep, hstage, Option.some.injEq] at hstep
    subst hstep
    have hidle : (s.goto r .idle).Lone r := h.goto nofun rfl
    exact ⟨hidle.knows.keep ⟨rfl, rfl, rfl, rfl⟩ fun _ hused => hused, hidle.outside⟩

theorem host_attached {s s' : State cfg} {r : ℕ} (hstep : hostStep s r = some s') :
    s'.attached = s.attached := by
  cases hstage : s.stage r with
  | waitSense mySense =>
    simp only [hostStep, hstage] at hstep
    split at hstep
    · cases hstep
      rfl
    · cases hstep
  | _ =>
    simp only [hostStep, hstage, Option.some.injEq, reduceCtorEq] at hstep
    try subst hstep
    try rfl

omit [FloorSemiring K] in
theorem round_attached (s : State cfg) (r : ℕ) (aggregate : Option (OpKey × ExecStat K))
    (entries : Entries K) : (roundStep s r aggregate entries).attached = s.attached := by
  unfold roundStep
  split <;> rfl

/-- A rank that is not attached after a step was not before. -/
theorem attached_of_step {s s' : State cfg} {l : Label K} (hstep : step s l = some s') {q : ℕ}
    (hnot : s'.attached q = false) : s.attached q = false := by
  unfold step at hstep
  split at hstep
  · cases l with
    | enter r ok =>
      dsimp only at hstep
      split at hstep
      · cases hstep
        exact (ensure_keeps s r ok q).2.2 hnot
      · cases hstep
    | round r aggregate entries =>
      dsimp only at hstep
      split at hstep
      · cases hstep
        rwa [round_attached] at hnot
      · cases hstep
    | host r => rwa [host_attached hstep] at hnot
    | complete r i fastTime pcieTime ok => exact (complete_keeps hstep q).2.2 hnot
    | update r i =>
      obtain ⟨sample, -, hs'⟩ := Option.map_eq_some_iff.1 hstep
      rw [← hs'] at hnot
      exact hnot
  · cases hstep

/-- A rank that is not attached goes on knowing what its log says. -/
theorem lone_step {s s' : State cfg} {l : Label K} (hstep : step s l = some s') {r : ℕ}
    (h : s.attached r = false → s.Lone r) (hnot : s'.attached r = false) : s'.Lone r := by
  have hr : s.attached r = false := attached_of_step hstep hnot
  replace h := h hr
  by_cases hself : r = l.rank
  · subst hself
    unfold step at hstep
    split at hstep
    · cases l with
      | enter r ok =>
        dsimp only at hstep
        split at hstep
        · cases hstep
          rw [ensureShmAttached_eq (r := r) hnot]
          exact h.goto nofun rfl
        · cases hstep
      | round r aggregate entries =>
        dsimp only at hstep
        split at hstep
        · cases hstep
          have hgoto : roundStep s r aggregate entries = s.goto r .meet := by
            have hr' : s.attached r = false := hr
            unfold roundStep
            simp only [hr', Bool.false_eq_true, if_false]
          rw [hgoto]
          exact h.goto nofun rfl
        · cases hstep
      | host r => exact lone_host h hr hstep
      | complete r i fastTime pcieTime ok =>
        obtain ⟨hkeeps, hstage, -⟩ := complete_keeps hstep r
        refine ⟨h.knows.keep hkeeps fun used hused => ?_, ?_⟩
        · rw [← hstage]
          exact hused
        · rw [hstage]
          exact h.outside
      | update r i =>
        obtain ⟨sample, -, hs'⟩ := Option.map_eq_some_iff.1 hstep
        have hstage : s'.stage = s.stage := by rw [← hs']; rfl
        refine ⟨h.knows.update hstep, ?_⟩
        rw [hstage]
        exact h.outside
    · cases hstep
  · have hapart := step_apart hstep hself
    refine ⟨h.knows.keep hapart.keeps fun used hused => ?_, ?_⟩
    · rw [← hapart.stage]
      exact hused
    · rw [hapart.stage]
      exact h.outside

omit [FloorSemiring K] in
theorem known_nil (i : KeyIdent) : known cfg [] i = .empty := rfl

theorem Lone.start (headerValid : Bool) (r : ℕ) : (initial cfg headerValid).Lone r := by
  refine ⟨⟨rfl, rfl, ?_, rfl, ?_⟩, rfl⟩
  · intro used (h : Stage.idle = .suggest used)
    cases h
  · intro n (hn : n < 0)
    exact absurd hn (Nat.not_lt_zero n)

theorem Lone.of_run {headerValid : Bool} {labels : List (Label K)} {s : State cfg}
    (hrun : (machine cfg).runFrom Machine.anyStep (initial cfg headerValid) labels = some s)
    {r : ℕ} (hnot : s.attached r = false) : s.Lone r :=
  (machine cfg).invariant (I := fun s => s.attached r = false → s.Lone r)
    (fun _ _ _ hs _ hstep => lone_step hstep hs) (fun _ => Lone.start headerValid r) hrun hnot

/-! ## Alike logs give equal plans -/

/-- The entries give the same choices; the bandwidths may differ. -/
structure Entry.Same (v v' : Entry A) : Prop where
  algo : v.algo = v'.algo
  looked : v.looked = v'.looked
  known : v.param.isSome = v'.param.isSome
  alpha : v.value.alpha = v'.value.alpha
  usePcie : v.value.usePcie = v'.value.usePcie
  bestAlpha : v.value.bestAlpha = v'.value.bestAlpha
  bestBandwidth : v.value.bestBandwidth = v'.value.bestBandwidth

omit [FloorSemiring K] in
/-- No algorithm looks at the bandwidths of its entry. -/
theorem suggest_congr (algorithm : Algorithm K) {p p' : ParamValue K} (halpha : p.alpha = p'.alpha)
    (hbest : p.bestAlpha = p'.bestAlpha) (hbandwidth : p.bestBandwidth = p'.bestBandwidth) :
    algorithm.create.suggest p = algorithm.create.suggest p' := by
  cases algorithm with
  | inverseProportion params =>
    funext s
    show InverseProportion.suggest p s = InverseProportion.suggest p' s
    simp only [InverseProportion.suggest, halpha, hbest, hbandwidth]
  | splitRatio params =>
    funext s
    show SplitRatio.suggest params p s = SplitRatio.suggest params p' s
    simp only [SplitRatio.suggest, halpha, hbest, hbandwidth]
  | static alpha => rfl

omit [FloorSemiring K] in
theorem Entry.Same.suggested {v v' : Entry cfg.algo} (h : v.Same v') :
    v.suggested = v'.suggested := by
  obtain ⟨param, algo, looked⟩ := v
  obtain ⟨param', algo', looked'⟩ := v'
  obtain ⟨rfl, -, hknown, halpha, -, hbest, hbandwidth⟩ := h
  cases param with
  | none =>
    cases param' with
    | none => rfl
    | some p' => cases hknown
  | some p =>
    cases param' with
    | none => cases hknown
    | some p' =>
      exact congrFun (suggest_congr cfg.algorithm halpha hbest hbandwidth) _

omit [FloorSemiring K] in
/-- What `Update` stores for `use_pcie` depends on what was stored for it. -/
theorem updated_usePcie {pcieEnabled : Bool} {stat : ExecStat K} {algo : A.State}
    {prev prev' : ParamValue K} (h : prev.usePcie = prev'.usePcie) :
    (Controller.updated (A := A) pcieEnabled stat algo prev).usePcie =
      (Controller.updated (A := A) pcieEnabled stat algo prev').usePcie := by
  simp only [Controller.updated, h]

omit [FloorSemiring K] in
theorem Entry.Same.act {e e' : Event K} (he : e.Alike cfg e') {v v' : Entry cfg.algo}
    (h : v.Same v') :
    (Entry.act cfg.planner.pcieEnabled e v).Same (Entry.act cfg.planner.pcieEnabled e' v') := by
  cases e with
  | looked key =>
    cases e' with
    | looked key' =>
      exact ⟨h.algo, congrArg some h.usePcie, h.known, h.alpha, h.usePcie, h.bestAlpha,
        h.bestBandwidth⟩
    | fed | planned => exact he.elim
  | fed key stat =>
    cases e' with
    | fed key' stat' =>
      have halgo : cfg.algo.update stat (v.algo.getD cfg.algo.initial) =
          cfg.algo.update stat' (v'.algo.getD cfg.algo.initial) := by
        rw [h.algo]
        exact he.update _
      refine ⟨congrArg some halgo, h.looked, rfl, congrArg cfg.algo.alpha halgo, ?_,
        congrArg cfg.algo.bestAlpha halgo, congrArg cfg.algo.bestBandwidth halgo⟩
      exact (he.usePcie _ _).trans (updated_usePcie h.usePcie)
    | looked | planned => exact he.elim
  | planned key =>
    cases e' with
    | planned key' =>
      exact ⟨congrArg some h.suggested, h.looked, h.known, h.alpha, h.usePcie, h.bestAlpha,
        h.bestBandwidth⟩
    | looked | fed => exact he.elim

/-- Alike events before a plan give equal plans. -/
theorem planFrom_congr {n : ℕ} {log log' : List (Event K)}
    (h : List.Forall₂ (Event.Alike cfg) (eventsBefore cfg n log) (eventsBefore cfg n log')) :
    planFrom cfg n (known cfg (before Event.isPlanned n log) (cfg.opKey n).ident) =
      planFrom cfg n (known cfg (before Event.isPlanned n log') (cfg.opKey n).ident) := by
  have hempty : (Entry.empty : Entry cfg.algo).Same .empty := ⟨rfl, rfl, rfl, rfl, rfl, rfl, rfl⟩
  have hsame := rel_of_forall₂ (Entry.act cfg.planner.pcieEnabled)
    (R := Entry.Same) (fun _ _ _ _ he hv => Entry.Same.act he hv) h hempty
  unfold eventsBefore at hsame
  rw [known, known, replay_apply, replay_apply, planFrom, planFrom, hsame.suggested, hsame.looked]

/-! ## A rank goes on alone -/

/-- The rank can plan once more by its own steps. -/
def State.CanPlan (s : State cfg) (r : ℕ) : Prop :=
  ∃ labels s', (∀ l ∈ labels, Label.rank l = r) ∧
    (machine cfg).runFrom Machine.anyStep s labels = some s' ∧
    (s'.plans r).length = (s.plans r).length + 1

theorem CanPlan.of_step {s t : State cfg} {l : Label K} (hstep : step s l = some t)
    (hplans : t.plans l.rank = s.plans l.rank) (h : t.CanPlan l.rank) : s.CanPlan l.rank := by
  obtain ⟨labels, s', hlabels, hrun, hlen⟩ := h
  refine ⟨l :: labels, s', ?_, ?_, hplans ▸ hlen⟩
  · intro l' hl'
    rcases List.mem_cons.1 hl' with rfl | hl'
    · rfl
    · exact hlabels l' hl'
  · exact (machine cfg).runFrom_cons_eq_some.2 ⟨rfl, t, hstep, hrun⟩

theorem step_host {s t : State cfg} {r : ℕ} (hr : r < cfg.nranks) (h : hostStep s r = some t) :
    step s (.host r) = some t := by
  unfold step
  rw [if_pos (show (Label.host r : Label K).rank < cfg.nranks from hr)]
  exact h

theorem canPlan {s : State cfg} {r : ℕ} (hr : r < cfg.nranks) (hnot : s.attached r = false)
    (hout : (s.stage r).inBarrier = false) : s.CanPlan r := by
  have hgoto : ∀ (s : State cfg) (stage : Stage), (s.goto r stage).stage r = stage :=
    fun s stage => Function.update_self r _ _
  have hsuggest : ∀ (s : State cfg) used, s.stage r = .suggest used → s.CanPlan r := by
    intro s used hstage
    obtain ⟨t, ht⟩ : ∃ t, hostStep s r = some t := by
      simp only [hostStep, hstage, Option.some.injEq, exists_eq']
    refine ⟨[.host r], t, by simp [Label.rank], ?_, ?_⟩
    · exact (machine cfg).runFrom_cons_eq_some.2 ⟨rfl, t, step_host hr ht, rfl⟩
    · simp only [hostStep, hstage, Option.some.injEq] at ht
      subst ht
      show (Function.update s.plans r _ r).length = _
      rw [Function.update_self, List.length_append, List.length_singleton]
  have hlookup : ∀ s : State cfg, s.stage r = .lookup → s.CanPlan r := by
    intro s hstage
    obtain ⟨t, ht, hplans, used, hused⟩ : ∃ t, hostStep s r = some t ∧ t.plans = s.plans ∧
        ∃ used, t.stage r = .suggest used := by
      simp only [hostStep, hstage]
      exact ⟨_, rfl, rfl, _, hgoto s _⟩
    exact CanPlan.of_step (l := .host r) (step_host hr ht) (congrFun hplans r)
      (hsuggest t used hused)
  have hmeet : ∀ s : State cfg, s.stage r = .meet → s.attached r = false → s.CanPlan r := by
    intro s hstage hnot
    refine CanPlan.of_step (l := .host r) (t := s.goto r .lookup) (step_host hr ?_) rfl ?_
    · simp only [hostStep, hstage, hnot, Bool.false_eq_true, if_false]
    · exact hlookup _ (hgoto s _)
  have hround : ∀ s : State cfg, s.stage r = .round → s.attached r = false → s.CanPlan r := by
    intro s hstage hnot
    refine CanPlan.of_step (l := .round r none []) (t := s.goto r .meet) ?_ rfl ?_
    · unfold step
      rw [if_pos (show (Label.round r none [] : Label K).rank < cfg.nranks from hr)]
      dsimp only
      rw [if_pos hstage]
      unfold roundStep
      simp only [hnot, Bool.false_eq_true, if_false]
    · exact hmeet _ (hgoto s _) hnot
  have hidle : ∀ s : State cfg, s.stage r = .idle → s.attached r = false → s.CanPlan r := by
    intro s hstage hnot
    refine CanPlan.of_step (l := .enter r false) (t := s.goto r .round) ?_ rfl ?_
    · unfold step
      rw [if_pos (show (Label.enter r false : Label K).rank < cfg.nranks from hr)]
      dsimp only
      rw [if_pos hstage]
      simp [State.ensureShmAttached]
    · exact hround _ (hgoto s _) hnot
  cases hstage : s.stage r with
  | idle => exact hidle s hstage hnot
  | round => exact hround s hstage hnot
  | meet => exact hmeet s hstage hnot
  | enterBarrier | arrive | resetCount | raiseSense | waitSense =>
    rw [hstage] at hout
    cases hout
  | lookup => exact hlookup s hstage
  | suggest used => exact hsuggest s used hstage
  | launching plan =>
    obtain ⟨t, ht, hplans, hidle', hattached⟩ : ∃ t, hostStep s r = some t ∧ t.plans = s.plans ∧
        t.stage r = .idle ∧ t.attached = s.attached := by
      simp only [hostStep, hstage]
      exact ⟨_, rfl, rfl, hgoto s _, rfl⟩
    exact CanPlan.of_step (l := .host r) (step_host hr ht) (congrFun hplans r)
      (hidle t hidle' (hattached ▸ hnot))

/-- **Without the store all plans agree** where no rank is attached, and before the `n`-th plans
of two ranks alike samples were fed, in the same order with the earlier plans. -/
theorem plans_agree (cfg : Setup K) (headerValid : Bool) {labels : List (Label K)}
    {s : State cfg}
    (hrun : (machine cfg).runFrom Machine.anyStep (initial cfg headerValid) labels = some s)
    (hnone : ∀ r < cfg.nranks, s.attached r = false)
    (halike : ∀ n, ∀ r < cfg.nranks, ∀ q < cfg.nranks, n < (s.plans r).length →
      n < (s.plans q).length → List.Forall₂ (Event.Alike cfg) (eventsBefore cfg n (s.log r))
        (eventsBefore cfg n (s.log q))) : Agree s := by
  have hlone : ∀ r < cfg.nranks, s.Lone r := fun r hr => Lone.of_run hrun (hnone r hr)
  refine ⟨?_, fun r hr => canPlan hr (hnone r hr) (hlone r hr).outside⟩
  intro n r q p p' hr hq hp hp'
  have hn := (List.getElem?_eq_some_iff.1 hp).1
  have hn' := (List.getElem?_eq_some_iff.1 hp').1
  have hfirst := (hlone r hr).knows.plans n hn
  have hsecond := (hlone q hq).knows.plans n hn'
  rw [planFrom_congr (halike n r hr q hq hn hn')] at hfirst
  exact Option.some.inj (hp.symm.trans (hfirst.trans (hsecond.symm.trans hp')))

omit [FloorSemiring K] in
theorem Event.Alike.refl (cfg : Setup K) (e : Event K) : e.Alike cfg e := by
  cases e with
  | looked | planned => exact True.intro
  | fed key stat => exact ⟨fun _ => rfl, fun _ _ => rfl⟩

omit [FloorSemiring K] in
/-- A log is like itself. -/
theorem Event.Alike.refl_list (cfg : Setup K) (log : List (Event K)) :
    List.Forall₂ (Event.Alike cfg) log log :=
  List.forall₂_same.2 fun e _ => Event.Alike.refl cfg e

/-! ## More ranks than slots -/

/-- The split ratio of 64 MiB begins at a quarter. -/
def ratioParams : SplitRatio.Params ℚ where
  initialAlpha := 1 / 4
  minAlpha := 1 / 100
  smooth := 3 / 10
  eta := 1 / 2
  warmupSteps := 3
  smooth_pos := div_pos three_pos (by norm_num)
  smooth_lt := (div_lt_one (by norm_num)).2 (by norm_num)
  eta_pos := by norm_num
  eta_lt := by norm_num

def manyRanks : Setup ℚ where
  nranks := 129
  nranks_lt := by decide
  shmParamSync := true
  planner := ⟨true, 4096, 4096⟩
  algorithm := .splitRatio ratioParams
  bucketBytes := fun _ => 0
  topologyHash := 1
  calls := fun _ => ⟨.allReduce, 2 ^ 26, 7, true⟩
  pcieStream := fun _ => true
  fastOnlyBwLog := false
  callback := fun _ _ => true
  fastSuccess := fun _ _ => true
  pcieSuccess := fun _ _ => true

/-- A rank enters and plans. -/
def planning (r : ℕ) : List (Label ℚ) :=
  [.enter r true, .round r none [], .host r, .host r, .host r]

/-- A rank plans, is fed one sample, and plans again. -/
def planTwice (r : ℕ) (pcieTime : ℚ) : List (Label ℚ) :=
  planning r ++ [.host r, .complete r 0 1 pcieTime true, .update r 0] ++ planning r

theorem plans_agree_two : ∃ labels s,
    (machine manyRanks).runFrom Machine.anyStep (initial manyRanks false) labels = some s ∧
      (s.plans 0).length = 2 ∧ Agree s := by
  have hobs : ((machine manyRanks).runFrom Machine.anyStep (initial manyRanks false)
      (planTwice 0 1 ++ planTwice 1 1)).map (fun s => (decide (s.log 0 = s.log 1),
        (List.range 129).all fun r => r < 2 || (s.plans r).isEmpty,
        (List.range 129).all fun r => !s.attached r, (s.plans 0).length)) =
      some (true, true, true, 2) := by decide +kernel
  obtain ⟨s, hrun, hs⟩ := Option.map_eq_some_iff.1 hobs
  obtain ⟨hlog, hs⟩ := Prod.mk.inj hs
  obtain ⟨hplans, hs⟩ := Prod.mk.inj hs
  obtain ⟨hattached, hlen⟩ := Prod.mk.inj hs
  have hsame : s.log 0 = s.log 1 := of_decide_eq_true hlog
  have hone : ∀ {r n : ℕ}, r < 129 → n < (s.plans r).length → s.log r = s.log 0 := by
    intro r n hr hn
    have hr' := List.all_eq_true.1 hplans r (List.mem_range.2 hr)
    match r with
    | 0 => rfl
    | 1 => exact hsame.symm
    | r + 2 =>
      rw [Bool.or_eq_true, List.isEmpty_iff, decide_eq_true_eq] at hr'
      rcases hr' with hlt | hnil
      · omega
      · rw [hnil] at hn
        exact absurd hn (Nat.not_lt_zero n)
  refine ⟨_, s, hrun, hlen, plans_agree manyRanks false hrun ?_ ?_⟩
  · intro r hr
    simpa using List.all_eq_true.1 hattached r (List.mem_range.2 hr)
  · intro n r hr q hq hn hn'
    rw [hone hr hn, hone hq hn']
    exact Event.Alike.refl_list _ _

/-- **Different times:** two of 129 ranks, which have no slots in the store, measure different
times, and their second plans differ. -/
theorem plans_differ : ¬ ∀ (cfg : Setup ℚ) (headerValid : Bool) (labels : List (Label ℚ))
    (s : State cfg),
    (machine cfg).runFrom Machine.anyStep (initial cfg headerValid) labels = some s →
    (∃ r < cfg.nranks, s.attached r = false) → Agree s := by
  intro hall
  have hobs : ((machine manyRanks).runFrom Machine.anyStep (initial manyRanks false)
      (planTwice 0 1 ++ planTwice 1 2)).map (fun s => (s.attached 0, s.plans 0, s.plans 1)) =
      some (false, [⟨50331648, 16777216, true⟩, ⟨50331648, 16777216, true⟩],
        [⟨50331648, 16777216, true⟩, ⟨53926784, 13182080, true⟩]) := by decide +kernel
  obtain ⟨s, hrun, hs⟩ := Option.map_eq_some_iff.1 hobs
  obtain ⟨hattached, hs⟩ := Prod.mk.inj hs
  obtain ⟨h0, h1⟩ := Prod.mk.inj hs
  have hagree := hall manyRanks false _ s hrun ⟨0, by decide, hattached⟩
  have heq := hagree.equal 1 0 1 _ _ (by decide) (by decide) (by rw [h0]; rfl) (by rw [h1]; rfl)
  exact absurd heq (by decide)

end Local
end Feedback
end Orchestrator
end HyLink
