import Mathlib.Logic.Function.Basic
import HyLink.Orchestrator.Controller
import HyLink.Theory.Machine

/-!
# The shared parameter store and the entry of a collective

`ShmParamStore` as attached by all ranks of a communicator, the host thread of every rank,
which enters one collective after the other (`PrepareCollectiveLaunch` with `ShmRoundBegin`
and `BarrierSync`), and the completion callbacks, which write the stats.  A step is one
access to the shared segment.

Callbacks run in any order and beside each other.  A plain read of a slot that a callback
is writing may return anything; what it returns is part of the label.
-/

namespace HyLink
namespace Orchestrator
namespace Feedback

variable {K : Type} [Field K] [LinearOrder K]

/-! ## What the processes are given -/

/-- One collective of the communicator, the same on every rank. -/
structure Call where
  op : CollectiveType
  bytes : ℕ
  datatype : ℕ
  /-- `PCIeBackendImpl::Supports…` of the arguments. -/
  pcieSupported : Bool
  deriving DecidableEq, Repr

structure Config (K : Type) [Field K] [LinearOrder K] where
  nranks : ℕ
  two_le : 2 ≤ nranks
  /-- `kMaxRanks`. -/
  le_max : nranks ≤ 128
  planner : PlannerConfig
  algorithm : Algorithm K
  /-- `SizeBucket::BucketBytes`. -/
  bucketBytes : ℕ → ℕ
  topologyHash : ℕ
  calls : ℕ → Call
  /-- The rank has a PCIe stream. -/
  pcieStream : ℕ → Bool
  /-- `IsFastOnlyBwLogEnabled`. -/
  fastOnlyBwLog : Bool
  /-- The rank's call of the collective gets as far as `RegisterStreamPending`, and its host
  function is on the stream. -/
  callback : ℕ → ℕ → Bool
  fastSuccess : ℕ → ℕ → Bool
  pcieSuccess : ℕ → ℕ → Bool

namespace Config

def algo (cfg : Config K) : AdaptiveAlgo K := cfg.algorithm.create

/-- `MakeOpKey` for the collective with this number. -/
def opKey (cfg : Config K) (seq : ℕ) : OpKey where
  op := (cfg.calls seq).op
  bytes := (cfg.calls seq).bytes
  bucketBytes := cfg.bucketBytes (cfg.calls seq).bytes
  datatype := (cfg.calls seq).datatype
  nranks := cfg.nranks
  topologyHash := cfg.topologyHash

/-- The plan the collective is launched with. -/
def launchedPlan (cfg : Config K) (seq : ℕ) (plan : Plan) : Plan :=
  if plan.usePcie ∧ ¬ (cfg.calls seq).pcieSupported then Plan.forceFastOnly (cfg.opKey seq).bytes
  else plan

/-- The rank registers a stat callback for the collective: always where both paths are used,
with the bandwidth log also where only the fast one is. -/
def registers (cfg : Config K) (r seq : ℕ) (plan : Plan) : Bool :=
  let launched := cfg.launchedPlan seq plan
  if launched.usePcie = false ∨ launched.pcieBytes = 0 ∨ cfg.pcieStream r = false then
    cfg.fastOnlyBwLog && cfg.callback r seq
  else cfg.callback r seq

end Config

/-! ## The segment and the processes -/

structure StatSlot (K : Type) where
  epoch : ℕ
  key : OpKey
  stat : ExecStat K
  valid : Bool
  /-- The collectives whose callbacks wrote the key and the stat (history). -/
  keySeq : ℕ
  statSeq : ℕ

/-- The slot has a stat of the epoch. -/
def StatSlot.current (slot : StatSlot K) (epoch : ℕ) : Bool :=
  slot.valid && decide (slot.epoch = epoch)

abbrev Entries (K : Type) := List (OpKey × ParamValue K)

/-- Where a stat that was read came from; it is `torn` if a callback was writing the slot.
`ordinal` counts the callbacks the rank had finished. -/
structure Source where
  keySeq : ℕ
  statSeq : ℕ
  torn : Bool
  ordinal : ℕ
  deriving DecidableEq, Repr

structure Reading (K : Type) where
  key : OpKey
  stat : ExecStat K
  source : Source

/-- Where the host thread of a rank is. -/
inductive Stage (K : Type) where
  /-- Outside the library. -/
  | idle
  | waitConsumed
  | loadEpoch
  /-- The first loop of `ReadAllStatsAndAggregate`. -/
  | scanAny (epoch i : ℕ)
  /-- The wait for all ranks. -/
  | scanAll (epoch i : ℕ)
  | gather (epoch : ℕ) (seen : List (Reading K))
  | clear (epoch i : ℕ) (key : OpKey) (stat : ExecStat K)
  | advance (epoch : ℕ) (key : OpKey) (stat : ExecStat K)
  /-- `AdaptiveController::Update`. -/
  | update (key : OpKey) (stat : ExecStat K)
  /-- `WriteParams`. -/
  | writeEntry (key : OpKey)
  | bumpVersion
  | signal
  | waitParams
  | readVersion (retry : ℕ)
  | readEntries (retry version : ℕ)
  | checkVersion (retry version : ℕ) (snapshot : Entries K)
  | merge (snapshot : Entries K)
  | consume
  | enterBarrier
  | arrive (mySense : Bool)
  | resetCount (mySense : Bool)
  | raiseSense (mySense : Bool)
  | waitSense (mySense : Bool)
  /-- `SuggestAlpha` and `CreatePlan`. -/
  | planning
  | launching (plan : Plan)

/-- `PendingCollective`, with the number of the collective. -/
structure Pending where
  seq : ℕ
  plan : Plan
  fastSuccess : Bool
  pcieSuccess : Bool

/-- The steps of `WriteMyStat`. -/
inductive CallbackStage where
  /-- `stat_epoch` is loaded. -/
  | loaded (epoch : ℕ)
  | stamped
  | keyed
  /-- All fields are written but `valid`. -/
  | filled
  deriving DecidableEq, Repr

structure Running (K : Type) where
  seq : ℕ
  stat : ExecStat K
  stage : CallbackStage

/-- The callback has stored to the slot and not set `valid`. -/
def CallbackStage.writing : CallbackStage → Bool
  | .loaded _ => false
  | _ => true

structure State (cfg : Config K) where
  statEpoch : ℕ
  slots : ℕ → StatSlot K
  entries : Entries K
  paramVersion : ℕ
  paramReadCount : ℕ
  barrierCount : ℕ
  barrierSense : Bool
  stage : ℕ → Stage K
  cache : ℕ → ParamCache K
  controller : ℕ → Controller cfg.algo
  pending : ℕ → List Pending
  running : ℕ → List (Running K)
  /-- The plans a rank has computed (history). -/
  plans : ℕ → List Plan
  /-- What each `SignalParamWritten` announced (history). -/
  announced : List (Entries K)
  /-- The barriers completed (history). -/
  released : ℕ
  /-- The callbacks of a rank that have loaded an epoch, all and those before the current
  epoch began (history). -/
  loads : ℕ → ℕ
  loadsBefore : ℕ → ℕ
  /-- The stats of each aggregate (history). -/
  aggregated : List (List Source)

/-- The aggregate of the stats of all ranks: key and bytes of the first, the longest times,
success where all succeeded. -/
def aggregate (seen : List (Reading K)) : Option (OpKey × ExecStat K) :=
  seen.head?.map fun first => (first.key,
    { fastTime := seen.foldl (fun t x => if t < x.stat.fastTime then x.stat.fastTime else t) 0
      pcieTime := seen.foldl (fun t x => if t < x.stat.pcieTime then x.stat.pcieTime else t) 0
      fastBytes := first.stat.fastBytes
      pcieBytes := first.stat.pcieBytes
      fastSuccess := seen.all fun x => x.stat.fastSuccess
      pcieSuccess := seen.all fun x => x.stat.pcieSuccess })

/-- `MergeOne` for every entry. -/
def mergeAll (cache : ParamCache K) (snapshot : Entries K) : ParamCache K :=
  snapshot.foldl (fun cache e => Table.set cache e.1 e.2) cache

def kMaxParamEntries : ℕ := 512
def kMaxConsistentReadRetries : ℕ := 2000

namespace State

variable {cfg : Config K}

def goto (s : State cfg) (r : ℕ) (stage : Stage K) : State cfg :=
  { s with stage := Function.update s.stage r stage }

/-- A callback of the rank is writing its slot. -/
def writing (s : State cfg) (r : ℕ) : Bool := (s.running r).any fun c => c.stage.writing

/-- The callbacks of the rank that have finished. -/
def finished (s : State cfg) (r : ℕ) : ℕ := s.loads r - (s.running r).length

/-- Rank 0 reads the key and the stat of a slot. -/
def read (s : State cfg) (i : ℕ) (raced : Option (OpKey × ExecStat K)) : Reading K :=
  let slot := s.slots i
  let source : Source := ⟨slot.keySeq, slot.statSeq, s.writing i, s.finished i⟩
  match s.writing i, raced with
  | true, some seen => ⟨seen.1, seen.2, source⟩
  | _, _ => ⟨slot.key, slot.stat, source⟩

end State

variable {cfg : Config K}

/-- One step of the host thread of a rank. -/
def threadStep [FloorSemiring K] (s : State cfg) (r : ℕ) (raced : Option (OpKey × ExecStat K)) :
    Option (State cfg) :=
  match s.stage r with
  | .idle => some (s.goto r (if r = 0 then .waitConsumed else .waitParams))
  | .waitConsumed => if s.paramReadCount = 0 then some (s.goto r .loadEpoch) else none
  | .loadEpoch => some (s.goto r (.scanAny s.statEpoch 0))
  | .scanAny epoch i =>
    if i < cfg.nranks then
      some (s.goto r (if (s.slots i).current epoch then .scanAll epoch 0 else .scanAny epoch (i + 1)))
    else some (s.goto r .signal)
  | .scanAll epoch i =>
    if i < cfg.nranks then
      some (s.goto r (if (s.slots i).current epoch then .scanAll epoch (i + 1) else .scanAll epoch 0))
    else some (s.goto r (.gather epoch []))
  | .gather epoch seen =>
    if seen.length < cfg.nranks then
      some (s.goto r (.gather epoch (seen ++ [s.read seen.length raced])))
    else
      (aggregate seen).map fun agg =>
        { s.goto r (.clear epoch 0 agg.1 agg.2) with
          aggregated := s.aggregated ++ [seen.map Reading.source] }
  | .clear epoch i key stat =>
    if i < cfg.nranks then
      some { s.goto r (.clear epoch (i + 1) key stat) with
        slots := Function.update s.slots i { s.slots i with valid := false } }
    else some (s.goto r (.advance epoch key stat))
  | .advance epoch key stat =>
    some { s.goto r (.update key stat) with
      statEpoch := (epoch + 1) % 2 ^ 64
      loadsBefore := s.loads }
  | .update key stat =>
    let next := (s.controller r).update cfg.planner.pcieEnabled key stat (s.cache r)
    some { s.goto r (.writeEntry key) with
      cache := Function.update s.cache r next.1
      controller := Function.update s.controller r next.2 }
  | .writeEntry key =>
    some { s.goto r .bumpVersion with entries := [(key, (s.cache r).lookup key)] }
  | .bumpVersion =>
    some { s.goto r .signal with paramVersion := (s.paramVersion + 1) % 2 ^ 64 }
  | .signal =>
    some { s.goto r (.readVersion 0) with
      paramReadCount := cfg.nranks - 1
      announced := s.announced ++ [s.entries.take kMaxParamEntries] }
  | .waitParams => if s.paramReadCount = 0 then none else some (s.goto r (.readVersion 0))
  | .readVersion retry => some (s.goto r (.readEntries retry s.paramVersion))
  | .readEntries retry version =>
    some (s.goto r (.checkVersion retry version (s.entries.take kMaxParamEntries)))
  | .checkVersion retry version snapshot =>
    if s.paramVersion = version ∨ kMaxConsistentReadRetries ≤ retry + 1 then
      some (s.goto r (.merge snapshot))
    else some (s.goto r (.readVersion (retry + 1)))
  | .merge snapshot =>
    some { s.goto r (if r = 0 then .enterBarrier else .consume) with
      cache := Function.update s.cache r (mergeAll (s.cache r) snapshot) }
  | .consume =>
    some { s.goto r .enterBarrier with
      paramReadCount := (s.paramReadCount + 2 ^ 32 - 1) % 2 ^ 32 }
  | .enterBarrier => some (s.goto r (.arrive (!s.barrierSense)))
  | .arrive mySense =>
    let count := (s.barrierCount + 1) % 2 ^ 32
    some { s.goto r (if count = cfg.nranks then .resetCount mySense else .waitSense mySense) with
      barrierCount := count }
  | .resetCount mySense => some { s.goto r (.raiseSense mySense) with barrierCount := 0 }
  | .raiseSense mySense =>
    some { s.goto r .planning with barrierSense := mySense, released := s.released + 1 }
  | .waitSense mySense => if s.barrierSense = mySense then some (s.goto r .planning) else none
  | .planning =>
    let key := cfg.opKey (s.plans r).length
    let suggested := (s.controller r).suggestAlpha key (s.cache r)
    let plan := createPlan cfg.planner key.bytes suggested.1 ((s.cache r).lookup key).usePcie
    some { s.goto r (.launching plan) with
      controller := Function.update s.controller r suggested.2
      plans := Function.update s.plans r (s.plans r ++ [plan]) }
  | .launching plan =>
    let seq := (s.plans r).length - 1
    let record : Pending :=
      ⟨seq, cfg.launchedPlan seq plan, cfg.fastSuccess r seq, cfg.pcieSuccess r seq⟩
    some { s.goto r .idle with
      pending :=
        if cfg.registers r seq plan then Function.update s.pending r (s.pending r ++ [record])
        else s.pending }

/-- The callback takes the record of its collective, measures, and loads the epoch. -/
def startCallback (s : State cfg) (r i : ℕ) (fastTime pcieTime : K) : Option (State cfg) :=
  ((s.pending r)[i]?).map fun p =>
    let stat : ExecStat K :=
      { fastTime := fastTime
        pcieTime := if p.plan.usePcie then pcieTime else 0
        fastBytes := p.plan.fastBytes
        pcieBytes := p.plan.pcieBytes
        fastSuccess := p.fastSuccess
        pcieSuccess := p.pcieSuccess }
    { s with
      pending := Function.update s.pending r ((s.pending r).eraseIdx i)
      running := Function.update s.running r (s.running r ++ [⟨p.seq, stat, .loaded s.statEpoch⟩])
      loads := Function.update s.loads r (s.loads r + 1) }

namespace State

def setSlot (s : State cfg) (r : ℕ) (slot : StatSlot K) : State cfg :=
  { s with slots := Function.update s.slots r slot }

def setRunning (s : State cfg) (r : ℕ) (cs : List (Running K)) : State cfg :=
  { s with running := Function.update s.running r cs }

end State

/-- One store of a running callback. -/
def callbackStep (s : State cfg) (r i : ℕ) : Option (State cfg) :=
  ((s.running r)[i]?).map fun c =>
    let goto (stage : CallbackStage) := (s.running r).set i { c with stage := stage }
    match c.stage with
    | .loaded epoch =>
      (s.setSlot r { s.slots r with epoch := epoch }).setRunning r (goto .stamped)
    | .stamped =>
      (s.setSlot r { s.slots r with key := cfg.opKey c.seq, keySeq := c.seq }).setRunning r
        (goto .keyed)
    | .keyed =>
      (s.setSlot r { s.slots r with stat := c.stat, statSeq := c.seq }).setRunning r (goto .filled)
    | .filled =>
      (s.setSlot r { s.slots r with valid := true }).setRunning r ((s.running r).eraseIdx i)

inductive Label (K : Type) where
  | thread (r : ℕ) (raced : Option (OpKey × ExecStat K))
  | startCallback (r i : ℕ) (fastTime pcieTime : K)
  | callback (r i : ℕ)

def step [FloorSemiring K] (s : State cfg) : Label K → Option (State cfg)
  | .thread r raced => if r < cfg.nranks then threadStep s r raced else none
  | .startCallback r i fastTime pcieTime =>
    if r < cfg.nranks then startCallback s r i fastTime pcieTime else none
  | .callback r i => if r < cfg.nranks then callbackStep s r i else none

def machine [FloorSemiring K] (cfg : Config K) : Theory.Machine (State cfg) (Label K) := ⟨step⟩

/-- All ranks are attached.  Slots, entries and their version may be left from before; the
flags of the slots are reset. -/
def attached (cfg : Config K) (slots : ℕ → StatSlot K) (entries : Entries K) (version : ℕ) :
    State cfg where
  statEpoch := 0
  slots := fun r => { slots r with valid := false }
  entries := entries
  paramVersion := version
  paramReadCount := 0
  barrierCount := 0
  barrierSense := false
  stage := fun _ => .idle
  cache := fun _ => Table.empty
  controller := fun _ => Table.empty
  pending := fun _ => []
  running := fun _ => []
  plans := fun _ => []
  announced := []
  released := 0
  loads := fun _ => 0
  loadsBefore := fun _ => 0
  aggregated := []

/-! ## What a step of a thread can do -/

/-- `Advance s r s'`: the thread of rank `r` takes a step from `s` to `s'`. -/
inductive Advance [FloorSemiring K] (s : State cfg) (r : ℕ) : State cfg → Prop where
  | enterFirst (hst : s.stage r = .idle) (hr : r = 0) : Advance s r (s.goto r .waitConsumed)
  | enter (hst : s.stage r = .idle) (hr : r ≠ 0) : Advance s r (s.goto r .waitParams)
  | allConsumed (hst : s.stage r = .waitConsumed) (hzero : s.paramReadCount = 0) :
    Advance s r (s.goto r .loadEpoch)
  | loadEpoch (hst : s.stage r = .loadEpoch) : Advance s r (s.goto r (.scanAny s.statEpoch 0))
  | found {epoch i : ℕ} (hst : s.stage r = .scanAny epoch i) (hi : i < cfg.nranks)
    (hc : (s.slots i).current epoch = true) : Advance s r (s.goto r (.scanAll epoch 0))
  | notFound {epoch i : ℕ} (hst : s.stage r = .scanAny epoch i) (hi : i < cfg.nranks)
    (hc : (s.slots i).current epoch = false) : Advance s r (s.goto r (.scanAny epoch (i + 1)))
  | noneFound {epoch i : ℕ} (hst : s.stage r = .scanAny epoch i) (hi : cfg.nranks ≤ i) :
    Advance s r (s.goto r .signal)
  | present {epoch i : ℕ} (hst : s.stage r = .scanAll epoch i) (hi : i < cfg.nranks)
    (hc : (s.slots i).current epoch = true) : Advance s r (s.goto r (.scanAll epoch (i + 1)))
  | missing {epoch i : ℕ} (hst : s.stage r = .scanAll epoch i) (hi : i < cfg.nranks)
    (hc : (s.slots i).current epoch = false) : Advance s r (s.goto r (.scanAll epoch 0))
  | allPresent {epoch i : ℕ} (hst : s.stage r = .scanAll epoch i) (hi : cfg.nranks ≤ i) :
    Advance s r (s.goto r (.gather epoch []))
  | gather {epoch : ℕ} {seen : List (Reading K)} (raced : Option (OpKey × ExecStat K))
    (hst : s.stage r = .gather epoch seen) (hlen : seen.length < cfg.nranks) :
    Advance s r (s.goto r (.gather epoch (seen ++ [s.read seen.length raced])))
  | aggregate {epoch : ℕ} {seen : List (Reading K)} {agg : OpKey × ExecStat K}
    (hst : s.stage r = .gather epoch seen) (hlen : cfg.nranks ≤ seen.length)
    (hagg : aggregate seen = some agg) :
    Advance s r { s.goto r (.clear epoch 0 agg.1 agg.2) with
      aggregated := s.aggregated ++ [seen.map Reading.source] }
  | clear {epoch i : ℕ} {key : OpKey} {stat : ExecStat K}
    (hst : s.stage r = .clear epoch i key stat) (hi : i < cfg.nranks) :
    Advance s r { s.goto r (.clear epoch (i + 1) key stat) with
      slots := Function.update s.slots i { s.slots i with valid := false } }
  | cleared {epoch i : ℕ} {key : OpKey} {stat : ExecStat K}
    (hst : s.stage r = .clear epoch i key stat) (hi : cfg.nranks ≤ i) :
    Advance s r (s.goto r (.advance epoch key stat))
  | advance {epoch : ℕ} {key : OpKey} {stat : ExecStat K}
    (hst : s.stage r = .advance epoch key stat) :
    Advance s r { s.goto r (.update key stat) with
      statEpoch := (epoch + 1) % 2 ^ 64
      loadsBefore := s.loads }
  | update {key : OpKey} {stat : ExecStat K} (hst : s.stage r = .update key stat) :
    Advance s r { s.goto r (.writeEntry key) with
      cache := Function.update s.cache r
        ((s.controller r).update cfg.planner.pcieEnabled key stat (s.cache r)).1
      controller := Function.update s.controller r
        ((s.controller r).update cfg.planner.pcieEnabled key stat (s.cache r)).2 }
  | writeEntry {key : OpKey} (hst : s.stage r = .writeEntry key) :
    Advance s r { s.goto r .bumpVersion with entries := [(key, (s.cache r).lookup key)] }
  | bumpVersion (hst : s.stage r = .bumpVersion) :
    Advance s r { s.goto r .signal with paramVersion := (s.paramVersion + 1) % 2 ^ 64 }
  | signal (hst : s.stage r = .signal) :
    Advance s r { s.goto r (.readVersion 0) with
      paramReadCount := cfg.nranks - 1
      announced := s.announced ++ [s.entries.take kMaxParamEntries] }
  | notified (hst : s.stage r = .waitParams) (hcount : s.paramReadCount ≠ 0) :
    Advance s r (s.goto r (.readVersion 0))
  | readVersion {retry : ℕ} (hst : s.stage r = .readVersion retry) :
    Advance s r (s.goto r (.readEntries retry s.paramVersion))
  | readEntries {retry version : ℕ} (hst : s.stage r = .readEntries retry version) :
    Advance s r (s.goto r (.checkVersion retry version (s.entries.take kMaxParamEntries)))
  | consistent {retry version : ℕ} {snapshot : Entries K}
    (hst : s.stage r = .checkVersion retry version snapshot) :
    Advance s r (s.goto r (.merge snapshot))
  | retry {retry version : ℕ} {snapshot : Entries K}
    (hst : s.stage r = .checkVersion retry version snapshot) :
    Advance s r (s.goto r (.readVersion (retry + 1)))
  | mergeFirst {snapshot : Entries K} (hst : s.stage r = .merge snapshot) (hr : r = 0) :
    Advance s r { s.goto r .enterBarrier with
      cache := Function.update s.cache r (mergeAll (s.cache r) snapshot) }
  | merge {snapshot : Entries K} (hst : s.stage r = .merge snapshot) (hr : r ≠ 0) :
    Advance s r { s.goto r .consume with
      cache := Function.update s.cache r (mergeAll (s.cache r) snapshot) }
  | consume (hst : s.stage r = .consume) :
    Advance s r { s.goto r .enterBarrier with
      paramReadCount := (s.paramReadCount + 2 ^ 32 - 1) % 2 ^ 32 }
  | enterBarrier (hst : s.stage r = .enterBarrier) :
    Advance s r (s.goto r (.arrive (!s.barrierSense)))
  | arrive {m : Bool} (hst : s.stage r = .arrive m) :
    Advance s r { s.goto r
        (if (s.barrierCount + 1) % 2 ^ 32 = cfg.nranks then .resetCount m else .waitSense m) with
      barrierCount := (s.barrierCount + 1) % 2 ^ 32 }
  | resetCount {m : Bool} (hst : s.stage r = .resetCount m) :
    Advance s r { s.goto r (.raiseSense m) with barrierCount := 0 }
  | raiseSense {m : Bool} (hst : s.stage r = .raiseSense m) :
    Advance s r { s.goto r .planning with barrierSense := m, released := s.released + 1 }
  | sensed {m : Bool} (hst : s.stage r = .waitSense m) (hm : s.barrierSense = m) :
    Advance s r (s.goto r .planning)
  | plan {key : OpKey} {suggested : K × Controller cfg.algo} {plan : Plan}
    (hst : s.stage r = .planning) (hkey : key = cfg.opKey (s.plans r).length)
    (hsug : suggested = (s.controller r).suggestAlpha key (s.cache r))
    (hplan : plan = createPlan cfg.planner key.bytes suggested.1
      ((s.cache r).lookup key).usePcie) :
    Advance s r { s.goto r (.launching plan) with
      controller := Function.update s.controller r suggested.2
      plans := Function.update s.plans r (s.plans r ++ [plan]) }
  | launch {plan : Plan} {seq : ℕ} (hst : s.stage r = .launching plan)
    (hseq : seq = (s.plans r).length - 1) (hreg : cfg.registers r seq plan = true) :
    Advance s r { s.goto r .idle with
      pending := Function.update s.pending r (s.pending r ++
        [⟨seq, cfg.launchedPlan seq plan, cfg.fastSuccess r seq, cfg.pcieSuccess r seq⟩]) }
  | launchSilent {plan : Plan} {seq : ℕ} (hst : s.stage r = .launching plan)
    (hseq : seq = (s.plans r).length - 1) (hreg : cfg.registers r seq plan = false) :
    Advance s r (s.goto r .idle)

/-- **The steps of a thread.** -/
theorem threadStep_advance [FloorSemiring K] {s s' : State cfg} {r : ℕ}
    {raced : Option (OpKey × ExecStat K)} (h : threadStep s r raced = some s') :
    Advance s r s' := by
  unfold threadStep at h
  cases hst : s.stage r <;> rw [hst] at h <;> dsimp only at h
  case idle =>
    cases h
    by_cases hr : r = 0
    · rw [if_pos hr]
      exact .enterFirst hst hr
    · rw [if_neg hr]
      exact .enter hst hr
  case waitConsumed =>
    split at h
    · cases h
      exact .allConsumed hst (by assumption)
    · cases h
  case loadEpoch =>
    cases h
    exact .loadEpoch hst
  case scanAny epoch i =>
    split at h
    · cases h
      rename_i hi
      by_cases hc : (s.slots i).current epoch = true
      · rw [if_pos hc]
        exact .found hst hi hc
      · rw [if_neg hc]
        exact .notFound hst hi (Bool.not_eq_true _ ▸ hc)
    · cases h
      exact .noneFound hst (by omega)
  case scanAll epoch i =>
    split at h
    · cases h
      rename_i hi
      by_cases hc : (s.slots i).current epoch = true
      · rw [if_pos hc]
        exact .present hst hi hc
      · rw [if_neg hc]
        exact .missing hst hi (Bool.not_eq_true _ ▸ hc)
    · cases h
      exact .allPresent hst (by omega)
  case gather epoch seen =>
    split at h
    · cases h
      exact .gather raced hst (by assumption)
    · obtain ⟨agg, hagg, rfl⟩ := Option.map_eq_some_iff.1 h
      exact .aggregate hst (by omega) hagg
  case clear epoch i key stat =>
    split at h
    · cases h
      exact .clear hst (by assumption)
    · cases h
      exact .cleared hst (by omega)
  case advance epoch key stat =>
    cases h
    exact .advance hst
  case update key stat =>
    cases h
    exact .update hst
  case writeEntry key =>
    cases h
    exact .writeEntry hst
  case bumpVersion =>
    cases h
    exact .bumpVersion hst
  case signal =>
    cases h
    exact .signal hst
  case waitParams =>
    split at h
    · cases h
    · cases h
      exact .notified hst (by assumption)
  case readVersion retry =>
    cases h
    exact .readVersion hst
  case readEntries retry version =>
    cases h
    exact .readEntries hst
  case checkVersion retry version snapshot =>
    split at h
    · cases h
      exact .consistent hst
    · cases h
      exact .retry hst
  case merge snapshot =>
    cases h
    by_cases hr : r = 0
    · rw [if_pos hr]
      exact .mergeFirst hst hr
    · rw [if_neg hr]
      exact .merge hst hr
  case consume =>
    cases h
    exact .consume hst
  case enterBarrier =>
    cases h
    exact .enterBarrier hst
  case arrive m =>
    cases h
    exact .arrive hst
  case resetCount m =>
    cases h
    exact .resetCount hst
  case raiseSense m =>
    cases h
    exact .raiseSense hst
  case waitSense m =>
    split at h
    · cases h
      exact .sensed hst (by assumption)
    · cases h
  case planning =>
    cases h
    exact .plan hst rfl rfl rfl
  case launching plan =>
    cases h
    by_cases hreg : cfg.registers r ((s.plans r).length - 1) plan = true
    · rw [if_pos hreg]
      exact .launch hst rfl hreg
    · rw [if_neg hreg]
      exact .launchSilent hst rfl (Bool.not_eq_true _ ▸ hreg)

end Feedback
end Orchestrator
end HyLink
