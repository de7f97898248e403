import Mathlib.Logic.Function.Basic
import Mathlib.Tactic.NormNum
import Mathlib.Tactic.Ring
import HyLink.Orchestrator.Planner

/-!
# The adaptive controller of a communicator

The parameter cache, the three adaptive algorithms with their factory, and
`AdaptiveController`.  Both maps are keyed by what `OpKey::operator==` compares.  `double` is a number
of any ordered field; environment variables are fields of the configuration.

* `SplitRatio.update_pos` — the split ratio stays positive once it is.
-/

namespace HyLink
namespace Orchestrator
namespace Feedback

inductive CollectiveType where
  | allReduce | allGather | reduceScatter | allToAll
  deriving DecidableEq, Repr

structure OpKey where
  op : CollectiveType
  bytes : ℕ
  bucketBytes : ℕ
  datatype : ℕ
  nranks : ℕ
  topologyHash : ℕ
  deriving DecidableEq, Repr

/-- `ParamBytes`. -/
def OpKey.paramBytes (k : OpKey) : ℕ := if k.bucketBytes ≠ 0 then k.bucketBytes else k.bytes

/-- What `OpKey::operator==` and the hash look at. -/
structure KeyIdent where
  op : CollectiveType
  paramBytes : ℕ
  datatype : ℕ
  nranks : ℕ
  topologyHash : ℕ
  deriving DecidableEq, Repr

def OpKey.ident (k : OpKey) : KeyIdent := ⟨k.op, k.paramBytes, k.datatype, k.nranks, k.topologyHash⟩

/-- An `unordered_map` over `OpKey`. -/
abbrev Table (V : Type) := KeyIdent → Option V

namespace Table

variable {V : Type}

def empty : Table V := fun _ => none

def find (t : Table V) (key : OpKey) : Option V := t key.ident

/-- `table_[key] = value`. -/
def set (t : Table V) (key : OpKey) (value : V) : Table V := Function.update t key.ident (some value)

end Table

structure ParamValue (K : Type) where
  alpha : K
  usePcie : Bool
  fastBw : K
  pcieBw : K
  bestAlpha : K
  bestBandwidth : K
  deriving DecidableEq, Repr

structure ExecStat (K : Type) where
  fastTime : K
  pcieTime : K
  fastBytes : ℕ
  pcieBytes : ℕ
  fastSuccess : Bool
  pcieSuccess : Bool
  deriving DecidableEq, Repr

variable {K : Type} [Field K] [LinearOrder K]

abbrev ParamCache (K : Type) := Table (ParamValue K)

/-- Half the bytes and PCIe on. -/
def ParamValue.unknown : ParamValue K := ⟨1 / 2, true, 0, 0, 0, 0⟩

/-- `ParamCache::Lookup`. -/
def ParamCache.lookup (cache : ParamCache K) (key : OpKey) : ParamValue K :=
  (Table.find cache key).getD .unknown

def ExecStat.fastBandwidth (stat : ExecStat K) : K :=
  if 0 < stat.fastTime ∧ 0 < stat.fastBytes then stat.fastBytes / stat.fastTime / 1024 ^ 3 else 0

def ExecStat.pcieBandwidth (stat : ExecStat K) : K :=
  if 0 < stat.pcieTime ∧ 0 < stat.pcieBytes then stat.pcieBytes / stat.pcieTime / 1024 ^ 3 else 0

/-! ## The algorithms -/

/-- The interface `AdaptiveAlgo`.  `suggest` is the object after `Suggest`, which returns its
`alpha_` in every algorithm. -/
structure AdaptiveAlgo (K : Type) where
  State : Type
  initial : State
  suggest : ParamValue K → State → State
  update : ExecStat K → State → State
  alpha : State → K
  bestAlpha : State → K
  bestBandwidth : State → K

namespace InverseProportion

/-- What the constructor reads from the environment and from the number of ranks. -/
structure Params (K : Type) where
  initialAlpha : K
  holdRateLow : K
  holdRateHigh : K
  decreaseFactor : K

structure State (K : Type) where
  alpha : K
  bestAlpha : K
  bestBandwidth : K
  firstFlag : ℕ

def minAlpha : K := 1 / 1000
def maxAlpha : K := 39 / 100

def clamp (alpha : K) : K :=
  let alpha := if alpha < minAlpha then minAlpha else alpha
  if maxAlpha < alpha then maxAlpha else alpha

def suggest (current : ParamValue K) (s : State K) : State K :=
  { s with
    alpha := clamp current.alpha
    bestAlpha := current.bestAlpha
    bestBandwidth := current.bestBandwidth }

def update (params : Params K) (stat : ExecStat K) (s : State K) : State K :=
  if ¬ stat.fastSuccess ∨ ¬ stat.pcieSuccess then
    let alpha := s.alpha * params.decreaseFactor
    { s with alpha := if alpha < minAlpha then minAlpha else alpha }
  else if stat.pcieBytes = 0 then s
  else
    let s := { s with firstFlag := s.firstFlag + 1 }
    if s.firstFlag ≤ 2 then s
    else if 0 < stat.pcieTime ∧ 0 < stat.fastTime then
      let rate := stat.fastTime / stat.pcieTime
      if params.holdRateLow < rate ∧ rate < params.holdRateHigh then s
      else if rate ≤ params.holdRateLow then { s with alpha := clamp (s.alpha * (1 / 2)) }
      else if params.holdRateHigh ≤ rate then
        { s with alpha := clamp (s.alpha * (rate * (96 / 100))) }
      else { s with alpha := clamp s.alpha }
    else { s with alpha := clamp s.alpha }

def algo (params : Params K) : AdaptiveAlgo K where
  State := State K
  initial := ⟨params.initialAlpha, 12976 / 100000, 0, 0⟩
  suggest := suggest
  update := update params
  alpha := State.alpha
  bestAlpha := State.bestAlpha
  bestBandwidth := State.bestBandwidth

end InverseProportion

namespace SplitRatio

/-- What the algorithm reads from the environment; the getters of `smooth` and `eta` give a
number between 0 and 1. -/
structure Params (K : Type) [Field K] [LinearOrder K] where
  initialAlpha : K
  minAlpha : K
  smooth : K
  eta : K
  warmupSteps : ℕ
  smooth_pos : 0 < smooth
  smooth_lt : smooth < 1
  eta_pos : 0 < eta
  eta_lt : eta < 1

structure State (K : Type) where
  alpha : K
  bpHat : K
  bestAlpha : K
  bestBandwidth : K
  updateCount : ℕ

def maxAlpha : K := 999 / 1000
def kMinBandwidthSampleBytes : ℕ := 4 * 1024 * 1024
def kMinPenaltyBytes : ℕ := 16 * 1024 * 1024

/-- `std::max(min_a, std::min(max_alpha_, alpha_))`. -/
def clamp (params : Params K) (alpha : K) : K := max params.minAlpha (min maxAlpha alpha)

def suggest (params : Params K) (current : ParamValue K) (s : State K) : State K :=
  let alpha := if 0 < current.alpha then current.alpha else s.alpha
  { s with
    alpha := clamp params alpha
    bestAlpha := current.bestAlpha
    bestBandwidth := current.bestBandwidth }

/-- The moving average of the PCIe bandwidth after a sample `bp`. -/
def nextBpHat (params : Params K) (pcieBytes : ℕ) (bp bpHat : K) : K :=
  if kMinBandwidthSampleBytes ≤ pcieBytes ∨ bpHat ≤ 0 then
    if bpHat ≤ 0 then bp else params.smooth * bp + (1 - params.smooth) * bpHat
  else bpHat

/-- The split ratio before it is clamped; `steps` is `update_count_`. -/
def nextAlpha (params : Params K) (pcieBytes steps : ℕ) (bpHat bf alpha : K) : K :=
  let towards := alpha + params.eta * (bpHat / (bpHat + bf) - alpha)
  if steps ≤ params.warmupSteps then towards
  else if (1 - alpha) / bf * (105 / 100) < alpha / bpHat then
    if kMinPenaltyBytes ≤ pcieBytes then alpha * (9 / 10) else towards
  else towards

def update (params : Params K) (stat : ExecStat K) (s : State K) : State K :=
  let s := { s with updateCount := s.updateCount + 1 }
  if ¬ stat.fastSuccess ∨ ¬ stat.pcieSuccess then
    let alpha := s.alpha * (1 / 2)
    { s with alpha := if alpha < params.minAlpha then params.minAlpha else alpha }
  else if stat.pcieBytes = 0 then s
  else if stat.pcieBandwidth ≤ 0 ∨ stat.fastBandwidth ≤ 0 then s
  else
    let bpHat := nextBpHat params stat.pcieBytes stat.pcieBandwidth s.bpHat
    { s with
      bpHat := bpHat
      alpha := clamp params
        (nextAlpha params stat.pcieBytes s.updateCount bpHat stat.fastBandwidth s.alpha) }

def algo (params : Params K) : AdaptiveAlgo K where
  State := State K
  initial := ⟨params.initialAlpha, 0, 0, 0, 0⟩
  suggest := suggest params
  update := update params
  alpha := State.alpha
  bestAlpha := State.bestAlpha
  bestBandwidth := State.bestBandwidth

end SplitRatio

/-- `StaticAlgo`. -/
def staticAlgo (alpha : K) : AdaptiveAlgo K where
  State := K
  initial := alpha
  suggest := fun _ s => s
  update := fun _ s => s
  alpha := id
  bestAlpha := fun _ => 0
  bestBandwidth := fun _ => 0

/-- `AdaptiveAlgorithm` with what its constructor reads. -/
inductive Algorithm (K : Type) [Field K] [LinearOrder K] where
  | inverseProportion (params : InverseProportion.Params K)
  | splitRatio (params : SplitRatio.Params K)
  | static (alpha : K)

/-- `AlgoFactory::Create`. -/
def Algorithm.create : Algorithm K → AdaptiveAlgo K
  | .inverseProportion params => InverseProportion.algo params
  | .splitRatio params => SplitRatio.algo params
  | .static alpha => staticAlgo alpha

/-! ## The parts of an update -/

/-- A quotient, if it is one. -/
def checkedDiv (x y : K) : Option K := if y = 0 then none else some (x / y)

/-- `GetFastBandwidth` or `GetPCIeBandwidth`. -/
def checkedBandwidth (time : K) (bytes : ℕ) : Option K :=
  if 0 < time ∧ 0 < bytes then
    (checkedDiv (bytes : K) time).bind fun rate => checkedDiv rate (1024 ^ 3)
  else some 0

namespace InverseProportion

/-- `decrease_factor_` of the constructor; `root` is what `std::sqrt(2.0 / n)` returns. -/
def decreaseFactor (nranks : ℤ) (root : K) : K :=
  if nranks ≤ 1 then 1 / 2
  else
    let factor := 1 / 2 * root
    let factor := if factor < 1 / 5 then 1 / 5 else factor
    if 1 < factor then 1 else factor

/-- The ratio after a call that failed. -/
def lowered (params : Params K) (s : State K) : K :=
  if s.alpha * params.decreaseFactor < minAlpha then minAlpha else s.alpha * params.decreaseFactor

/-- `Update`, where no divisor may be zero. -/
def checkedUpdate (params : Params K) (stat : ExecStat K) (s : State K) : Option (State K) :=
  if ¬ stat.fastSuccess ∨ ¬ stat.pcieSuccess then
    let alpha := s.alpha * params.decreaseFactor
    some { s with alpha := if alpha < minAlpha then minAlpha else alpha }
  else if stat.pcieBytes = 0 then some s
  else
    let s := { s with firstFlag := s.firstFlag + 1 }
    if s.firstFlag ≤ 2 then some s
    else if 0 < stat.pcieTime ∧ 0 < stat.fastTime then
      (checkedDiv stat.fastTime stat.pcieTime).map fun rate =>
        if params.holdRateLow < rate ∧ rate < params.holdRateHigh then s
        else if rate ≤ params.holdRateLow then { s with alpha := clamp (s.alpha * (1 / 2)) }
        else if params.holdRateHigh ≤ rate then
          { s with alpha := clamp (s.alpha * (rate * (96 / 100))) }
        else { s with alpha := clamp s.alpha }
    else some { s with alpha := clamp s.alpha }

end InverseProportion

namespace SplitRatio

/-- The ratio after a call that failed. -/
def lowered (params : Params K) (s : State K) : K :=
  if s.alpha * (1 / 2) < params.minAlpha then params.minAlpha else s.alpha * (1 / 2)

/-- The bandwidth average and the ratio of an update with two bandwidths, where no divisor may be
zero. -/
def checkedNext (params : Params K) (pcieBytes steps : ℕ) (bp bf : K) (s : State K) :
    Option (K × K) :=
  let bpHat := nextBpHat params pcieBytes bp s.bpHat
  (checkedDiv bpHat (bpHat + bf)).bind fun xStar =>
    (checkedDiv s.alpha bpHat).bind fun tPcie =>
      (checkedDiv (1 - s.alpha) bf).map fun tFast =>
        let towards := s.alpha + params.eta * (xStar - s.alpha)
        (bpHat, clamp params
          (if steps ≤ params.warmupSteps then towards
          else if tFast * (105 / 100) < tPcie then
            if kMinPenaltyBytes ≤ pcieBytes then s.alpha * (9 / 10) else towards
          else towards))

/-- `Update`, where no divisor may be zero. -/
def checkedUpdate (params : Params K) (stat : ExecStat K) (s : State K) : Option (State K) :=
  let s := { s with updateCount := s.updateCount + 1 }
  if ¬ stat.fastSuccess ∨ ¬ stat.pcieSuccess then
    let alpha := s.alpha * (1 / 2)
    some { s with alpha := if alpha < params.minAlpha then params.minAlpha else alpha }
  else if stat.pcieBytes = 0 then some s
  else
    (checkedBandwidth stat.pcieTime stat.pcieBytes).bind fun bp =>
      (checkedBandwidth stat.fastTime stat.fastBytes).bind fun bf =>
        if bp ≤ 0 ∨ bf ≤ 0 then some s
        else
          (checkedNext params stat.pcieBytes s.updateCount bp bf s).map fun next =>
            { s with bpHat := next.1, alpha := next.2 }

end SplitRatio

/-! ## The controller -/

/-- `algorithms_` of a controller. -/
abbrev Controller (A : AdaptiveAlgo K) := Table A.State

namespace Controller

variable {A : AdaptiveAlgo K}

/-- `GetOrCreateAlgoLocked`. -/
def getOrCreate (c : Controller A) (key : OpKey) : A.State := (Table.find c key).getD A.initial

/-- `SuggestAlpha`, with the controller after the call. -/
def suggestAlpha (c : Controller A) (key : OpKey) (cache : ParamCache K) : K × Controller A :=
  let algo := c.getOrCreate key
  match Table.find cache key with
  | none => (A.alpha algo, Table.set c key algo)
  | some current =>
    let algo := A.suggest current algo
    (A.alpha algo, Table.set c key algo)

/-- The parameters `Update` stores. -/
def updated (pcieEnabled : Bool) (stat : ExecStat K) (algo : A.State) (prev : ParamValue K) :
    ParamValue K where
  alpha := A.alpha algo
  usePcie :=
    if pcieEnabled then
      if 0 < stat.pcieBytes then stat.pcieSuccess && decide (0 < stat.pcieBandwidth)
      else prev.usePcie
    else false
  fastBw := stat.fastBandwidth
  pcieBw := stat.pcieBandwidth
  bestAlpha := A.bestAlpha algo
  bestBandwidth := A.bestBandwidth algo

/-- `Update`, with the controller after the call. -/
def update (pcieEnabled : Bool) (c : Controller A) (key : OpKey) (stat : ExecStat K)
    (cache : ParamCache K) : ParamCache K × Controller A :=
  let algo := A.update stat (c.getOrCreate key)
  let value := updated pcieEnabled stat algo (cache.lookup key)
  (Table.set cache key value, Table.set c key algo)

end Controller

/-! ## The split ratio stays positive -/

namespace SplitRatio

variable [IsStrictOrderedRing K] (params : Params K)

theorem clamp_pos {alpha : K} (h : 0 < alpha) : 0 < clamp params alpha := by
  have hmax : (0 : K) < maxAlpha := by
    unfold maxAlpha
    norm_num
  exact lt_max_of_lt_right (lt_min hmax h)

theorem nextBpHat_pos {bp bpHat : K} (pcieBytes : ℕ) (h : 0 < bp) :
    0 < nextBpHat params pcieBytes bp bpHat := by
  unfold nextBpHat
  by_cases hold : bpHat ≤ 0
  · rw [if_pos (.inr hold), if_pos hold]
    exact h
  · have hpos : 0 < bpHat := not_le.1 hold
    rw [if_neg hold]
    split
    · have h1 := mul_pos params.smooth_pos h
      have h2 := mul_pos (sub_pos.2 params.smooth_lt) hpos
      exact add_pos h1 h2
    · exact hpos

theorem nextAlpha_pos {bpHat bf alpha : K} (pcieBytes steps : ℕ) (hbp : 0 < bpHat) (hbf : 0 < bf)
    (h : 0 < alpha) : 0 < nextAlpha params pcieBytes steps bpHat bf alpha := by
  have htowards : 0 < alpha + params.eta * (bpHat / (bpHat + bf) - alpha) := by
    have hstar : 0 < bpHat / (bpHat + bf) := div_pos hbp (add_pos hbp hbf)
    have h1 := mul_pos params.eta_pos hstar
    have h2 := mul_pos (sub_pos.2 params.eta_lt) h
    calc (0 : K) < params.eta * (bpHat / (bpHat + bf)) + (1 - params.eta) * alpha := add_pos h1 h2
      _ = alpha + params.eta * (bpHat / (bpHat + bf) - alpha) := by ring
  unfold nextAlpha
  dsimp only
  split
  · exact htowards
  · split
    · split
      · exact mul_pos h (by norm_num)
      · exact htowards
    · exact htowards

/-- **A positive split ratio stays positive.** -/
theorem update_pos (stat : ExecStat K) {s : State K} (h : 0 < s.alpha) :
    0 < (update params stat s).alpha := by
  unfold update
  dsimp only
  split
  · have hhalf : 0 < s.alpha * (1 / 2) := mul_pos h (by norm_num)
    show 0 < if s.alpha * (1 / 2) < params.minAlpha then params.minAlpha else s.alpha * (1 / 2)
    split
    · rename_i hlt
      exact hhalf.trans hlt
    · exact hhalf
  · split
    · exact h
    · split
      · exact h
      · rename_i hbw
        have hp : 0 < stat.pcieBandwidth := not_le.1 fun hle => hbw (.inl hle)
        have hf : 0 < stat.fastBandwidth := not_le.1 fun hle => hbw (.inr hle)
        apply clamp_pos
        exact nextAlpha_pos params _ _ (nextBpHat_pos params _ hp) hf h

omit [IsStrictOrderedRing K] in
/-- An update either keeps the split ratio or leaves it at the lower bound or above. -/
theorem update_eq_or_le (stat : ExecStat K) (s : State K) :
    (update params stat s).alpha = s.alpha ∨ params.minAlpha ≤ (update params stat s).alpha := by
  unfold update
  dsimp only
  split
  · apply Or.inr
    show params.minAlpha ≤
      if s.alpha * (1 / 2) < params.minAlpha then params.minAlpha else s.alpha * (1 / 2)
    split
    · exact le_refl _
    · rename_i hlt
      exact not_lt.1 hlt
  · split
    · exact .inl rfl
    · split
      · exact .inl rfl
      · exact .inr (le_max_left _ _)

end SplitRatio

end Feedback
end Orchestrator
end HyLink
