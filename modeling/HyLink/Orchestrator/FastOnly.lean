import Mathlib.Tactic.FieldSimp
import Mathlib.Tactic.Linarith
import HyLink.Orchestrator.Conservation
import HyLink.Orchestrator.Controller

/-!
# A collective without a PCIe transfer

What `Update` makes of the stat of a collective that launched no PCIe transfer.  `Update` leaves
`use_pcie` where the stat has no PCIe bytes, and so do the algorithms with the ratio.  The stat has
the bytes of the plan, though: a plan for the fast library alone that was rounded up has a wrapped
PCIe part, and a collective whose staging buffer was not allocated keeps its hybrid plan.

* `Reaction` — what an algorithm does with such a stat, for each of the three algorithms.
* `undisturbed_iff` — when the parameters of a key stay.
-/

namespace HyLink
namespace Orchestrator
namespace Feedback

variable {K : Type} [Field K] [LinearOrder K]

/-! ## The algorithms -/

/-- What an algorithm does with the stat of a collective without a PCIe transfer. -/
structure Reaction (A : AdaptiveAlgo K) where
  /-- The ratio after a call that failed. -/
  lowered : A.State → K
  /-- No times that are measured move the ratio. -/
  Quiet : A.State → Prop
  update_failed : ∀ stat s, stat.fastSuccess = false → A.alpha (A.update stat s) = lowered s
  update_none : ∀ stat s, stat.fastSuccess = true → stat.pcieSuccess = true →
    stat.pcieBytes = 0 → A.alpha (A.update stat s) = A.alpha s
  update_unlaunched : ∀ (fastBytes pcieBytes : ℕ) (s : A.State) (x : K), 0 < fastBytes →
    0 < pcieBytes →
    ((∀ fastTime pcieTime : K, 0 ≤ fastTime → 0 < pcieTime →
      A.alpha (A.update ⟨fastTime, pcieTime, fastBytes, pcieBytes, true, true⟩ s) = x) ↔
        A.alpha s = x ∧ Quiet s)

namespace InverseProportion

variable (params : Params K)

/-- What the constructor makes sure of. -/
structure Params.Valid : Prop where
  low_pos : 0 < params.holdRateLow
  low_lt_high : params.holdRateLow < params.holdRateHigh

/-- The first two collectives do not count. -/
def Quiet (s : State K) : Prop := s.firstFlag + 1 ≤ 2

theorem update_failed (stat : ExecStat K) (s : State K) (h : stat.fastSuccess = false) :
    (update params stat s).alpha = lowered params s := by
  unfold update lowered
  rw [if_pos (by simp [h])]

theorem update_none (stat : ExecStat K) (s : State K) (hfast : stat.fastSuccess = true)
    (hpcie : stat.pcieSuccess = true) (hbytes : stat.pcieBytes = 0) :
    (update params stat s).alpha = s.alpha := by
  unfold update
  rw [if_neg (by simp [hfast, hpcie]), if_pos hbytes]

variable [IsStrictOrderedRing K]

theorem minAlpha_le_clamp (x : K) : minAlpha ≤ clamp x := by
  have hle : (minAlpha : K) ≤ maxAlpha := by
    unfold minAlpha maxAlpha
    norm_num
  unfold clamp
  grind

theorem lt_clamp {x y : K} (hx : x ≤ minAlpha) (hy : minAlpha < y) : x < clamp y := by
  have hlt : (minAlpha : K) < maxAlpha := by
    unfold minAlpha maxAlpha
    norm_num
  unfold clamp
  grind

/-- Half a ratio above the least one is clamped to less than the ratio. -/
theorem clamp_half_lt {x : K} (h : minAlpha < x) : clamp (x * (1 / 2)) < x := by
  have hpos : (0 : K) < minAlpha := by
    unfold minAlpha
    norm_num
  have hhalf : x * (1 / 2) < x := by linarith
  unfold clamp
  grind

/-- **Some times move the ratio** once two collectives have been counted. -/
theorem exists_moves (hvalid : params.Valid) {fastBytes pcieBytes : ℕ} (s : State K)
    (hpcie : 0 < pcieBytes) (hflag : ¬Quiet s) :
    ∃ fastTime : K, 0 ≤ fastTime ∧
      (update params ⟨fastTime, 1, fastBytes, pcieBytes, true, true⟩ s).alpha ≠ s.alpha := by
  have hlow := hvalid.low_pos
  have hhigh := hlow.trans hvalid.low_lt_high
  by_cases hmin : minAlpha < s.alpha
  · refine ⟨params.holdRateLow, hlow.le, ?_⟩
    have halpha : (update params ⟨params.holdRateLow, 1, fastBytes, pcieBytes, true, true⟩ s).alpha
        = clamp (s.alpha * (1 / 2)) := by
      unfold update
      simp [hpcie.ne', hlow, show ¬s.firstFlag + 1 ≤ 2 from hflag]
    rw [halpha]
    exact (clamp_half_lt hmin).ne
  · rcases lt_or_eq_of_le (not_lt.1 hmin) with hlt | heq
    · refine ⟨0, le_refl _, ?_⟩
      have halpha : (update params ⟨0, 1, fastBytes, pcieBytes, true, true⟩ s).alpha =
          clamp s.alpha := by
        unfold update
        simp [hpcie.ne', show ¬s.firstFlag + 1 ≤ 2 from hflag]
      rw [halpha]
      exact (hlt.trans_le (minAlpha_le_clamp _)).ne'
    · have hrate : params.holdRateHigh ≤ max params.holdRateHigh 2 := le_max_left _ _
      have htwo : (2 : K) ≤ max params.holdRateHigh 2 := le_max_right _ _
      generalize max params.holdRateHigh 2 = rate at hrate htwo
      have hpos : 0 < rate := by linarith
      refine ⟨rate, hpos.le, ?_⟩
      have halpha : (update params ⟨rate, 1, fastBytes, pcieBytes, true, true⟩ s).alpha =
          clamp (s.alpha * (rate * (96 / 100))) := by
        have hnotLow : ¬rate ≤ params.holdRateLow :=
          not_le.2 (hvalid.low_lt_high.trans_le hrate)
        unfold update
        simp [hpcie.ne', hpos, hrate, not_lt.2 hrate, hnotLow,
          show ¬s.firstFlag + 1 ≤ 2 from hflag]
      have hgrows : minAlpha < s.alpha * (rate * (96 / 100)) := by
        have hmin : (0 : K) < minAlpha := by
          unfold minAlpha
          norm_num
        rw [heq]
        nlinarith
      rw [halpha]
      exact (lt_clamp heq.le hgrows).ne'

theorem update_unlaunched (hvalid : params.Valid) (fastBytes pcieBytes : ℕ) (s : State K) (x : K)
    (hpcie : 0 < pcieBytes) :
    (∀ fastTime pcieTime : K, 0 ≤ fastTime → 0 < pcieTime →
      (update params ⟨fastTime, pcieTime, fastBytes, pcieBytes, true, true⟩ s).alpha = x) ↔
        s.alpha = x ∧ Quiet s := by
  constructor
  · intro h
    have hhold : s.alpha = x := by
      -- a rate between the two bounds is kept
      obtain ⟨rate, hlow, hhigh⟩ := exists_between hvalid.low_lt_high
      have hpos : 0 < rate := hvalid.low_pos.trans hlow
      rw [← h rate 1 hpos.le one_pos]
      unfold update
      simp only [not_true_eq_false, or_self, if_false, if_neg hpcie.ne', div_one,
        one_pos, hpos, hlow, hhigh, and_self, if_true, ite_self]
    refine ⟨hhold, ?_⟩
    by_contra hflag
    obtain ⟨fastTime, hnonneg, hmoves⟩ := exists_moves params hvalid s hpcie hflag
    exact hmoves ((h fastTime 1 hnonneg one_pos).trans hhold.symm)
  · rintro ⟨rfl, hflag⟩ fastTime pcieTime _ _
    unfold update
    simp [hpcie.ne', show s.firstFlag + 1 ≤ 2 from hflag]

/-- `InverseProportionAlgo`. -/
def reaction (hvalid : params.Valid) : Reaction (algo params) where
  lowered := lowered params
  Quiet := Quiet
  update_failed := update_failed params
  update_none := update_none params
  update_unlaunched := fun fastBytes pcieBytes s x _ hpcie =>
    update_unlaunched params hvalid fastBytes pcieBytes s x hpcie

end InverseProportion

namespace SplitRatio

variable (params : Params K)

/-- The bounds leave one ratio. -/
def Quiet (s : State K) : Prop := maxAlpha ≤ params.minAlpha ∧ s.alpha = params.minAlpha

theorem update_failed (stat : ExecStat K) (s : State K) (h : stat.fastSuccess = false) :
    (update params stat s).alpha = lowered params s := by
  unfold update lowered
  rw [if_pos (by simp [h])]

theorem update_none (stat : ExecStat K) (s : State K) (hfast : stat.fastSuccess = true)
    (hpcie : stat.pcieSuccess = true) (hbytes : stat.pcieBytes = 0) :
    (update params stat s).alpha = s.alpha := by
  unfold update
  rw [if_neg (by simp [hfast, hpcie]), if_pos hbytes]

theorem clamp_of_le (h : maxAlpha ≤ params.minAlpha) (x : K) : clamp params x = params.minAlpha :=
  max_eq_left ((min_le_left _ _).trans h)

/-- A ratio below the greatest one is raised past it by whatever is above it. -/
theorem lt_clamp {x y : K} (hx : x < maxAlpha) (hy : x < y) : x < clamp params y :=
  lt_max_of_lt_right (lt_min hx hy)

theorem clamp_lt {x y : K} (hbounds : params.minAlpha < maxAlpha) (hx : maxAlpha ≤ x)
    (hy : y < x) : clamp params y < x :=
  max_lt (hbounds.trans_le hx) ((min_le_right _ _).trans_lt hy)

/-- The ratio after a stat with these bandwidths. -/
theorem update_alpha {stat : ExecStat K} {s : State K} (hfast : stat.fastSuccess = true)
    (hpcie : stat.pcieSuccess = true) (hbytes : 0 < stat.pcieBytes)
    (hbp : 0 < stat.pcieBandwidth) (hbf : 0 < stat.fastBandwidth) :
    (update params stat s).alpha = clamp params (nextAlpha params stat.pcieBytes (s.updateCount + 1)
      (nextBpHat params stat.pcieBytes stat.pcieBandwidth s.bpHat) stat.fastBandwidth s.alpha) := by
  have hpos : ¬(stat.pcieBandwidth ≤ 0 ∨ stat.fastBandwidth ≤ 0) :=
    not_or.2 ⟨not_le.2 hbp, not_le.2 hbf⟩
  unfold update
  simp [hfast, hpcie, hbytes.ne', if_neg hpos]

variable [IsStrictOrderedRing K]

/-- The stat of a collective whose fast library had this bandwidth. -/
theorem fastBandwidth_div {fastBytes pcieBytes : ℕ} {bf : K} (hfast : 0 < fastBytes) (hbf : 0 < bf) :
    ExecStat.fastBandwidth
      ⟨fastBytes / (bf * 1024 ^ 3), 1, fastBytes, pcieBytes, true, true⟩ = bf := by
  have hbytes : (0 : K) < fastBytes := Nat.cast_pos.2 hfast
  have htime : 0 < (fastBytes : K) / (bf * 1024 ^ 3) := by positivity
  unfold ExecStat.fastBandwidth
  rw [if_pos ⟨htime, hfast⟩]
  field_simp

/-- **A bandwidth that moves the ratio up**: one at which the greatest ratio balances the paths. -/
theorem lt_nextAlpha (pcieBytes steps : ℕ) {bpHat alpha : K} (hbp : 0 < bpHat)
    (h : alpha < maxAlpha) :
    alpha < nextAlpha params pcieBytes steps bpHat (bpHat * (1 - maxAlpha) / maxAlpha) alpha := by
  have hmax : (0 : K) < maxAlpha := by
    unfold maxAlpha
    norm_num
  have hone : (0 : K) < 1 - maxAlpha := by
    unfold maxAlpha
    norm_num
  have hstar : bpHat / (bpHat + bpHat * (1 - maxAlpha) / maxAlpha) = maxAlpha := by
    field_simp
    ring
  have hup : alpha < alpha + params.eta * (maxAlpha - alpha) := by
    have := mul_pos params.eta_pos (sub_pos.2 h)
    linarith
  have hfaster : ¬(1 - alpha) / (bpHat * (1 - maxAlpha) / maxAlpha) * (105 / 100) <
      alpha / bpHat := by
    have hratio : (1 - alpha) / (bpHat * (1 - maxAlpha) / maxAlpha) * (105 / 100) =
        (1 - alpha) * (999 * (105 / 100)) / bpHat := by
      unfold maxAlpha
      field_simp
      ring
    rw [hratio, not_lt, div_le_div_iff_of_pos_right hbp]
    unfold maxAlpha at h
    linarith
  unfold nextAlpha
  dsimp only
  rw [hstar, if_neg hfaster, ite_self]
  exact hup

/-- **A bandwidth that moves the ratio down**: the two paths as fast as each other. -/
theorem nextAlpha_lt (pcieBytes steps : ℕ) {bpHat alpha : K} (hbp : 0 < bpHat)
    (h : maxAlpha ≤ alpha) : nextAlpha params pcieBytes steps bpHat bpHat alpha < alpha := by
  have hhalf : (1 : K) / 2 < alpha := by
    refine lt_of_lt_of_le ?_ h
    unfold maxAlpha
    norm_num
  have hstar : bpHat / (bpHat + bpHat) = 1 / 2 := by
    field_simp
    norm_num
  have hdown : alpha + params.eta * (1 / 2 - alpha) < alpha := by
    have := mul_pos params.eta_pos (sub_pos.2 hhalf)
    linarith
  unfold nextAlpha
  rw [hstar]
  dsimp only
  split
  · exact hdown
  · split
    · split
      · linarith
      · exact hdown
    · exact hdown

theorem update_unlaunched {fastBytes pcieBytes : ℕ} (s : State K) (x : K)
    (hfast : 0 < fastBytes) (hpcie : 0 < pcieBytes) :
    (∀ fastTime pcieTime : K, 0 ≤ fastTime → 0 < pcieTime →
      (update params ⟨fastTime, pcieTime, fastBytes, pcieBytes, true, true⟩ s).alpha = x) ↔
        s.alpha = x ∧ Quiet params s := by
  have hbytes : (0 : K) < pcieBytes := Nat.cast_pos.2 hpcie
  constructor
  · intro h
    have hhold : s.alpha = x := by
      -- without a fast bandwidth nothing is updated
      rw [← h 0 1 (le_refl _) one_pos]
      unfold update ExecStat.fastBandwidth
      simp [hpcie.ne']
    refine ⟨hhold, ?_⟩
    have hbp : ∀ fastTime : K, 0 < ExecStat.pcieBandwidth
        ⟨fastTime, 1, fastBytes, pcieBytes, true, true⟩ := by
      intro fastTime
      unfold ExecStat.pcieBandwidth
      rw [if_pos ⟨one_pos, hpcie⟩]
      positivity
    -- the ratio stays for every bandwidth of the fast library
    have hkeeps : ∃ bpHat, 0 < bpHat ∧ ∀ bf, 0 < bf →
        clamp params (nextAlpha params pcieBytes (s.updateCount + 1) bpHat bf s.alpha) =
          s.alpha := by
      refine ⟨nextBpHat params pcieBytes (ExecStat.pcieBandwidth
        ⟨0, 1, fastBytes, pcieBytes, true, true⟩) s.bpHat, nextBpHat_pos params _ (hbp 0), ?_⟩
      intro bf hbf
      have hnonneg : 0 ≤ (fastBytes : K) / (bf * 1024 ^ 3) := by positivity
      have hbf' : ExecStat.fastBandwidth
          ⟨fastBytes / (bf * 1024 ^ 3), 1, fastBytes, pcieBytes, true, true⟩ = bf :=
        fastBandwidth_div hfast hbf
      have halpha := update_alpha params (s := s) rfl rfl hpcie (hbp _) (hbf'.symm ▸ hbf)
      rw [hbf', h _ 1 hnonneg one_pos] at halpha
      exact halpha.symm.trans hhold.symm
    obtain ⟨bpHat, hpos, hkeeps⟩ := hkeeps
    rcases lt_or_ge s.alpha maxAlpha with hlt | hge
    · have hmax : (0 : K) < maxAlpha ∧ (0 : K) < 1 - maxAlpha := by
        unfold maxAlpha
        norm_num
      have hbf := div_pos (mul_pos hpos hmax.2) hmax.1
      have hup := lt_nextAlpha params pcieBytes (s.updateCount + 1) hpos hlt
      exact absurd (hkeeps _ hbf) (lt_clamp params hlt hup).ne'
    · have hdown := nextAlpha_lt params pcieBytes (s.updateCount + 1) hpos hge
      have hbounds : maxAlpha ≤ params.minAlpha := by
        by_contra hnot
        exact absurd (hkeeps _ hpos) (clamp_lt params (not_le.1 hnot) hge hdown).ne
      refine ⟨hbounds, ?_⟩
      rw [← hkeeps _ hpos, clamp_of_le params hbounds]
  · rintro ⟨rfl, hbounds, hleast⟩ fastTime pcieTime _ _
    unfold update
    simp only [not_true_eq_false, or_self, if_false, if_neg hpcie.ne']
    split
    · rfl
    · exact (clamp_of_le params hbounds _).trans hleast.symm

/-- `SplitRatioControlAlgo`. -/
def reaction : Reaction (algo params) where
  lowered := lowered params
  Quiet := Quiet params
  update_failed := update_failed params
  update_none := update_none params
  update_unlaunched := fun _ _ s x hfast hpcie => update_unlaunched params s x hfast hpcie

end SplitRatio

section

variable [IsStrictOrderedRing K]

/-- `StaticAlgo`. -/
def staticReaction (alpha : K) : Reaction (staticAlgo alpha) where
  lowered := id
  Quiet := fun _ => True
  update_failed := fun _ _ _ => rfl
  update_none := fun _ _ _ _ _ => rfl
  update_unlaunched := fun _ _ _ _ _ _ =>
    ⟨fun h => ⟨h 0 1 (le_refl _) one_pos, trivial⟩, fun h _ _ _ _ => h.1⟩

/-- The environment gives the constructor of the algorithm what it checks. -/
def Algorithm.Valid : Algorithm K → Prop
  | .inverseProportion params => params.Valid
  | _ => True

def Algorithm.reaction : (algorithm : Algorithm K) → algorithm.Valid → Reaction algorithm.create
  | .inverseProportion params, hvalid => InverseProportion.reaction params hvalid
  | .splitRatio params, _ => SplitRatio.reaction params
  | .static alpha, _ => staticReaction alpha

end

/-! ## The collective -/

/-- A call on a communicator with feedback: `share` is the conversion of `total_bytes * alpha`. -/
structure Collective (A : AdaptiveAlgo K) where
  cfg : PlannerConfig
  key : OpKey
  cache : ParamCache K
  controller : Controller A
  share : K → ℕ
  bytes_lt : key.bytes < 2 ^ 64
  share_le : ∀ alpha, share alpha ≤ key.bytes

/-- How a collective comes to launch no PCIe transfer. -/
inductive Path where
  /-- The plan is for the fast library alone. -/
  | planned
  /-- PCIe does not support the data type or the operation. -/
  | unsupported
  /-- The staging buffer of a hybrid plan cannot be allocated. -/
  | noStaging
  deriving DecidableEq

namespace Collective

variable {A : AdaptiveAlgo K} (call : Collective A)

/-- The ratio in force: the stored one, or the algorithm's own where none is stored. -/
def inForce : K :=
  match Table.find call.cache call.key with
  | some value => value.alpha
  | none => A.alpha (call.controller.getOrCreate call.key)

/-- `use_pcie` as it is looked up. -/
def usePcie : Bool := (call.cache.lookup call.key).usePcie

/-- The controller after `SuggestAlpha`. -/
def suggested : Controller A := (call.controller.suggestAlpha call.key call.cache).2

/-- The algorithm of the key after `SuggestAlpha`. -/
def algo : A.State := call.suggested.getOrCreate call.key

/-- The plan of `PrepareCollectiveLaunch`. -/
def plan : Plan :=
  planOf call.cfg call.key.bytes
    (call.share (call.controller.suggestAlpha call.key call.cache).1) call.usePcie

/-- The plan that is registered, where the collective takes this path. -/
def registered : Path → Option Plan
  | .planned => if call.plan.usePcie = false then some call.plan else none
  | .unsupported =>
    if call.plan.usePcie = true then some (Plan.forceFastOnly call.key.bytes) else none
  | .noStaging =>
    if call.key.op ≠ .allReduce ∧ call.plan.usePcie = true ∧ 0 < call.plan.pcieBytes ∧
      0 < call.plan.fastBytes then some call.plan else none

/-- The parameters after the stat is fed to `Update`.  `elapsed` is what the PCIe timer gives, which
was never started: the time since the epoch. -/
def after (plan : Plan) (fastSuccess : Bool) (fastTime elapsed : K) : ParamCache K :=
  (call.suggested.update call.cfg.pcieEnabled call.key
    ⟨fastTime, if plan.usePcie then elapsed else 0, plan.fastBytes, plan.pcieBytes,
      fastSuccess, true⟩ call.cache).1

/-- The parameters of the key are what they were. -/
structure Undisturbed (cache : ParamCache K) : Prop where
  alpha : (cache.lookup call.key).alpha = call.inForce
  usePcie : (cache.lookup call.key).usePcie = call.usePcie

/-- The plan for the fast library alone is not rounded up past the total. -/
def Whole : Prop :=
  (call.cfg.pcieEnabled = false ∨ call.key.bytes < call.cfg.minMsgSize ∨ call.usePcie = false) ∨
    128 ∣ call.key.bytes ∨ 2 ^ 64 ≤ roundUp call.key.bytes

/-- When the parameters stay: PCIe is enabled or already off for the key, a plan for the fast
library alone is not rounded up, and the ratio that is suggested is the one in force; after a call
that fails, that ratio lowered is; without a staging buffer, no times move it. -/
def Steady (r : Reaction A) (path : Path) (fastSuccess : Bool) : Prop :=
  (call.cfg.pcieEnabled = true ∨ call.usePcie = false) ∧ (path = .planned → call.Whole) ∧
    if fastSuccess then A.alpha call.algo = call.inForce ∧ (path = .noStaging → r.Quiet call.algo)
    else r.lowered call.algo = call.inForce

/-! ## What is stored -/

theorem pcieBandwidth_of_not_pos {stat : ExecStat K} (h : ¬0 < stat.pcieTime) :
    stat.pcieBandwidth = 0 := if_neg fun hpos => h hpos.1

theorem lookup_after (plan : Plan) (fastSuccess : Bool) (fastTime elapsed : K) :
    (call.after plan fastSuccess fastTime elapsed).lookup call.key =
      let stat : ExecStat K := ⟨fastTime, if plan.usePcie then elapsed else 0, plan.fastBytes,
        plan.pcieBytes, fastSuccess, true⟩
      Controller.updated call.cfg.pcieEnabled stat (A.update stat call.algo)
        (call.cache.lookup call.key) := by
  unfold after Controller.update ParamCache.lookup Table.find Table.set
  dsimp only
  rw [Function.update_self]
  rfl

omit [LinearOrder K] in
/-- A plan for the fast library alone has PCIe bytes where it is rounded up. -/
theorem pcieBytes_eq_zero_iff (h : call.plan.usePcie = false) :
    call.plan.pcieBytes = 0 ↔ call.Whole := by
  unfold Whole
  by_cases hskip : call.cfg.pcieEnabled = false ∨ call.key.bytes < call.cfg.minMsgSize ∨
      call.usePcie = false
  · have hplan : call.plan = ⟨call.key.bytes, 0, false⟩ := by
      unfold plan planOf
      rw [if_pos hskip]
    rw [hplan]
    exact iff_of_true rfl (.inl hskip)
  · have hplan : call.plan = alignPlan call.key.bytes ⟨call.key.bytes, 0, false⟩ :=
      planOf_fastOnly (call.share_le _) hskip h
    rw [hplan, or_iff_right hskip]
    exact fastOnly_pcieBytes_iff call.bytes_lt

omit [LinearOrder K] in
/-- A hybrid plan is made where PCIe is enabled and on for the key. -/
theorem enabled_of_usePcie (h : call.plan.usePcie = true) :
    call.cfg.pcieEnabled = true ∧ call.usePcie = true := by
  by_cases hskip : call.cfg.pcieEnabled = false ∨ call.key.bytes < call.cfg.minMsgSize ∨
      call.usePcie = false
  · have hplan : call.plan = ⟨call.key.bytes, 0, false⟩ := by
      unfold plan planOf
      rw [if_pos hskip]
    rw [hplan] at h
    cases h
  · simp only [not_or, Bool.not_eq_false] at hskip
    exact ⟨hskip.1, hskip.2.2⟩

/-- **The `use_pcie` that is stored after a plan without PCIe.** -/
theorem usePcie_after {plan : Plan} (h : plan.usePcie = false)
    (hoff : call.usePcie = false → plan.pcieBytes = 0) (fastSuccess : Bool) (fastTime elapsed : K) :
    ((call.after plan fastSuccess fastTime elapsed).lookup call.key).usePcie = call.usePcie ↔
      (call.cfg.pcieEnabled = true ∨ call.usePcie = false) ∧ plan.pcieBytes = 0 := by
  rw [lookup_after]
  unfold Controller.updated
  dsimp only
  rw [pcieBandwidth_of_not_pos (by simp [h])]
  change (if call.cfg.pcieEnabled = true then if 0 < plan.pcieBytes then
    true && decide ((0 : K) < 0) else call.usePcie else false) = call.usePcie ↔ _
  rcases Nat.eq_zero_or_pos plan.pcieBytes with hnone | hpos
  · cases henabled : call.cfg.pcieEnabled <;> cases huse : call.usePcie <;> simp [hnone]
  · have huse : call.usePcie = true := by
      by_contra hnot
      have := hoff (by simpa using hnot)
      omega
    cases henabled : call.cfg.pcieEnabled <;> simp [huse, hpos, hpos.ne']

variable (r : Reaction A)

variable [IsStrictOrderedRing K]

/-- The parameters after a plan without PCIe. -/
theorem undisturbed_fastOnly {plan : Plan} (h : plan.usePcie = false)
    (hoff : call.usePcie = false → plan.pcieBytes = 0) (fastSuccess : Bool) :
    (∀ fastTime elapsed : K, 0 ≤ fastTime → 0 < elapsed →
      call.Undisturbed (call.after plan fastSuccess fastTime elapsed)) ↔
        (call.cfg.pcieEnabled = true ∨ call.usePcie = false) ∧ plan.pcieBytes = 0 ∧
          (if fastSuccess then A.alpha call.algo else r.lowered call.algo) = call.inForce := by
  have huse := call.usePcie_after h hoff fastSuccess
  have halpha (fastTime elapsed : K) (hnone : plan.pcieBytes = 0) :
      ((call.after plan fastSuccess fastTime elapsed).lookup call.key).alpha =
        if fastSuccess then A.alpha call.algo else r.lowered call.algo := by
    rw [lookup_after]
    cases fastSuccess with
    | false => exact r.update_failed _ _ rfl
    | true => exact r.update_none _ _ rfl rfl hnone
  constructor
  · intro hsteady
    have hone := hsteady 0 1 (le_refl _) one_pos
    obtain ⟨hon, hnone⟩ := (huse 0 1).1 hone.usePcie
    exact ⟨hon, hnone, (halpha 0 1 hnone).symm.trans hone.alpha⟩
  · rintro ⟨hon, hnone, hforce⟩ fastTime elapsed _ _
    exact ⟨(halpha _ _ hnone).trans hforce, (huse _ _).2 ⟨hon, hnone⟩⟩

/-- The parameters after a hybrid plan that launched no PCIe transfer. -/
theorem undisturbed_noStaging {plan : Plan} (h : plan.usePcie = true) (hpcie : 0 < plan.pcieBytes)
    (henabled : call.cfg.pcieEnabled = true) (huse : call.usePcie = true) (fastSuccess : Bool)
    {fastTime elapsed : K} (helapsed : 0 < elapsed) :
    call.Undisturbed (call.after plan fastSuccess fastTime elapsed) ↔
      A.alpha (A.update ⟨fastTime, elapsed, plan.fastBytes, plan.pcieBytes, fastSuccess, true⟩
        call.algo) = call.inForce := by
  have hlookup := call.lookup_after plan fastSuccess fastTime elapsed
  rw [h, if_pos rfl] at hlookup
  have hbandwidth : 0 < ExecStat.pcieBandwidth
      ⟨fastTime, elapsed, plan.fastBytes, plan.pcieBytes, fastSuccess, true⟩ := by
    have hbytes : (0 : K) < plan.pcieBytes := Nat.cast_pos.2 hpcie
    unfold ExecStat.pcieBandwidth
    rw [if_pos ⟨helapsed, hpcie⟩]
    positivity
  have hstored : ((call.after plan fastSuccess fastTime elapsed).lookup call.key).usePcie =
      call.usePcie := by
    rw [hlookup, huse]
    unfold Controller.updated
    simp [henabled, hpcie, hbandwidth]
  constructor
  · intro hsteady
    rw [← hsteady.alpha, hlookup]
    rfl
  · intro halpha
    refine ⟨?_, hstored⟩
    rw [hlookup]
    exact halpha

/-- **When the parameters stay.**  For every key, every cache and controller and every message size;
whatever times are measured. -/
theorem undisturbed_iff {path : Path} {plan : Plan} (hplan : call.registered path = some plan)
    (fastSuccess : Bool) :
    (∀ fastTime elapsed : K, 0 ≤ fastTime → 0 < elapsed →
      call.Undisturbed (call.after plan fastSuccess fastTime elapsed)) ↔
        call.Steady r path fastSuccess := by
  unfold Steady
  cases path with
  | planned =>
    obtain ⟨husePcie, hplan⟩ := Option.ite_none_right_eq_some.1 hplan
    cases hplan
    have hzero := call.pcieBytes_eq_zero_iff husePcie
    have hoff : call.usePcie = false → call.plan.pcieBytes = 0 :=
      fun huse => hzero.2 (.inl (.inr (.inr huse)))
    rw [call.undisturbed_fastOnly r husePcie hoff fastSuccess, hzero]
    cases fastSuccess <;> simp
  | unsupported =>
    obtain ⟨husePcie, hplan⟩ := Option.ite_none_right_eq_some.1 hplan
    cases hplan
    have hoff : call.usePcie = false → (Plan.forceFastOnly call.key.bytes).pcieBytes = 0 :=
      fun _ => rfl
    rw [call.undisturbed_fastOnly r rfl hoff fastSuccess]
    have hzero : (Plan.forceFastOnly call.key.bytes).pcieBytes = 0 := rfl
    cases fastSuccess <;> simp [hzero]
  | noStaging =>
    obtain ⟨⟨-, husePcie, hpcie, hfast⟩, hplan⟩ := Option.ite_none_right_eq_some.1 hplan
    cases hplan
    obtain ⟨henabled, huse⟩ := call.enabled_of_usePcie husePcie
    have hall (fastTime elapsed : K) (helapsed : 0 < elapsed) :
        call.Undisturbed (call.after call.plan fastSuccess fastTime elapsed) ↔ _ :=
      call.undisturbed_noStaging husePcie hpcie henabled huse fastSuccess helapsed
    cases fastSuccess with
    | false =>
      simp only [henabled, true_or, true_and, reduceCtorEq, false_implies, Bool.false_eq_true,
        if_false]
      constructor
      · intro hsteady
        rw [← (hall 0 1 one_pos).1 (hsteady 0 1 (le_refl _) one_pos)]
        exact (r.update_failed _ _ rfl).symm
      · intro hlowered fastTime elapsed _ helapsed
        exact (hall fastTime elapsed helapsed).2 ((r.update_failed _ _ rfl).trans hlowered)
    | true =>
      simp only [henabled, true_or, true_and, reduceCtorEq, false_implies, if_true, true_implies]
      rw [← r.update_unlaunched _ _ call.algo call.inForce hfast hpcie]
      constructor
      · intro hsteady fastTime elapsed hnonneg helapsed
        exact (hall fastTime elapsed helapsed).1 (hsteady fastTime elapsed hnonneg helapsed)
      · intro hsteady fastTime elapsed hnonneg helapsed
        exact (hall fastTime elapsed helapsed).2 (hsteady fastTime elapsed hnonneg helapsed)

/-- **A collective that launches no PCIe transfer.**  With every algorithm the factory makes, its
stat leaves the parameters of the key where they were just when the collective is `Steady`. -/
theorem fastOnly_undisturbed {algorithm : Algorithm K} (hvalid : algorithm.Valid)
    (call : Collective algorithm.create) {path : Path} {plan : Plan}
    (hplan : call.registered path = some plan) (fastSuccess : Bool) :
    (∀ fastTime elapsed : K, 0 ≤ fastTime → 0 < elapsed →
      call.Undisturbed (call.after plan fastSuccess fastTime elapsed)) ↔
        call.Steady (algorithm.reaction hvalid) path fastSuccess :=
  call.undisturbed_iff _ hplan fastSuccess

/-- The algorithm with its default values for two ranks. -/
def inverse : Algorithm ℚ := .inverseProportion ⟨1 / 100, 95 / 100, 11 / 10, 1 / 2⟩

theorem inverse_valid : inverse.Valid := ⟨by norm_num, by norm_num⟩

/-- An all-reduce of these bytes with a thousandth for PCIe, less than a chunk. -/
def thousandth (bytes : ℕ) (h : 1000 ≤ bytes ∧ bytes < 2 ^ 64) : Collective inverse.create where
  cfg := ⟨true, 0, 4096⟩
  key := ⟨.allReduce, bytes, 0, 7, 2, 0⟩
  cache := fun _ => some ⟨1 / 1000, true, 0, 0, 0, 0⟩
  controller := Table.empty
  share := fun _ => 1000
  bytes_lt := h.2
  share_le := fun _ => h.1

/-- A million bytes and a bit, a multiple of 128. -/
theorem fastOnly_undisturbed_whole :
    (thousandth 1000064 (by decide)).Undisturbed
      ((thousandth 1000064 (by decide)).after ⟨1000064, 0, false⟩ true 1 1) := by
  have hplan : (thousandth 1000064 (by decide)).registered .planned =
      some ⟨1000064, 0, false⟩ := by
    decide +kernel
  refine (fastOnly_undisturbed inverse_valid _ hplan true).2 ?_ 1 1 (by norm_num) (by norm_num)
  refine ⟨.inl rfl, fun _ => .inr (.inl (by decide)), ?_, fun h => nomatch h⟩
  decide +kernel

/-- Four bytes more than a million: the rounded plan has PCIe bytes, and its stat turns PCIe off. -/
theorem rounded_turns_off :
    ¬ ∀ (call : Collective inverse.create) (path : Path) (plan : Plan),
      call.registered path = some plan → ∀ fastTime elapsed : ℚ, 0 ≤ fastTime → 0 < elapsed →
        call.Undisturbed (call.after plan true fastTime elapsed) := by
  intro hall
  have hplan : (thousandth 1000004 (by decide)).registered .planned =
      some ⟨1000064, 2 ^ 64 - 60, false⟩ := by
    decide +kernel
  have h := hall _ .planned _ hplan 1 1 (by norm_num) (by norm_num)
  have hoff : (((thousandth 1000004 (by decide)).after ⟨1000064, 2 ^ 64 - 60, false⟩ true 1
      1).lookup (thousandth 1000004 (by decide)).key).usePcie = false := by
    decide +kernel
  have hon : (thousandth 1000004 (by decide)).usePcie = true := rfl
  rw [h.usePcie, hon] at hoff
  cases hoff

end Collective

end Feedback
end Orchestrator
end HyLink
