import Mathlib.Tactic.Linarith
import HyLink.Orchestrator.FastOnly

/-!
# The bounds of the split ratio

An algorithm is driven by any calls of `Suggest` and `Update`, with any numbers.  `Suggest` clamps
the ratio, and every way through `Update` keeps it between the bounds.

* `AdaptiveAlgo.Within` — from the first `Suggest` on, the ratio is between two bounds.
* `checkedUpdate` — `Update` of an algorithm, which fails where it would divide by zero.
* `ratio_bounded` — the bounds of the two algorithms, and no division by zero.
-/

namespace HyLink
namespace Orchestrator
namespace Feedback

variable {K : Type} [Field K] [LinearOrder K]

/-! ## Calls of an algorithm -/

/-- A call of an algorithm. -/
inductive AlgoCall (K : Type)
  | suggest (current : ParamValue K)
  | update (stat : ExecStat K)

namespace AdaptiveAlgo

variable (A : AdaptiveAlgo K)

def call (s : A.State) : AlgoCall K → A.State
  | .suggest current => A.suggest current s
  | .update stat => A.update stat s

def calls (s : A.State) (cs : List (AlgoCall K)) : A.State := cs.foldl A.call s

/-- From the first `Suggest` on, whatever the object was, the ratio is between the bounds. -/
def Within (low high : K) : Prop :=
  ∀ (s : A.State) before current after,
    let alpha := A.alpha (A.calls s (before ++ .suggest current :: after))
    low ≤ alpha ∧ alpha ≤ high

variable {A}

omit [Field K] in
/-- **What `Suggest` establishes and `Update` keeps** holds from the first `Suggest` on. -/
theorem within_of_kept {low high : K}
    (hsuggest : ∀ current s, low ≤ A.alpha (A.suggest current s) ∧
      A.alpha (A.suggest current s) ≤ high)
    (hupdate : ∀ stat s, low ≤ A.alpha s ∧ A.alpha s ≤ high →
      low ≤ A.alpha (A.update stat s) ∧ A.alpha (A.update stat s) ≤ high) : A.Within low high := by
  intro s before current after
  show low ≤ A.alpha (A.calls s _) ∧ A.alpha (A.calls s _) ≤ high
  rw [calls, List.foldl_append, List.foldl_cons]
  generalize List.foldl A.call s before = t
  have hfirst : low ≤ A.alpha (A.call t (.suggest current)) ∧
      A.alpha (A.call t (.suggest current)) ≤ high := hsuggest current t
  generalize A.call t (.suggest current) = u at hfirst
  induction after generalizing u with
  | nil => exact hfirst
  | cons c cs ih =>
    rw [List.foldl_cons]
    apply ih
    cases c with
    | suggest current => exact hsuggest current u
    | update stat => exact hupdate stat u hfirst

end AdaptiveAlgo

/-! ## Division -/

theorem checkedDiv_eq {x y : K} (h : y ≠ 0) : checkedDiv x y = some (x / y) := if_neg h

variable [IsStrictOrderedRing K]

theorem checkedBandwidth_eq (time : K) (bytes : ℕ) :
    checkedBandwidth time bytes =
      some (if 0 < time ∧ 0 < bytes then bytes / time / 1024 ^ 3 else 0) := by
  have hunit : (1024 ^ 3 : K) ≠ 0 := by positivity
  unfold checkedBandwidth
  split
  · rename_i h
    rw [checkedDiv_eq h.1.ne', Option.bind_some, checkedDiv_eq hunit]
  · rfl

/-! ## The inverse proportion -/

namespace InverseProportion

omit [IsStrictOrderedRing K] in
theorem clamp_le_maxAlpha (x : K) : clamp x ≤ maxAlpha := by
  unfold clamp
  grind

theorem decreaseFactor_bounds (nranks : ℤ) (root : K) :
    0 ≤ decreaseFactor nranks root ∧ decreaseFactor nranks root ≤ 1 := by
  have hfifth : (0 : K) ≤ 1 / 5 := by norm_num
  have hhalf : (0 : K) ≤ 1 / 2 ∧ (1 / 2 : K) ≤ 1 := by norm_num
  unfold decreaseFactor
  grind

omit [IsStrictOrderedRing K] in
/-- **No division by zero.** -/
theorem checkedUpdate_eq (params : Params K) (stat : ExecStat K) (s : State K) :
    checkedUpdate params stat s = some (update params stat s) := by
  unfold checkedUpdate update
  dsimp only
  split
  · rfl
  · split
    · rfl
    · split
      · rfl
      · split
        · rename_i h
          rw [checkedDiv_eq h.1.ne', Option.map_some]
        · rfl

/-- An update keeps the ratio between the bounds. -/
theorem update_bounds (params : Params K)
    (hfactor : 0 ≤ params.decreaseFactor ∧ params.decreaseFactor ≤ 1) (stat : ExecStat K)
    (s : State K) (h : minAlpha ≤ s.alpha ∧ s.alpha ≤ maxAlpha) :
    minAlpha ≤ (update params stat s).alpha ∧ (update params stat s).alpha ≤ maxAlpha := by
  have hclamp : ∀ x : K, minAlpha ≤ clamp x ∧ clamp x ≤ maxAlpha := fun x =>
    ⟨minAlpha_le_clamp x, clamp_le_maxAlpha x⟩
  have hmin : (0 : K) < minAlpha := by
    unfold minAlpha
    norm_num
  unfold update
  dsimp only
  split
  · show minAlpha ≤ ite _ _ _ ∧ ite _ _ _ ≤ maxAlpha
    split
    · exact ⟨le_refl _, h.1.trans h.2⟩
    · rename_i hlt
      refine ⟨not_lt.1 hlt, le_trans ?_ h.2⟩
      exact mul_le_of_le_one_right (hmin.le.trans h.1) hfactor.2
  · split
    · exact h
    · split
      · exact h
      · split
        · split
          · exact h
          · split
            · exact hclamp _
            · split
              · exact hclamp _
              · exact hclamp _
        · exact hclamp _

theorem within (params : Params K)
    (hfactor : 0 ≤ params.decreaseFactor ∧ params.decreaseFactor ≤ 1) :
    (algo params).Within minAlpha maxAlpha := by
  apply AdaptiveAlgo.within_of_kept
  · intro current s
    exact ⟨minAlpha_le_clamp _, clamp_le_maxAlpha _⟩
  · exact update_bounds params hfactor

end InverseProportion

/-! ## The split ratio -/

namespace SplitRatio

theorem checkedNext_eq (params : Params K) (pcieBytes steps : ℕ) {bp bf : K} (s : State K)
    (hbp : 0 < bp) (hbf : 0 < bf) :
    checkedNext params pcieBytes steps bp bf s =
      some (nextBpHat params pcieBytes bp s.bpHat,
        clamp params (nextAlpha params pcieBytes steps
          (nextBpHat params pcieBytes bp s.bpHat) bf s.alpha)) := by
  have hhat : 0 < nextBpHat params pcieBytes bp s.bpHat := nextBpHat_pos params pcieBytes hbp
  have hsum : 0 < nextBpHat params pcieBytes bp s.bpHat + bf := add_pos hhat hbf
  unfold checkedNext
  dsimp only
  rw [checkedDiv_eq hsum.ne', Option.bind_some, checkedDiv_eq hhat.ne', Option.bind_some,
    checkedDiv_eq hbf.ne', Option.map_some]
  rfl

/-- **No division by zero.** -/
theorem checkedUpdate_eq (params : Params K) (stat : ExecStat K) (s : State K) :
    checkedUpdate params stat s = some (update params stat s) := by
  unfold checkedUpdate update
  dsimp only
  rw [checkedBandwidth_eq, checkedBandwidth_eq, Option.bind_some, Option.bind_some]
  split
  · rfl
  · split
    · rfl
    · show ite (stat.pcieBandwidth ≤ 0 ∨ stat.fastBandwidth ≤ 0) _ _ =
        some (ite (stat.pcieBandwidth ≤ 0 ∨ stat.fastBandwidth ≤ 0) _ _)
      split
      · rfl
      · rename_i hbw
        have hp : 0 < stat.pcieBandwidth := not_le.1 fun hle => hbw (.inl hle)
        have hf : 0 < stat.fastBandwidth := not_le.1 fun hle => hbw (.inr hle)
        exact congrArg (Option.map _) (checkedNext_eq params _ _ _ hp hf)

omit [IsStrictOrderedRing K] in
theorem clamp_bounds (params : Params K) (h : params.minAlpha ≤ maxAlpha) (x : K) :
    params.minAlpha ≤ clamp params x ∧ clamp params x ≤ maxAlpha :=
  ⟨le_max_left _ _, max_le h (min_le_left _ _)⟩

/-- An update keeps the ratio between the bounds. -/
theorem update_bounds (params : Params K) (hpos : 0 < params.minAlpha)
    (hle : params.minAlpha ≤ maxAlpha) (stat : ExecStat K) (s : State K)
    (h : params.minAlpha ≤ s.alpha ∧ s.alpha ≤ maxAlpha) :
    params.minAlpha ≤ (update params stat s).alpha ∧ (update params stat s).alpha ≤ maxAlpha := by
  unfold update
  dsimp only
  split
  · show params.minAlpha ≤ ite _ _ _ ∧ ite _ _ _ ≤ maxAlpha
    split
    · exact ⟨le_refl _, hle⟩
    · rename_i hlt
      refine ⟨not_lt.1 hlt, le_trans ?_ h.2⟩
      exact mul_le_of_le_one_right (hpos.le.trans h.1) (by norm_num)
  · split
    · exact h
    · split
      · exact h
      · exact clamp_bounds params hle _

theorem within (params : Params K) (hpos : 0 < params.minAlpha)
    (hle : params.minAlpha ≤ maxAlpha) : (algo params).Within params.minAlpha maxAlpha := by
  apply AdaptiveAlgo.within_of_kept
  · intro current s
    exact clamp_bounds params hle _
  · exact update_bounds params hpos hle

end SplitRatio

/-! ## Both algorithms -/

/-- **The ratio is bounded.**  Whatever an object of an algorithm was before, and whatever is
suggested and measured, the ratio is between 0.001 and 0.39 for the inverse proportion, and between
the configured minimum and 0.999 for the split ratio, from the first `Suggest` on; and an update
divides by no zero. -/
theorem ratio_bounded :
    (∀ (params : InverseProportion.Params K) (nranks : ℤ) (root : K),
      params.decreaseFactor = InverseProportion.decreaseFactor nranks root →
        (InverseProportion.algo params).Within (1 / 1000) (39 / 100) ∧
        ∀ stat s, InverseProportion.checkedUpdate params stat s =
          some (InverseProportion.update params stat s)) ∧
    ∀ params : SplitRatio.Params K, 0 < params.minAlpha → params.minAlpha ≤ 999 / 1000 →
      (SplitRatio.algo params).Within params.minAlpha (999 / 1000) ∧
      ∀ stat s, SplitRatio.checkedUpdate params stat s =
        some (SplitRatio.update params stat s) := by
  constructor
  · intro params nranks root hfactor
    refine ⟨InverseProportion.within params ?_, InverseProportion.checkedUpdate_eq params⟩
    rw [hfactor]
    exact InverseProportion.decreaseFactor_bounds nranks root
  · intro params hpos hle
    exact ⟨SplitRatio.within params hpos hle, SplitRatio.checkedUpdate_eq params⟩

/-- The parameters that are the defaults. -/
def SplitRatio.defaults : SplitRatio.Params ℚ where
  initialAlpha := 1 / 5
  minAlpha := 1 / 20
  smooth := 7 / 10
  eta := 3 / 10
  warmupSteps := 5
  smooth_pos := by norm_num
  smooth_lt := by norm_num
  eta_pos := by norm_num
  eta_lt := by norm_num

theorem ratio_bounded_defaults :
    (InverseProportion.algo (⟨1 / 100, 19 / 20, 11 / 10, 1 / 2⟩ : InverseProportion.Params ℚ)).Within
      (1 / 1000) (39 / 100) ∧
    (SplitRatio.algo SplitRatio.defaults).Within (1 / 20) (999 / 1000) :=
  ⟨(ratio_bounded.1 ⟨1 / 100, 19 / 20, 11 / 10, 1 / 2⟩ 2 1
      (by norm_num [InverseProportion.decreaseFactor])).1,
    (ratio_bounded.2 SplitRatio.defaults (by norm_num [SplitRatio.defaults])
      (by norm_num [SplitRatio.defaults])).1⟩

end Feedback
end Orchestrator
end HyLink
