import HyLink.Orchestrator.Planner

/-!
# What a plan adds up to

`CreatePlan` rounds both parts of a plan up to 128 bytes and takes what is too much from the PCIe
part.  The two parts add up to the bytes of the collective unless the fast part alone is rounded
above them, or a part is rounded above the range of a word.

* `planOf` — `CreatePlan` for every rounding of `total_bytes * alpha`.
* `choosePath_mergeSmall` — which of the three kinds of plan is made.
* `planOf_conserves` — when the parts add up.
-/

namespace HyLink
namespace Orchestrator

/-- `NativeDataTypeElemSize` of the data types. -/
def elementSizes : List ℕ := [1, 2, 4, 8, 16]

/-- `CreatePlan` where the product `total_bytes * alpha` becomes `share`. -/
def planOf (cfg : PlannerConfig) (totalBytes share : ℕ) (usePcieHint : Bool) : Plan :=
  if cfg.pcieEnabled = false ∨ totalBytes < cfg.minMsgSize ∨ usePcieHint = false then
    ⟨totalBytes, 0, false⟩
  else
    let plan := mergeSmall cfg.minChunkSize ⟨totalBytes - share, share, false⟩
    alignPlan totalBytes (choosePath cfg.minChunkSize totalBytes plan)

theorem createPlan_eq_planOf {α : Type} [Field α] [LinearOrder α] [FloorSemiring α]
    (cfg : PlannerConfig) (totalBytes : ℕ) (alpha : α) (usePcieHint : Bool) :
    ∃ share, createPlan cfg totalBytes alpha usePcieHint =
      planOf cfg totalBytes share usePcieHint := ⟨_, rfl⟩

/-- The parts of a plan add up to the bytes, a plan without PCIe leaves them to the fast library,
and no part ends inside an element unless the collective does. -/
structure Conserves (totalBytes : ℕ) (plan : Plan) : Prop where
  total : plan.fastBytes + plan.pcieBytes = totalBytes
  fastOnly : plan.usePcie = false → plan.pcieBytes = 0 ∧ plan.fastBytes = totalBytes
  elements : ∀ size ∈ elementSizes, size ∣ totalBytes →
    size ∣ plan.fastBytes ∧ size ∣ plan.pcieBytes

/-- A number of bytes rounded up to 128, as a natural number. -/
def roundUp (bytes : ℕ) : ℕ := (bytes + 127) / 128 * 128

/-- When the parts of a plan add up: a plan for one path of a multiple of 128 bytes, or a fast part
that is not rounded above the total; and no part rounded above the range of a word. -/
def Splittable (cfg : PlannerConfig) (totalBytes share : ℕ) (usePcieHint : Bool) : Prop :=
  (cfg.pcieEnabled = false ∨ totalBytes < cfg.minMsgSize ∨ usePcieHint = false) ∨
    if totalBytes - share < cfg.minChunkSize then
      if totalBytes < cfg.minChunkSize then 128 ∣ totalBytes else roundUp totalBytes < 2 ^ 64
    else if share < cfg.minChunkSize then 128 ∣ totalBytes
    else roundUp (totalBytes - share) ≤ totalBytes ∧
      roundUp (totalBytes - share) + roundUp share < 2 ^ 64

/-! ## Rounding -/

theorem le_roundUp (n : ℕ) : n ≤ roundUp n := by
  unfold roundUp
  omega

theorem roundUp_lt (n : ℕ) : roundUp n < n + 128 := by
  unfold roundUp
  omega

theorem dvd_roundUp (n : ℕ) : 128 ∣ roundUp n := ⟨_, Nat.mul_comm _ _⟩

theorem roundUp_eq_self {n : ℕ} : roundUp n = n ↔ 128 ∣ n := by
  unfold roundUp
  omega

/-- Rounding up a word, which gives zero where the result is no word. -/
theorem align_eq {n : ℕ} (h : n < 2 ^ 64) :
    align n = if roundUp n < 2 ^ 64 then roundUp n else 0 := by
  unfold align roundUp
  split <;> omega

theorem size_dvd {size : ℕ} (h : size ∈ elementSizes) : size ∣ 128 := by
  revert size
  decide

/-! ## The kinds of plans -/

/-- **Which path a plan takes.**  A fast part that is less than a chunk goes to the other path, then
a PCIe part that is. -/
theorem choosePath_mergeSmall {m totalBytes share : ℕ} (hshare : share ≤ totalBytes) :
    choosePath m totalBytes (mergeSmall m ⟨totalBytes - share, share, false⟩) =
      if totalBytes - share < m then
        if totalBytes < m then ⟨totalBytes, 0, false⟩ else ⟨0, totalBytes, true⟩
      else if share < m then ⟨totalBytes, 0, false⟩
      else ⟨totalBytes - share, share, true⟩ := by
  by_cases hfast : totalBytes - share < m
  · rw [if_pos hfast]
    rcases Nat.eq_zero_or_pos (totalBytes - share) with hzero | hpos
    · have hall : share = totalBytes := by omega
      subst hall
      unfold mergeSmall choosePath
      grind
    · unfold mergeSmall choosePath
      grind
  · rw [if_neg hfast]
    unfold mergeSmall choosePath
    grind

/-- Parts of a plan of whole elements. -/
theorem Conserves.of_fast {totalBytes fast pcie : ℕ} {usePcie : Bool}
    (htotal : fast + pcie = totalBytes) (hfast : 128 ∣ fast)
    (honly : usePcie = false → pcie = 0 ∧ fast = totalBytes) :
    Conserves totalBytes ⟨fast, pcie, usePcie⟩ := by
  refine ⟨htotal, honly, ?_⟩
  intro size hsize hdvd
  have hdvdFast : size ∣ fast := (size_dvd hsize).trans hfast
  refine ⟨hdvdFast, ?_⟩
  rw [← htotal] at hdvd
  exact (Nat.dvd_add_right hdvdFast).1 hdvd

/-- An aligned plan whose fast part is rounded to at most the total. -/
theorem alignPlan_conserves {totalBytes fast pcie : ℕ} {usePcie : Bool}
    (htotal : totalBytes < 2 ^ 64) (hsum : fast + pcie = totalBytes)
    (honly : usePcie = false → pcie = 0)
    (hle : roundUp fast ≤ totalBytes) (hlt : roundUp fast + roundUp pcie < 2 ^ 64) :
    Conserves totalBytes (alignPlan totalBytes ⟨fast, pcie, usePcie⟩) := by
  have hfastWord : align fast = roundUp fast := by
    rw [align_eq (by omega), if_pos (by omega)]
  have hpcieWord : align pcie = roundUp pcie := by
    rw [align_eq (by omega), if_pos (by omega)]
  have h1 := le_roundUp fast
  have h2 := le_roundUp pcie
  have hzero : roundUp 0 = 0 := rfl
  unfold alignPlan
  dsimp only
  rw [hfastWord, hpcieWord, Nat.mod_eq_of_lt hlt]
  split
  · -- the PCIe part gives back what the fast part was rounded up by
    have hsub : subWord totalBytes (roundUp fast) = totalBytes - roundUp fast := by
      unfold subWord
      omega
    rw [hsub]
    refine Conserves.of_fast (by omega) (dvd_roundUp fast) ?_
    intro hno
    have hnone := honly hno
    omega
  · refine Conserves.of_fast (by omega) (dvd_roundUp fast) ?_
    intro hno
    obtain rfl := honly hno
    omega

/-- An aligned plan whose parts add up has a fast part of at most the total, and no part that is
rounded above the range of a word. -/
theorem alignPlan_total {totalBytes fast pcie : ℕ} {usePcie : Bool}
    (htotal : totalBytes < 2 ^ 64) (hsum : fast + pcie = totalBytes)
    (h : (alignPlan totalBytes ⟨fast, pcie, usePcie⟩).fastBytes +
      (alignPlan totalBytes ⟨fast, pcie, usePcie⟩).pcieBytes = totalBytes) :
    roundUp fast ≤ totalBytes ∧ roundUp fast + roundUp pcie < 2 ^ 64 := by
  have h1 := le_roundUp fast
  have h2 := le_roundUp pcie
  have h3 := roundUp_lt fast
  have h4 := roundUp_lt pcie
  unfold alignPlan subWord at h
  rw [align_eq (n := fast) (by omega), align_eq (n := pcie) (by omega)] at h
  dsimp only at h
  split at h <;> split at h <;> split at h <;> dsimp only at h <;> omega

theorem alignPlan_conserves_iff {totalBytes fast pcie : ℕ} {usePcie : Bool}
    (htotal : totalBytes < 2 ^ 64) (hsum : fast + pcie = totalBytes)
    (honly : usePcie = false → pcie = 0) :
    Conserves totalBytes (alignPlan totalBytes ⟨fast, pcie, usePcie⟩) ↔
      roundUp fast ≤ totalBytes ∧ roundUp fast + roundUp pcie < 2 ^ 64 := by
  constructor
  · intro h
    exact alignPlan_total htotal hsum h.total
  · rintro ⟨hle, hlt⟩
    exact alignPlan_conserves htotal hsum honly hle hlt

/-- A plan for the fast library alone. -/
theorem fastOnly_conserves_iff {totalBytes : ℕ} (htotal : totalBytes < 2 ^ 64) :
    Conserves totalBytes (alignPlan totalBytes ⟨totalBytes, 0, false⟩) ↔ 128 ∣ totalBytes := by
  rw [alignPlan_conserves_iff htotal (Nat.add_zero _) (fun _ => rfl), ← roundUp_eq_self]
  have hle := le_roundUp totalBytes
  have hzero : roundUp 0 = 0 := rfl
  omega

/-- A plan for the PCIe library alone. -/
theorem pcieOnly_conserves_iff {totalBytes : ℕ} (htotal : totalBytes < 2 ^ 64) :
    Conserves totalBytes (alignPlan totalBytes ⟨0, totalBytes, true⟩) ↔
      roundUp totalBytes < 2 ^ 64 := by
  have honly : true = false → totalBytes = 0 := fun hno => nomatch hno
  rw [alignPlan_conserves_iff htotal (Nat.zero_add _) honly]
  have hzero : roundUp 0 = 0 := rfl
  omega

theorem alignPlan_usePcie (totalBytes : ℕ) (plan : Plan) :
    (alignPlan totalBytes plan).usePcie = plan.usePcie := by
  unfold alignPlan
  dsimp only
  split <;> rfl

/-- The PCIe part of a plan for the fast library alone, which wraps where the other one is rounded
up. -/
theorem fastOnly_pcieBytes_iff {totalBytes : ℕ} (htotal : totalBytes < 2 ^ 64) :
    (alignPlan totalBytes ⟨totalBytes, 0, false⟩).pcieBytes = 0 ↔
      128 ∣ totalBytes ∨ 2 ^ 64 ≤ roundUp totalBytes := by
  have hle := le_roundUp totalBytes
  have hlt := roundUp_lt totalBytes
  have hzero : align 0 = 0 := rfl
  rw [← roundUp_eq_self]
  unfold alignPlan subWord
  rw [align_eq htotal, hzero]
  dsimp only
  split <;> split <;> dsimp only <;> omega

/-- A plan without PCIe that is not the bytes as they are. -/
theorem planOf_fastOnly {cfg : PlannerConfig} {totalBytes share : ℕ} {usePcieHint : Bool}
    (hshare : share ≤ totalBytes)
    (hskip : ¬(cfg.pcieEnabled = false ∨ totalBytes < cfg.minMsgSize ∨ usePcieHint = false))
    (h : (planOf cfg totalBytes share usePcieHint).usePcie = false) :
    planOf cfg totalBytes share usePcieHint = alignPlan totalBytes ⟨totalBytes, 0, false⟩ := by
  revert h
  unfold planOf
  rw [if_neg hskip]
  dsimp only
  rw [alignPlan_usePcie, choosePath_mergeSmall hshare]
  split
  · split
    · exact fun _ => rfl
    · intro h
      cases h
  · split
    · exact fun _ => rfl
    · intro h
      cases h

/-- **When the parts of a plan add up.**  For every message size, every rounding of the PCIe share
to at most the total, every hint and every configuration. -/
theorem planOf_conserves (cfg : PlannerConfig) {totalBytes share : ℕ} (usePcieHint : Bool)
    (htotal : totalBytes < 2 ^ 64) (hshare : share ≤ totalBytes) :
    Conserves totalBytes (planOf cfg totalBytes share usePcieHint) ↔
      Splittable cfg totalBytes share usePcieHint := by
  unfold planOf Splittable
  by_cases hskip : cfg.pcieEnabled = false ∨ totalBytes < cfg.minMsgSize ∨ usePcieHint = false
  · rw [if_pos hskip]
    have hall : Conserves totalBytes ⟨totalBytes, 0, false⟩ :=
      ⟨Nat.add_zero _, fun _ => ⟨rfl, rfl⟩, fun _ _ hdvd => ⟨hdvd, Nat.dvd_zero _⟩⟩
    exact iff_of_true hall (.inl hskip)
  · rw [if_neg hskip, or_iff_right hskip]
    dsimp only
    rw [choosePath_mergeSmall hshare]
    split
    · split
      · exact fastOnly_conserves_iff htotal
      · exact pcieOnly_conserves_iff htotal
    · split
      · exact fastOnly_conserves_iff htotal
      · exact alignPlan_conserves_iff htotal (by omega) (fun hno => nomatch hno)

/-- Half of 8 MiB goes to each path. -/
theorem planOf_conserves_half :
    Conserves (2 ^ 23) (planOf ⟨true, 2 ^ 22, 4096⟩ (2 ^ 23) (2 ^ 22) true) :=
  (planOf_conserves ⟨true, 2 ^ 22, 4096⟩ true (by decide) (by decide)).2 (by
    right
    decide)

/-- One float more than 4 MiB for the fast library: its part is rounded up past the total, and the
PCIe part is the difference modulo the word. -/
theorem planOf_wraps :
    ¬ ∀ (cfg : PlannerConfig) (totalBytes share : ℕ) (usePcieHint : Bool), totalBytes < 2 ^ 64 →
      share ≤ totalBytes → Conserves totalBytes (planOf cfg totalBytes share usePcieHint) := by
  intro hall
  have hplan : planOf ⟨true, 2 ^ 22, 4096⟩ (2 ^ 22 + 4) 0 true =
      ⟨2 ^ 22 + 128, 2 ^ 64 - 124, false⟩ := by
    decide
  have h := hall ⟨true, 2 ^ 22, 4096⟩ (2 ^ 22 + 4) 0 true (by decide) (by decide)
  rw [hplan] at h
  exact absurd h.total (by decide)

end Orchestrator
end HyLink
