import Mathlib.Algebra.Order.Archimedean.Basic
import Mathlib.Data.Rat.Cast.Order
import Mathlib.Tactic.FieldSimp
import Mathlib.Tactic.Linarith
import HyLink.Orchestrator.FastOnly
import HyLink.Theory.Settling

/-!
# Does the ratio settle

The feedback loop of one key: every collective carries the suggested part of its bytes over PCIe,
the two paths have constant bandwidths, and the stat is fed back.

* `Rounds` — the loop, for any algorithm; `Rounds.object_succ` is what a round does to it.
* `InverseProportion.next` — the map that drives the ratio.  It rests where the bandwidths are far
  enough apart, or close enough together, and goes back and forth in between.
* `SplitRatio.Moves` — the steps that drive the ratio towards the share that equalises the times.
* `controller_convergence` — where the loop settles, and where it does not.
-/

namespace HyLink
namespace Orchestrator
namespace Feedback

open Theory

/-! ## The loop -/

/-- The stat of a collective of which `alpha` of the bytes went over PCIe, where PCIe has the
bandwidth `bp` and the fast library has `bf`. -/
structure Carries (bp bf alpha : ℚ) (stat : ExecStat ℚ) : Prop where
  fastSuccess : stat.fastSuccess = true
  pcieSuccess : stat.pcieSuccess = true
  bytes_pos : 0 < stat.pcieBytes + stat.fastBytes
  share : (stat.pcieBytes : ℚ) = alpha * (stat.pcieBytes + stat.fastBytes)
  pcieTime : stat.pcieTime = stat.pcieBytes / bp
  fastTime : stat.fastTime = stat.fastBytes / bf

variable {A : AdaptiveAlgo ℚ}

/-- The algorithm of the key after `SuggestAlpha`. -/
def Controller.suggested (c : Controller A) (key : OpKey) (cache : ParamCache ℚ) : A.State :=
  match Table.find cache key with
  | none => c.getOrCreate key
  | some current => A.suggest current (c.getOrCreate key)

theorem Controller.suggestAlpha_eq (c : Controller A) (key : OpKey) (cache : ParamCache ℚ) :
    c.suggestAlpha key cache =
      (A.alpha (c.suggested key cache), Table.set c key (c.suggested key cache)) := by
  unfold Controller.suggestAlpha Controller.suggested
  cases Table.find cache key <;> rfl

/-- The collectives of a key that the controller has not seen, with their stats. -/
structure Rounds (A : AdaptiveAlgo ℚ) where
  pcieEnabled : Bool
  key : OpKey
  cache : ParamCache ℚ
  controller : Controller A
  fresh : Table.find controller key = none
  stat : ℕ → ExecStat ℚ

namespace Rounds

/-- The cache and the controller after some rounds of `SuggestAlpha` and `Update`. -/
def after (r : Rounds A) : ℕ → ParamCache ℚ × Controller A
  | 0 => (r.cache, r.controller)
  | n + 1 =>
    Controller.update r.pcieEnabled ((after r n).2.suggestAlpha r.key (after r n).1).2 r.key
      (r.stat n) (after r n).1

variable (r : Rounds A)

/-- The ratio that is suggested in a round. -/
def alpha (n : ℕ) : ℚ := ((r.after n).2.suggestAlpha r.key (r.after n).1).1

/-- Each collective carries what is suggested. -/
def Carried (bp bf : ℚ) : Prop := ∀ n, Carries bp bf (r.alpha n) (r.stat n)

/-- The algorithm that suggests the ratio of a round. -/
def object (n : ℕ) : A.State := (r.after n).2.suggested r.key (r.after n).1

theorem alpha_eq (n : ℕ) : r.alpha n = A.alpha (r.object n) := by
  unfold alpha
  rw [Controller.suggestAlpha_eq]
  rfl

theorem object_zero : r.object 0 = A.initial ∨ ∃ v, r.object 0 = A.suggest v A.initial := by
  have hcreate : r.controller.getOrCreate r.key = A.initial := by
    unfold Controller.getOrCreate
    rw [r.fresh]
    rfl
  show r.controller.suggested r.key r.cache = _ ∨ ∃ v, r.controller.suggested r.key r.cache = _
  unfold Controller.suggested
  rw [hcreate]
  cases Table.find r.cache r.key with
  | none => exact .inl rfl
  | some v => exact .inr ⟨v, rfl⟩

/-- **A round**: the stat is fed to the algorithm, and its ratio comes back with the next
suggestion. -/
theorem object_succ (n : ℕ) : ∃ v : ParamValue ℚ,
    v.alpha = A.alpha (A.update (r.stat n) (r.object n)) ∧
      r.object (n + 1) = A.suggest v (A.update (r.stat n) (r.object n)) := by
  have hcreate : Controller.getOrCreate (Table.set (r.after n).2 r.key (r.object n)) r.key =
      r.object n := by
    unfold Controller.getOrCreate Table.find Table.set
    rw [Function.update_self]
    rfl
  have hafter : r.after (n + 1) =
      (Table.set (r.after n).1 r.key
        (Controller.updated r.pcieEnabled (r.stat n) (A.update (r.stat n) (r.object n))
          ((r.after n).1.lookup r.key)),
        Table.set (Table.set (r.after n).2 r.key (r.object n)) r.key
          (A.update (r.stat n) (r.object n))) := by
    show Controller.update _ _ _ _ _ = _
    rw [Controller.suggestAlpha_eq]
    unfold Controller.update
    dsimp only
    rw [show (r.after n).2.suggested r.key (r.after n).1 = r.object n from rfl, hcreate]
  refine ⟨Controller.updated r.pcieEnabled (r.stat n) (A.update (r.stat n) (r.object n))
    ((r.after n).1.lookup r.key), rfl, ?_⟩
  show (r.after (n + 1)).2.suggested r.key (r.after (n + 1)).1 = _
  rw [hafter]
  unfold Controller.suggested Controller.getOrCreate Table.find Table.set
  dsimp only
  rw [Function.update_self, Function.update_self]
  rfl

end Rounds

/-! ## Rounds that carry what is suggested -/

section Fed

variable (A) (bp bf : ℚ) (pcieEnabled : Bool) (key : OpKey)

/-- A stat of as few bytes as the ratio allows. -/
def statOf (alpha : ℚ) : ExecStat ℚ where
  fastTime := (alpha.den - alpha.num.toNat : ℕ) / bf
  pcieTime := alpha.num.toNat / bp
  fastBytes := alpha.den - alpha.num.toNat
  pcieBytes := alpha.num.toNat
  fastSuccess := true
  pcieSuccess := true

theorem carries_statOf {alpha : ℚ} (h0 : 0 ≤ alpha) (h1 : alpha ≤ 1) :
    Carries bp bf alpha (statOf bp bf alpha) := by
  have hnum : ((alpha.num.toNat : ℕ) : ℤ) = alpha.num :=
    Int.toNat_of_nonneg (Rat.num_nonneg.2 h0)
  have hle : alpha.num.toNat ≤ alpha.den := by
    have hdiv := Rat.num_div_den alpha
    have hden : (0 : ℚ) < alpha.den := by exact_mod_cast alpha.den_pos
    have hnumle : (alpha.num : ℚ) ≤ alpha.den := by
      rw [← hdiv, div_le_one hden] at h1
      exact h1
    have : alpha.num ≤ (alpha.den : ℤ) := by exact_mod_cast hnumle
    omega
  have hsum : alpha.num.toNat + (alpha.den - alpha.num.toNat) = alpha.den := by omega
  refine ⟨rfl, rfl, ?_, ?_, rfl, rfl⟩
  · show 0 < alpha.num.toNat + (alpha.den - alpha.num.toNat)
    rw [hsum]
    exact alpha.den_pos
  · show ((alpha.num.toNat : ℕ) : ℚ) =
      alpha * ((alpha.num.toNat : ℕ) + (alpha.den - alpha.num.toNat : ℕ))
    rw [← Nat.cast_add, hsum, Rat.mul_den_eq_num]
    exact_mod_cast hnum

/-- Cache and controller when each stat is one of the ratio that is suggested. -/
def fed : ℕ → ParamCache ℚ × Controller A
  | 0 => (Table.empty, Table.empty)
  | n + 1 =>
    Controller.update pcieEnabled ((fed n).2.suggestAlpha key (fed n).1).2 key
      (statOf bp bf ((fed n).2.suggestAlpha key (fed n).1).1) (fed n).1

def Rounds.ofBandwidths : Rounds A where
  pcieEnabled := pcieEnabled
  key := key
  cache := Table.empty
  controller := Table.empty
  fresh := rfl
  stat := fun n =>
    statOf bp bf ((fed A bp bf pcieEnabled key n).2.suggestAlpha key
      (fed A bp bf pcieEnabled key n).1).1

theorem after_ofBandwidths (n : ℕ) :
    (Rounds.ofBandwidths A bp bf pcieEnabled key).after n = fed A bp bf pcieEnabled key n := by
  induction n with
  | zero => rfl
  | succ n ih =>
    unfold Rounds.after
    rw [ih]
    rfl

/-- **There are rounds from the start of an algorithm** whose ratios are between 0 and 1. -/
theorem carried_ofBandwidths
    (h : ∀ n, 0 ≤ (Rounds.ofBandwidths A bp bf pcieEnabled key).alpha n ∧
      (Rounds.ofBandwidths A bp bf pcieEnabled key).alpha n ≤ 1) :
    (Rounds.ofBandwidths A bp bf pcieEnabled key).Carried bp bf := by
  intro n
  have hstat : (Rounds.ofBandwidths A bp bf pcieEnabled key).stat n =
      statOf bp bf ((Rounds.ofBandwidths A bp bf pcieEnabled key).alpha n) := by
    unfold Rounds.alpha
    rw [after_ofBandwidths]
    rfl
  rw [hstat]
  exact carries_statOf bp bf (h n).1 (h n).2

end Fed

/-! ## The bytes and times of a stat -/

namespace Carries

variable {bp bf alpha : ℚ} {stat : ExecStat ℚ}

theorem total_pos (h : Carries bp bf alpha stat) :
    (0 : ℚ) < stat.pcieBytes + stat.fastBytes := by exact_mod_cast h.bytes_pos

theorem pcieBytes_pos (h : Carries bp bf alpha stat) (h0 : 0 < alpha) : 0 < stat.pcieBytes := by
  have hpos : (0 : ℚ) < stat.pcieBytes := by
    rw [h.share]
    exact mul_pos h0 h.total_pos
  exact_mod_cast hpos

theorem fastBytes_eq (h : Carries bp bf alpha stat) :
    (stat.fastBytes : ℚ) = (1 - alpha) * (stat.pcieBytes + stat.fastBytes) := by
  linarith [h.share]

theorem fastBytes_pos (h : Carries bp bf alpha stat) (h1 : alpha < 1) : 0 < stat.fastBytes := by
  have hpos : (0 : ℚ) < stat.fastBytes := by
    rw [h.fastBytes_eq]
    exact mul_pos (by linarith) h.total_pos
  exact_mod_cast hpos

end Carries

/-! ## Inverse proportion -/

namespace InverseProportion

/-- The default hold rates; the start and the number of ranks are open. -/
def defaults (initialAlpha decreaseFactor : ℚ) : Params ℚ :=
  ⟨initialAlpha, 95 / 100, 11 / 10, decreaseFactor⟩

/-- A ratio within the bounds. -/
def Admissible (alpha : ℚ) : Prop := minAlpha ≤ alpha ∧ alpha ≤ maxAlpha

/-- The ratio of the two path times, where PCIe has `rho` of the bandwidth of the fast library. -/
def rate (rho alpha : ℚ) : ℚ := rho * (1 - alpha) / alpha

/-- The ratio after a round that counts. -/
def next (rho alpha : ℚ) : ℚ :=
  if 95 / 100 < rate rho alpha ∧ rate rho alpha < 11 / 10 then alpha
  else if rate rho alpha ≤ 95 / 100 then clamp (alpha * (1 / 2))
  else clamp (alpha * (rate rho alpha * (96 / 100)))

variable {bp bf rho alpha : ℚ}

theorem Admissible.pos (h : Admissible alpha) : 0 < alpha := by
  have h0 := h.1
  unfold minAlpha at h0
  linarith

theorem Admissible.lt_one (h : Admissible alpha) : alpha < 1 := by
  have h1 := h.2
  unfold maxAlpha at h1
  linarith

theorem clamp_eq (h : Admissible alpha) : clamp alpha = alpha := by
  unfold clamp
  rw [if_neg (not_lt.2 h.1), if_neg (not_lt.2 h.2)]

theorem clamp_of_ge (h : maxAlpha ≤ alpha) : clamp alpha = (maxAlpha : ℚ) := by
  unfold clamp minAlpha maxAlpha at *
  grind

theorem admissible_clamp (x : ℚ) : Admissible (clamp x) := by
  refine ⟨minAlpha_le_clamp x, ?_⟩
  unfold clamp minAlpha maxAlpha
  grind

theorem admissible_next (rho : ℚ) (h : Admissible alpha) : Admissible (next rho alpha) := by
  unfold next
  split
  · exact h
  · split
    · exact admissible_clamp _
    · exact admissible_clamp _

/-! ### A round -/

section

variable {initialAlpha decreaseFactor : ℚ} {stat : ExecStat ℚ} {s : State ℚ}

theorem rate_eq (h : Carries bp bf alpha stat) (hbp : 0 < bp) (hbf : 0 < bf) (h0 : 0 < alpha) :
    stat.fastTime / stat.pcieTime = rate (bp / bf) alpha := by
  have htotal := h.total_pos
  have hfast := h.fastBytes_eq
  have hpcie := h.share
  rw [h.fastTime, h.pcieTime]
  generalize (stat.pcieBytes : ℚ) + stat.fastBytes = total at htotal hfast hpcie
  rw [hfast, hpcie]
  unfold rate
  field_simp

/-- The first two collectives are only counted. -/
theorem update_counting (h : Carries bp bf s.alpha stat) (h0 : 0 < s.alpha)
    (hflag : s.firstFlag < 2) : update (defaults initialAlpha decreaseFactor) stat s =
      { s with firstFlag := s.firstFlag + 1 } := by
  have hbytes := (h.pcieBytes_pos h0).ne'
  unfold update
  rw [if_neg (by simp [h.fastSuccess, h.pcieSuccess]), if_neg hbytes]
  dsimp only
  rw [if_pos (by omega)]

/-- The others move the ratio by the map. -/
theorem update_counted (hbp : 0 < bp) (hbf : 0 < bf) (h : Carries bp bf s.alpha stat)
    (hin : Admissible s.alpha) (hflag : 2 ≤ s.firstFlag) :
    update (defaults initialAlpha decreaseFactor) stat s =
      { s with alpha := next (bp / bf) s.alpha, firstFlag := s.firstFlag + 1 } := by
  have hbytes := h.pcieBytes_pos hin.pos
  have hpcie : 0 < stat.pcieTime := by
    rw [h.pcieTime]
    exact div_pos (Nat.cast_pos.2 hbytes) hbp
  have hfast : 0 < stat.fastTime := by
    rw [h.fastTime]
    exact div_pos (Nat.cast_pos.2 (h.fastBytes_pos hin.lt_one)) hbf
  unfold update
  rw [if_neg (by simp [h.fastSuccess, h.pcieSuccess]), if_neg hbytes.ne']
  dsimp only
  rw [if_neg (by omega), if_pos ⟨hpcie, hfast⟩, rate_eq h hbp hbf hin.pos]
  unfold next defaults
  dsimp only
  split
  · rfl
  · rename_i hout
    split
    · rfl
    · rename_i hlow
      rw [if_pos (not_lt.1 fun hhigh => hout ⟨not_le.1 hlow, hhigh⟩)]

variable {r : Rounds (algo (defaults initialAlpha decreaseFactor))}

/-- Ratios stay within the bounds. -/
theorem admissible_alpha (h : Admissible (r.alpha 0)) (n : ℕ) : Admissible (r.alpha n) := by
  cases n with
  | zero => exact h
  | succ n =>
    obtain ⟨v, -, hsucc⟩ := r.object_succ n
    rw [r.alpha_eq, hsucc]
    exact admissible_clamp _

theorem firstFlag_eq (hbp : 0 < bp) (hbf : 0 < bf) (hr : r.Carried bp bf)
    (h : Admissible (r.alpha 0)) (n : ℕ) : State.firstFlag (r.object n) = n := by
  induction n with
  | zero =>
    rcases r.object_zero with h0 | ⟨v, h0⟩
    · rw [h0]
      rfl
    · rw [h0]
      rfl
  | succ n ih =>
    have hcarries := hr n
    have hin := admissible_alpha h n
    rw [r.alpha_eq] at hcarries hin
    obtain ⟨v, -, hsucc⟩ := r.object_succ n
    rw [hsucc]
    show (update (defaults initialAlpha decreaseFactor) (r.stat n) (r.object n)).firstFlag = n + 1
    rcases Nat.lt_or_ge n 2 with hlt | hge
    · rw [update_counting hcarries hin.pos (by rw [ih]; exact hlt)]
      exact congrArg (· + 1) ih
    · rw [update_counted hbp hbf hcarries hin (by rw [ih]; exact hge)]
      exact congrArg (· + 1) ih

/-- **The ratio is driven by the map** once two collectives are counted. -/
theorem alpha_succ (hbp : 0 < bp) (hbf : 0 < bf) (hr : r.Carried bp bf)
    (h : Admissible (r.alpha 0)) (n : ℕ) :
    r.alpha (n + 1) = if n < 2 then r.alpha n else next (bp / bf) (r.alpha n) := by
  have hcarries := hr n
  have hin := admissible_alpha h n
  have hflag := firstFlag_eq hbp hbf hr h n
  rw [r.alpha_eq] at hcarries hin
  obtain ⟨v, hv, hsucc⟩ := r.object_succ n
  rw [r.alpha_eq, r.alpha_eq, hsucc]
  show clamp v.alpha = _
  rw [hv]
  show clamp (update (defaults initialAlpha decreaseFactor) (r.stat n) (r.object n)).alpha = _
  split
  · rename_i hlt
    rw [update_counting hcarries hin.pos (by rw [hflag]; exact hlt)]
    exact clamp_eq hin
  · rename_i hge
    rw [update_counted hbp hbf hcarries hin (by rw [hflag]; omega)]
    exact clamp_eq (admissible_next _ hin)

theorem alpha_two (hbp : 0 < bp) (hbf : 0 < bf) (hr : r.Carried bp bf)
    (h : Admissible (r.alpha 0)) : r.alpha 2 = r.alpha 0 := by
  rw [alpha_succ hbp hbf hr h 1, if_pos (by decide), alpha_succ hbp hbf hr h 0, if_pos (by decide)]

end

/-! ### The map -/

/-- The ratio at which the times have the ratio `c`. -/
def ratioAt (rho c : ℚ) : ℚ := rho / (rho + c)

theorem ratioAt_mul {c : ℚ} (hrho : 0 < rho) (hc : 0 < c) :
    ratioAt rho c * rho + c * ratioAt rho c = rho := by
  unfold ratioAt
  field_simp

theorem ratioAt_pos {c : ℚ} (hrho : 0 < rho) (hc : 0 < c) : 0 < ratioAt rho c :=
  div_pos hrho (add_pos hrho hc)

theorem rate_le_iff {c : ℚ} (hrho : 0 < rho) (hc : 0 < c) (h : 0 < alpha) :
    rate rho alpha ≤ c ↔ ratioAt rho c ≤ alpha := by
  unfold rate ratioAt
  rw [div_le_iff₀ h, div_le_iff₀ (add_pos hrho hc)]
  constructor <;> intro hle <;> linarith

theorem le_rate_iff {c : ℚ} (hrho : 0 < rho) (hc : 0 < c) (h : 0 < alpha) :
    c ≤ rate rho alpha ↔ alpha ≤ ratioAt rho c := by
  unfold rate ratioAt
  rw [le_div_iff₀ h, le_div_iff₀ (add_pos hrho hc)]
  constructor <;> intro hle <;> linarith

/-- The ratio rests: the map keeps it, and it is at a bound or the times are in the hold band. -/
structure Rests (rho alpha : ℚ) : Prop where
  fixed : Function.IsFixedPt (next rho) alpha
  reason : alpha = minAlpha ∨ alpha = maxAlpha ∨
    95 / 100 < rate rho alpha ∧ rate rho alpha < 11 / 10

theorem rests_of_hold (hrho : 0 < rho) (h : 0 < alpha) (hlow : ratioAt rho (11 / 10) < alpha)
    (hhigh : alpha < ratioAt rho (95 / 100)) : Rests rho alpha := by
  have hin : 95 / 100 < rate rho alpha ∧ rate rho alpha < 11 / 10 :=
    ⟨not_le.1 fun hle => not_le.2 hhigh ((rate_le_iff hrho (by norm_num) h).1 hle),
      not_le.1 fun hle => not_le.2 hlow ((le_rate_iff hrho (by norm_num) h).1 hle)⟩
  exact ⟨if_pos hin, .inr (.inr hin)⟩

/-- PCIe takes too long. -/
theorem next_halve (hrho : 0 < rho) (h : 0 < alpha) (hhigh : ratioAt rho (95 / 100) ≤ alpha) :
    next rho alpha = clamp (alpha * (1 / 2)) := by
  have hrate := (rate_le_iff hrho (by norm_num) h).2 hhigh
  unfold next
  rw [if_neg fun hin => not_lt.2 hrate hin.1, if_pos hrate]

/-- The fast library takes too long. -/
theorem next_grow (hrho : 0 < rho) (h : 0 < alpha) (hlow : alpha ≤ ratioAt rho (11 / 10)) :
    next rho alpha = clamp (96 / 100 * (rho * (1 - alpha))) := by
  have hrate := (le_rate_iff hrho (by norm_num) h).2 hlow
  have hnot : ¬ rate rho alpha ≤ 95 / 100 := by
    rw [not_le]
    linarith
  have hmul : alpha * (rate rho alpha * (96 / 100)) = 96 / 100 * (rho * (1 - alpha)) := by
    unfold rate
    field_simp
  unfold next
  rw [if_neg fun hin => not_lt.2 hrate hin.2, if_neg hnot, hmul]

/-- A step up goes past the lower end of the band. -/
theorem lt_grow (hrho : 0 < rho) (hlow : alpha ≤ ratioAt rho (11 / 10)) :
    ratioAt rho (11 / 10) < 96 / 100 * (rho * (1 - alpha)) := by
  have hmul := ratioAt_mul hrho (c := 11 / 10) (by norm_num)
  have hpos := ratioAt_pos hrho (c := 11 / 10) (by norm_num)
  have hstep : rho * (1 - ratioAt rho (11 / 10)) ≤ rho * (1 - alpha) :=
    mul_le_mul_of_nonneg_left (by linarith) hrho.le
  linarith

/-- At the least ratio there is no step down. -/
theorem rests_min (hrho : 0 < rho) (hhigh : ratioAt rho (95 / 100) ≤ minAlpha) :
    Rests rho minAlpha := by
  have hpos : (0 : ℚ) < minAlpha := by
    unfold minAlpha
    norm_num
  refine ⟨?_, .inl rfl⟩
  show next rho minAlpha = minAlpha
  rw [next_halve hrho hpos hhigh]
  unfold clamp minAlpha maxAlpha
  norm_num

/-! ### Fast PCIe -/

/-- **Where PCIe is fast enough, the ratio rests after one step**: in the band or at the greatest
ratio. -/
theorem rests_of_large (h : 741 / 1220 < rho) (hin : Admissible alpha) :
    Rests rho alpha ∨ Rests rho (next rho alpha) := by
  have hrho : 0 < rho := by linarith
  have hmax : (maxAlpha : ℚ) < ratioAt rho (95 / 100) := by
    unfold ratioAt maxAlpha
    rw [lt_div_iff₀ (by linarith)]
    linarith
  rcases lt_or_ge (ratioAt rho (11 / 10)) alpha with hlow | hlow
  · exact .inl (rests_of_hold hrho hin.pos hlow (hin.2.trans_lt hmax))
  · right
    have hgrow := lt_grow hrho hlow
    rw [next_grow hrho hin.pos hlow]
    rcases lt_or_ge (96 / 100 * (rho * (1 - alpha))) maxAlpha with hlt | hge
    · rw [clamp_eq ⟨hin.1.trans (hlow.trans hgrow.le), hlt.le⟩]
      exact rests_of_hold hrho ((ratioAt_pos hrho (by norm_num)).trans hgrow) hgrow
        (hlt.trans hmax)
    · rw [clamp_of_ge hge]
      have hpos : (0 : ℚ) < maxAlpha := by
        unfold maxAlpha
        norm_num
      rcases lt_or_ge (ratioAt rho (11 / 10)) maxAlpha with hlow' | hlow'
      · exact rests_of_hold hrho hpos hlow' hmax
      · refine ⟨?_, .inr (.inl rfl)⟩
        show next rho maxAlpha = maxAlpha
        rw [next_grow hrho hpos hlow', clamp_of_ge (hlow'.trans (lt_grow hrho hlow').le)]

/-! ### Slow PCIe -/

theorem ratioAt_lt_max (hrho : 0 < rho) (h : rho < 11 / 60) :
    ratioAt rho (95 / 100) < (maxAlpha : ℚ) := by
  unfold ratioAt maxAlpha
  rw [div_lt_iff₀ (by linarith)]
  linarith

/-- A step up from the lower half stays below the upper end of the band. -/
theorem grow_lt (hrho : 0 < rho) (h : rho < 11 / 60)
    (hhalf : ratioAt rho (95 / 100) * (1 / 2) ≤ alpha) :
    96 / 100 * (rho * (1 - alpha)) < ratioAt rho (95 / 100) := by
  have hmul := ratioAt_mul hrho (c := 95 / 100) (by norm_num)
  have hpos := ratioAt_pos hrho (c := 95 / 100) (by norm_num)
  have hstep : rho * (1 - alpha) ≤ rho * (1 - ratioAt rho (95 / 100) * (1 / 2)) :=
    mul_le_mul_of_nonneg_left (by linarith) hrho.le
  have hgap := mul_pos hpos (sub_pos.2 h)
  linarith

/-- After a step up that ends below the upper end of the band, the ratio rests. -/
theorem rests_of_grow (hrho : 0 < rho) (h : rho < 11 / 60) (hin : Admissible alpha)
    (hlow : alpha ≤ ratioAt rho (11 / 10)) (hlt : next rho alpha < ratioAt rho (95 / 100)) :
    Rests rho (next rho alpha) := by
  refine rests_of_hold hrho (admissible_next _ hin).pos ?_ hlt
  have hgrow := lt_grow hrho hlow
  rw [next_grow hrho hin.pos hlow] at hlt ⊢
  rcases lt_or_ge (96 / 100 * (rho * (1 - alpha))) maxAlpha with hmax | hmax
  · rwa [clamp_eq ⟨hin.1.trans (hlow.trans hgrow.le), hmax.le⟩]
  · rw [clamp_of_ge hmax] at hlt
    exact absurd hlt (not_lt.2 (ratioAt_lt_max hrho h).le)

/-- In the lower half the ratio rests after one step. -/
theorem rests_of_half (hrho : 0 < rho) (h : rho < 11 / 60) (hin : Admissible alpha)
    (hlt : alpha < ratioAt rho (95 / 100)) (hhalf : ratioAt rho (95 / 100) * (1 / 2) ≤ alpha) :
    Rests rho alpha ∨ Rests rho (next rho alpha) := by
  rcases lt_or_ge (ratioAt rho (11 / 10)) alpha with hlow | hlow
  · exact .inl (rests_of_hold hrho hin.pos hlow hlt)
  · refine .inr (rests_of_grow hrho h hin hlow ?_)
    have hup := grow_lt hrho h hhalf
    rw [next_grow hrho hin.pos hlow, clamp_eq]
    · exact hup
    · exact ⟨hin.1.trans (hlow.trans (lt_grow hrho hlow).le),
        (hup.trans (ratioAt_lt_max hrho h)).le⟩

theorem admissible_iterate (rho : ℚ) (hin : Admissible alpha) (k : ℕ) :
    Admissible ((next rho)^[k] alpha) := by
  induction k with
  | zero => exact hin
  | succ k ih =>
    rw [Function.iterate_succ_apply']
    exact admissible_next _ ih

/-- **Steps down end in the lower half**, or the ratio rests.  The start may be below it. -/
theorem exists_descend (hrho : 0 < rho) (hin : Admissible alpha) :
    ∃ k, Rests rho ((next rho)^[k] alpha) ∨
      (next rho)^[k] alpha < ratioAt rho (95 / 100) ∧
        (k = 0 ∨ ratioAt rho (95 / 100) * (1 / 2) ≤ (next rho)^[k] alpha) := by
  have hdown : ∀ {x}, Admissible x → ratioAt rho (95 / 100) ≤ x →
      next rho x = minAlpha ∨ next rho x = x * (1 / 2) := by
    intro x hx hhigh
    rw [next_halve hrho hx.pos hhigh]
    have hmax := hx.2
    unfold clamp minAlpha maxAlpha at *
    grind
  have hpos := ratioAt_pos hrho (c := 95 / 100) (by norm_num)
  have hreach : ∃ k, (next rho)^[k] alpha < ratioAt rho (95 / 100) ∨
      (next rho)^[k] alpha = minAlpha := by
    refine exists_of_shrinks (d := fun k => (next rho)^[k] alpha) (q := 1 / 2) (by norm_num)
      (by norm_num) hpos (fun k hk => ?_) fun k hk => .inl hk
    obtain ⟨hhigh, -⟩ := not_or.1 hk
    simp only [Function.iterate_succ_apply']
    rcases hdown (admissible_iterate rho hin k) (not_lt.1 hhigh) with heq | heq
    · exact .inl (.inr heq)
    · right
      rw [heq]
      linarith
  classical
  refine ⟨Nat.find hreach, ?_⟩
  have hend := Nat.find_spec hreach
  generalize hk : Nat.find hreach = k at hend
  by_cases hlt : (next rho)^[k] alpha < ratioAt rho (95 / 100)
  · refine .inr ⟨hlt, ?_⟩
    cases k with
    | zero => exact .inl rfl
    | succ k =>
      have hbefore := Nat.find_min hreach (m := k) (by omega)
      obtain ⟨hhigh, -⟩ := not_or.1 hbefore
      have hin' := admissible_iterate rho hin k
      rw [Function.iterate_succ_apply']
      right
      rcases hdown hin' (not_lt.1 hhigh) with heq | heq
      · have hle := (admissible_next rho hin').1
        rw [next_halve hrho hin'.pos (not_lt.1 hhigh)] at hle ⊢
        have hmax := hin'.2
        unfold clamp minAlpha maxAlpha at *
        grind
      · rw [heq]
        linarith
  · have heq := hend.resolve_left hlt
    rw [heq] at hlt ⊢
    exact .inl (rests_min hrho (not_lt.1 hlt))

/-- **Where PCIe is slow enough, the ratio rests after some steps.** -/
theorem rests_of_small (hrho : 0 < rho) (h : rho < 11 / 60) (hin : Admissible alpha) :
    ∃ k, Rests rho ((next rho)^[k] alpha) := by
  -- from the lower half at most one more step
  have hhalf : ∀ {x}, Admissible x → ratioAt rho (95 / 100) ≤ x →
      ∃ k, Rests rho ((next rho)^[k] x) := by
    intro x hx hhigh
    obtain ⟨k, hrests | ⟨hlt, rfl | hhalf⟩⟩ := exists_descend hrho hx
    · exact ⟨k, hrests⟩
    · exact absurd hlt (not_lt.2 hhigh)
    · rcases rests_of_half hrho h (admissible_iterate rho hx k) hlt hhalf with hrests | hrests
      · exact ⟨k, hrests⟩
      · refine ⟨k + 1, ?_⟩
        rwa [Function.iterate_succ_apply']
  rcases lt_or_ge alpha (ratioAt rho (95 / 100)) with hlt | hhigh
  · rcases lt_or_ge (ratioAt rho (11 / 10)) alpha with hlow | hlow
    · exact ⟨0, rests_of_hold hrho hin.pos hlow hlt⟩
    · rcases lt_or_ge (next rho alpha) (ratioAt rho (95 / 100)) with hlt' | hhigh'
      · exact ⟨1, rests_of_grow hrho h hin hlow hlt'⟩
      · obtain ⟨k, hk⟩ := hhalf (admissible_next _ hin) hhigh'
        exact ⟨k + 1, hk⟩
  · exact hhalf hin hhigh

/-! ### In between -/

/-- **In between the map exchanges two ratios**, one of them half the other. -/
theorem exists_swap (hlow : 11 / 60 ≤ rho) (hhigh : rho ≤ 741 / 1220) :
    ∃ a, Admissible a ∧ next rho a = a * (1 / 2) ∧ next rho (a * (1 / 2)) = a := by
  have hrho : 0 < rho := by linarith
  rcases le_or_gt (96 / 100 * rho) (39 / 100 * (1 + 48 / 100 * rho)) with hle | hgt
  · -- the step up from half the ratio is back at the ratio
    have hden : 0 < 1 + 48 / 100 * rho := by linarith
    have hdef : 96 / 100 * rho / (1 + 48 / 100 * rho) * (1 + 48 / 100 * rho) = 96 / 100 * rho :=
      div_mul_cancel₀ _ hden.ne'
    have hmax : 96 / 100 * rho / (1 + 48 / 100 * rho) ≤ 39 / 100 := by
      rwa [div_le_iff₀ hden]
    have hmin : 1 / 10 ≤ 96 / 100 * rho / (1 + 48 / 100 * rho) := by
      rw [le_div_iff₀ hden]
      linarith
    generalize 96 / 100 * rho / (1 + 48 / 100 * rho) = a at hdef hmax hmin
    have hin : Admissible a := by
      unfold Admissible minAlpha maxAlpha
      constructor <;> linarith
    have hin' : Admissible (a * (1 / 2)) := by
      unfold Admissible minAlpha maxAlpha
      constructor <;> linarith
    refine ⟨a, hin, ?_, ?_⟩
    · rw [next_halve hrho hin.pos, clamp_eq hin']
      unfold ratioAt
      rw [div_le_iff₀ (by linarith)]
      nlinarith
    · have hback : 96 / 100 * (rho * (1 - a * (1 / 2))) = a := by linarith
      rw [next_grow hrho hin'.pos, hback, clamp_eq hin]
      · unfold ratioAt
        rw [le_div_iff₀ (by linarith)]
        nlinarith
  · -- the step up from half the greatest ratio is cut off at it
    have hin : Admissible (maxAlpha : ℚ) := by
      unfold Admissible minAlpha maxAlpha
      norm_num
    have hin' : Admissible ((maxAlpha : ℚ) * (1 / 2)) := by
      unfold Admissible minAlpha maxAlpha
      norm_num
    refine ⟨maxAlpha, hin, ?_, ?_⟩
    · rw [next_halve hrho hin.pos, clamp_eq hin']
      unfold ratioAt maxAlpha
      rw [div_le_iff₀ (by linarith)]
      linarith
    · rw [next_grow hrho hin'.pos, clamp_of_ge]
      · unfold maxAlpha
        linarith
      · unfold ratioAt maxAlpha
        rw [le_div_iff₀ (by linarith)]
        linarith

/-! ### Runs -/

/-- **The ratio settles**: it becomes constant, at one of its bounds or with the times of the paths
in the hold band. -/
def Settles {params : Params ℚ} (r : Rounds (algo params)) : Prop :=
  ∃ N a, (∀ n, N ≤ n → r.alpha n = a) ∧
    (a = minAlpha ∨ a = maxAlpha ∨ ∀ n, N ≤ n →
      params.holdRateLow < (r.stat n).fastTime / (r.stat n).pcieTime ∧
        (r.stat n).fastTime / (r.stat n).pcieTime < params.holdRateHigh)

section

variable {initialAlpha decreaseFactor : ℚ}
variable {r : Rounds (algo (defaults initialAlpha decreaseFactor))}

theorem driven (hbp : 0 < bp) (hbf : 0 < bf) (hr : r.Carried bp bf) (h : Admissible (r.alpha 0))
    (n : ℕ) (hn : 2 ≤ n) : r.alpha (n + 1) = next (bp / bf) (r.alpha n) := by
  rw [alpha_succ hbp hbf hr h, if_neg (by omega)]

/-- A run whose ratio comes to rest settles. -/
theorem settles_of_rests (hbp : 0 < bp) (hbf : 0 < bf) (hr : r.Carried bp bf)
    (h : Admissible (r.alpha 0)) {k : ℕ} (hk : Rests (bp / bf) ((next (bp / bf))^[k] (r.alpha 2))) :
    Settles r := by
  have hdriven := driven hbp hbf hr h
  rw [← iterate_of_driven hdriven k] at hk
  have hconstant := constant_of_fixed hdriven (Nat.le_add_right 2 k) hk.fixed
  refine ⟨2 + k, r.alpha (2 + k), hconstant, ?_⟩
  rcases hk.reason with hmin | hmax | hhold
  · exact .inl hmin
  · exact .inr (.inl hmax)
  · refine .inr (.inr fun n hn => ?_)
    have hin := admissible_alpha h n
    rw [rate_eq (hr n) hbp hbf hin.pos, hconstant n hn]
    exact hhold

/-- **Where PCIe is fast or slow enough, every run settles.** -/
theorem settles_of_apart (hbp : 0 < bp) (hbf : 0 < bf)
    (hratio : bp / bf < 11 / 60 ∨ 741 / 1220 < bp / bf) (hr : r.Carried bp bf)
    (h : Admissible (r.alpha 0)) : Settles r := by
  have hin := admissible_alpha h 2
  rcases hratio with hsmall | hlarge
  · obtain ⟨k, hk⟩ := rests_of_small (div_pos hbp hbf) hsmall hin
    exact settles_of_rests hbp hbf hr h hk
  · rcases rests_of_large hlarge hin with hrests | hrests
    · exact settles_of_rests hbp hbf hr h (k := 0) hrests
    · exact settles_of_rests hbp hbf hr h (k := 1) hrests

/-- A run that goes back and forth between two ratios does not settle. -/
theorem not_settles {a : ℚ} (ha : 0 < a)
    (h : ∀ k, r.alpha (2 + 2 * k) = a ∧ r.alpha (2 + 2 * k + 1) = a * (1 / 2)) : ¬ Settles r := by
  rintro ⟨N, b, hconstant, -⟩
  obtain ⟨hthis, hnext⟩ := h N
  rw [hconstant _ (by omega)] at hthis hnext
  linarith

end

/-- **A run from a ratio that is exchanged with its half** goes back and forth between the two. -/
theorem exists_alternating (hbp : 0 < bp) (hbf : 0 < bf) {a : ℚ} (ha : Admissible a)
    (hdown : next (bp / bf) a = a * (1 / 2)) (hup : next (bp / bf) (a * (1 / 2)) = a)
    (decreaseFactor : ℚ) (pcieEnabled : Bool) (key : OpKey) :
    ∃ r : Rounds (algo (defaults a decreaseFactor)), r.pcieEnabled = pcieEnabled ∧ r.key = key ∧
      r.Carried bp bf ∧ r.alpha 0 = a ∧
      ∀ k, r.alpha (2 + 2 * k) = a ∧ r.alpha (2 + 2 * k + 1) = a * (1 / 2) := by
  have hstart : (Rounds.ofBandwidths (algo (defaults a decreaseFactor)) bp bf pcieEnabled
      key).alpha 0 = a := rfl
  have hin : Admissible ((Rounds.ofBandwidths (algo (defaults a decreaseFactor)) bp bf pcieEnabled
      key).alpha 0) := ha
  have hr := carried_ofBandwidths (algo (defaults a decreaseFactor)) bp bf pcieEnabled key
    fun n => ⟨(admissible_alpha hin n).pos.le, (admissible_alpha hin n).lt_one.le⟩
  refine ⟨_, rfl, rfl, hr, hstart, alternates_of_swap (driven hbp hbf hr hin) ?_ hdown hup⟩
  rw [alpha_two hbp hbf hr hin, hstart]

/-- **In between, some ratio is never left for good.** -/
theorem alternates_between (hbp : 0 < bp) (hbf : 0 < bf)
    (hbetween : ¬ (bp / bf < 11 / 60 ∨ 741 / 1220 < bp / bf)) :
    ∃ a, Admissible a ∧ ∀ (decreaseFactor : ℚ) (pcieEnabled : Bool) (key : OpKey),
      ∃ r : Rounds (algo (defaults a decreaseFactor)), r.pcieEnabled = pcieEnabled ∧ r.key = key ∧
        r.Carried bp bf ∧ r.alpha 0 = a ∧
        ∀ k, r.alpha (2 + 2 * k) = a ∧ r.alpha (2 + 2 * k + 1) = a * (1 / 2) := by
  obtain ⟨hlow, hhigh⟩ := not_or.1 hbetween
  obtain ⟨a, ha, hdown, hup⟩ := exists_swap (not_lt.1 hlow) (not_lt.1 hhigh)
  exact ⟨a, ha, exists_alternating hbp hbf ha hdown hup⟩

end InverseProportion

/-! ## Split ratio control -/

namespace SplitRatio

variable (params : Params ℚ)

/-- A positive ratio within the bounds. -/
structure Admissible (alpha : ℚ) : Prop where
  pos : 0 < alpha
  min_le : params.minAlpha ≤ alpha
  le_max : alpha ≤ maxAlpha

/-- The share of the bytes at which both paths take the same time, within the bounds. -/
def share (bp bf : ℚ) : ℚ := clamp params (bp / (bp + bf))

/-- What a round makes of a ratio: a step towards the equalising share `x`, or a penalty where PCIe
has more than that. -/
inductive Moves (x alpha : ℚ) : ℚ → Prop
  | towards : Moves x alpha (clamp params (alpha + params.eta * (x - alpha)))
  | penalty : x < alpha → Moves x alpha (clamp params (alpha * (9 / 10)))

variable {params} {bp bf x alpha alpha' : ℚ}

theorem clamp_eq (h : Admissible params alpha) : clamp params alpha = alpha := by
  unfold clamp
  rw [min_eq_right h.le_max, max_eq_right h.min_le]

theorem Admissible.lt_one (h : Admissible params alpha) : alpha < 1 := by
  have hle := h.le_max
  unfold maxAlpha at hle
  linarith

theorem admissible_clamp {y : ℚ} (h : Admissible params alpha) (hy : 0 < y) :
    Admissible params (clamp params y) :=
  ⟨clamp_pos params hy, le_max_left _ _,
    max_le (h.min_le.trans h.le_max) (min_le_left _ _)⟩

/-! ### A round -/

section

variable {stat : ExecStat ℚ} {s : State ℚ}

/-- The measured bandwidth of a path. -/
theorem bandwidths (hbp : 0 < bp) (hbf : 0 < bf) (h : Carries bp bf alpha stat)
    (hin : Admissible params alpha) :
    stat.pcieBandwidth = bp / 1024 ^ 3 ∧ stat.fastBandwidth = bf / 1024 ^ 3 := by
  have hpcie := h.pcieBytes_pos hin.pos
  have hfast := h.fastBytes_pos hin.lt_one
  have hpcie' : (0 : ℚ) < stat.pcieBytes := Nat.cast_pos.2 hpcie
  have hfast' : (0 : ℚ) < stat.fastBytes := Nat.cast_pos.2 hfast
  unfold ExecStat.pcieBandwidth ExecStat.fastBandwidth
  rw [h.pcieTime, h.fastTime, if_pos ⟨div_pos hpcie' hbp, hpcie⟩,
    if_pos ⟨div_pos hfast' hbf, hfast⟩]
  constructor <;> field_simp

/-- The moving average is the bandwidth once there is a sample, and stays it. -/
theorem nextBpHat_eq {bytes : ℕ} {b bpHat : ℚ} (hb : 0 < b) (h : bpHat = 0 ∨ bpHat = b) :
    nextBpHat params bytes b bpHat = b := by
  unfold nextBpHat
  rcases h with rfl | rfl
  · rw [if_pos (.inr le_rfl), if_pos le_rfl]
  · rw [if_neg (not_le.2 hb)]
    split
    · ring
    · rfl

/-- The times are compared past the equalising share only. -/
theorem moves_nextAlpha {bytes steps : ℕ} (hbp : 0 < bp) (hbf : 0 < bf) :
    Moves params (bp / (bp + bf)) alpha
      (clamp params (nextAlpha params bytes steps (bp / 1024 ^ 3) (bf / 1024 ^ 3) alpha)) := by
  have hshare : bp / 1024 ^ 3 / (bp / 1024 ^ 3 + bf / 1024 ^ 3) = bp / (bp + bf) := by
    field_simp
  unfold nextAlpha
  dsimp only
  rw [hshare]
  split
  · exact .towards
  · split
    · rename_i hslow
      split
      · refine .penalty ?_
        rw [div_lt_iff₀ (add_pos hbp hbf)]
        rw [div_mul_eq_mul_div, div_lt_div_iff₀ (by positivity) (by positivity)] at hslow
        nlinarith
      · exact .towards
    · exact .towards

theorem update_eq (hbp : 0 < bp) (hbf : 0 < bf) (h : Carries bp bf s.alpha stat)
    (hin : Admissible params s.alpha) (hhat : s.bpHat = 0 ∨ s.bpHat = bp / 1024 ^ 3) :
    (update params stat s).bpHat = bp / 1024 ^ 3 ∧
      Moves params (bp / (bp + bf)) s.alpha (update params stat s).alpha := by
  obtain ⟨hp, hf⟩ := bandwidths hbp hbf h hin
  have hbp' : 0 < bp / 1024 ^ 3 := by positivity
  have hbf' : 0 < bf / 1024 ^ 3 := by positivity
  have hbytes := (h.pcieBytes_pos hin.pos).ne'
  unfold update
  rw [if_neg (by simp [h.fastSuccess, h.pcieSuccess]), if_neg hbytes, hp, hf,
    if_neg (not_or.2 ⟨not_le.2 hbp', not_le.2 hbf'⟩)]
  dsimp only
  rw [nextBpHat_eq hbp' hhat]
  exact ⟨rfl, moves_nextAlpha hbp hbf⟩

/-- A step keeps the ratio positive and within the bounds. -/
theorem Moves.admissible (h : Moves params x alpha alpha') (hx : 0 < x)
    (hin : Admissible params alpha) : Admissible params alpha' := by
  cases h with
  | towards =>
    apply admissible_clamp hin
    have h1 := mul_pos params.eta_pos hx
    have h2 := mul_pos (sub_pos.2 params.eta_lt) hin.pos
    linarith
  | penalty _ => exact admissible_clamp hin (mul_pos hin.pos (by norm_num))

end

/-! ### Steps towards the share -/

theorem share_pos (params : Params ℚ) (hbp : 0 < bp) (hbf : 0 < bf) : 0 < share params bp bf :=
  clamp_pos params (div_pos hbp (add_pos hbp hbf))

/-- A step towards the equalising share shrinks the distance from the clamped one. -/
theorem dist_towards (hin : Admissible params alpha) :
    |clamp params (alpha + params.eta * (x - alpha)) - clamp params x| ≤
      (1 - params.eta) * |alpha - clamp params x| := by
  have hmin := hin.min_le
  have hmax := hin.le_max
  have heta : 0 ≤ 1 - params.eta := by linarith [params.eta_lt]
  unfold clamp
  generalize (maxAlpha : ℚ) = high at hmax
  generalize params.minAlpha = low at hmin
  rcases lt_or_ge x low with hlow | hlow
  · -- the share is the lower bound, and the step ends at or above it
    have hx : max low (min high x) = low := max_eq_left ((min_le_right _ _).trans hlow.le)
    have hstep : alpha + params.eta * (x - alpha) ≤ low + (1 - params.eta) * (alpha - low) := by
      have := mul_le_mul_of_nonneg_left hlow.le params.eta_pos.le
      linarith
    have hgap := mul_nonneg heta (sub_nonneg.2 hmin)
    have hle : max low (min high (alpha + params.eta * (x - alpha))) ≤
        low + (1 - params.eta) * (alpha - low) :=
      max_le (by linarith) ((min_le_right _ _).trans hstep)
    rw [hx, abs_of_nonneg (sub_nonneg.2 (le_max_left _ _)), abs_of_nonneg (sub_nonneg.2 hmin)]
    linarith
  · rcases lt_or_ge high x with hhigh | hhigh
    · -- the share is the upper bound, and the step ends at or below it
      have hx : max low (min high x) = high := by
        rw [min_eq_left hhigh.le, max_eq_right (hmin.trans hmax)]
      have hstep : high - (1 - params.eta) * (high - alpha) ≤ alpha + params.eta * (x - alpha) := by
        have := mul_le_mul_of_nonneg_left hhigh.le params.eta_pos.le
        linarith
      have hgap := mul_nonneg heta (sub_nonneg.2 hmax)
      have hge : high - (1 - params.eta) * (high - alpha) ≤
          max low (min high (alpha + params.eta * (x - alpha))) :=
        le_max_of_le_right (le_min (by linarith) hstep)
      have hle : max low (min high (alpha + params.eta * (x - alpha))) ≤ high :=
        max_le (hmin.trans hmax) (min_le_left _ _)
      rw [hx, abs_of_nonpos (sub_nonpos.2 hle), abs_of_nonpos (sub_nonpos.2 hmax)]
      linarith
    · -- clamping takes the step no further from the share
      have hx : max low (min high x) = x := by
        rw [min_eq_right hhigh, max_eq_right hlow]
      have hstep : alpha + params.eta * (x - alpha) - x = (1 - params.eta) * (alpha - x) := by
        ring
      have hclamp : |max low (min high (alpha + params.eta * (x - alpha))) - x| ≤
          |alpha + params.eta * (x - alpha) - x| := by
        generalize alpha + params.eta * (x - alpha) = y
        grind
      rw [hx]
      rwa [hstep, abs_mul, abs_of_nonneg heta] at hclamp

/-- A penalty ends above nine tenths of the share, and shrinks what is above it. -/
theorem penalty_bounds (hx : 0 < x) (hin : Admissible params alpha) (h : x < alpha) :
    clamp params x * (9 / 10) ≤ clamp params (alpha * (9 / 10)) ∧
      clamp params (alpha * (9 / 10)) ≤ alpha ∧
      clamp params (alpha * (9 / 10)) - clamp params x ≤ 9 / 10 * (alpha - clamp params x) := by
  have hpos := clamp_pos params hx
  have hle : clamp params x ≤ alpha := max_le hin.min_le ((min_le_right _ _).trans h.le)
  have hmin : params.minAlpha ≤ clamp params x := le_max_left _ _
  have hcut : clamp params (alpha * (9 / 10)) = max params.minAlpha (alpha * (9 / 10)) := by
    unfold clamp
    rw [min_eq_right]
    linarith [hin.pos, hin.le_max]
  rw [hcut]
  refine ⟨?_, max_le hin.min_le (by linarith [hin.pos]), ?_⟩
  · exact le_max_of_le_right (by linarith)
  · rcases le_total params.minAlpha (alpha * (9 / 10)) with hcase | hcase
    · rw [max_eq_right hcase]
      linarith
    · rw [max_eq_left hcase]
      linarith

/-- Within ten per cent of the share. -/
def Near (c alpha : ℚ) : Prop := |alpha - c| ≤ c / 10

theorem Moves.near (h : Moves params x alpha alpha') (hx : 0 < x) (hin : Admissible params alpha)
    (hnear : Near (clamp params x) alpha) : Near (clamp params x) alpha' := by
  unfold Near at *
  cases h with
  | towards =>
    have hdist := dist_towards (x := x) hin
    have hle := mul_nonneg params.eta_pos.le (abs_nonneg (alpha - clamp params x))
    linarith
  | penalty hlt =>
    obtain ⟨hlow, hhigh, -⟩ := penalty_bounds hx hin hlt
    obtain ⟨h1, h2⟩ := abs_le.1 hnear
    exact abs_le.2 ⟨by linarith, by linarith⟩

theorem Moves.shrinks (h : Moves params x alpha alpha') (hx : 0 < x)
    (hin : Admissible params alpha) : Near (clamp params x) alpha' ∨
      |alpha' - clamp params x| ≤ max (1 - params.eta) (9 / 10) * |alpha - clamp params x| := by
  cases h with
  | towards =>
    right
    exact (dist_towards hin).trans
      (mul_le_mul_of_nonneg_right (le_max_left _ _) (abs_nonneg _))
  | penalty hlt =>
    obtain ⟨hlow, -, hshrink⟩ := penalty_bounds hx hin hlt
    have hpos := clamp_pos params hx
    rcases le_total (clamp params (alpha * (9 / 10))) (clamp params x) with hle | hle
    · left
      unfold Near
      rw [abs_of_nonpos (sub_nonpos.2 hle)]
      linarith
    · right
      rw [abs_of_nonneg (sub_nonneg.2 hle)]
      calc clamp params (alpha * (9 / 10)) - clamp params x
          ≤ 9 / 10 * (alpha - clamp params x) := hshrink
        _ ≤ 9 / 10 * |alpha - clamp params x| :=
            mul_le_mul_of_nonneg_left (le_abs_self _) (by norm_num)
        _ ≤ max (1 - params.eta) (9 / 10) * |alpha - clamp params x| :=
            mul_le_mul_of_nonneg_right (le_max_right _ _) (abs_nonneg _)

/-! ### Runs -/

section

variable {r : Rounds (algo params)}

/-- What is suggested next is what the update made of the ratio. -/
theorem alpha_succ (n : ℕ)
    (h : Admissible params (update params (r.stat n) (r.object n)).alpha) :
    r.alpha (n + 1) = (update params (r.stat n) (r.object n)).alpha ∧
      State.bpHat (r.object (n + 1)) = (update params (r.stat n) (r.object n)).bpHat := by
  obtain ⟨v, hv, hsucc⟩ := r.object_succ n
  have hv : v.alpha = (update params (r.stat n) (r.object n)).alpha := hv
  rw [r.alpha_eq, hsucc]
  refine ⟨?_, rfl⟩
  show clamp params (if 0 < v.alpha then v.alpha else _) = _
  rw [hv, if_pos h.pos, clamp_eq h]

/-- A run keeps the ratio positive and within its bounds, and the average at the bandwidth. -/
theorem run_invariant (hbp : 0 < bp) (hbf : 0 < bf) (hr : r.Carried bp bf)
    (h : Admissible params (r.alpha 0)) (n : ℕ) :
    Admissible params (r.alpha n) ∧
      (State.bpHat (r.object n) = 0 ∨ State.bpHat (r.object n) = bp / 1024 ^ 3) := by
  induction n with
  | zero =>
    refine ⟨h, .inl ?_⟩
    rcases r.object_zero with h0 | ⟨v, h0⟩
    · rw [h0]
      rfl
    · rw [h0]
      rfl
  | succ n ih =>
    have hcarries := hr n
    rw [r.alpha_eq] at hcarries ih
    obtain ⟨hhat, hmoves⟩ := update_eq hbp hbf hcarries ih.1 ih.2
    have hin := hmoves.admissible (div_pos hbp (add_pos hbp hbf)) ih.1
    obtain ⟨halpha, hhat'⟩ := alpha_succ n hin
    rw [halpha, hhat']
    exact ⟨hin, .inr hhat⟩

/-- **Every round is a step** towards the equalising share or a penalty. -/
theorem moves_alpha (hbp : 0 < bp) (hbf : 0 < bf) (hr : r.Carried bp bf)
    (h : Admissible params (r.alpha 0)) (n : ℕ) :
    Moves params (bp / (bp + bf)) (r.alpha n) (r.alpha (n + 1)) := by
  have hcarries := hr n
  obtain ⟨hin, hhat⟩ := run_invariant hbp hbf hr h n
  rw [r.alpha_eq] at hcarries hin
  obtain ⟨-, hmoves⟩ := update_eq hbp hbf hcarries hin hhat
  rw [(alpha_succ n (hmoves.admissible (div_pos hbp (add_pos hbp hbf)) hin)).1, r.alpha_eq]
  exact hmoves

/-- **The ratio gets near the share and stays there.** -/
theorem eventually_near (hbp : 0 < bp) (hbf : 0 < bf) (hr : r.Carried bp bf)
    (h : Admissible params (r.alpha 0)) :
    ∃ N, ∀ n, N ≤ n → Near (share params bp bf) (r.alpha n) := by
  have hx : 0 < bp / (bp + bf) := div_pos hbp (add_pos hbp hbf)
  have hpos := share_pos params hbp hbf
  have hmoves := moves_alpha hbp hbf hr h
  refine eventually_of_shrinks (d := fun n => |r.alpha n - share params bp bf|)
    (q := max (1 - params.eta) (9 / 10)) (le_max_of_le_right (by norm_num))
    (max_lt (by linarith [params.eta_pos]) (by norm_num))
    (show 0 < share params bp bf / 10 by linarith) (fun n hn => ?_) (fun n _ => ?_)
    fun n hn => hn.le
  · exact (hmoves n).near hx (run_invariant hbp hbf hr h n).1 hn
  · exact (hmoves n).shrinks hx (run_invariant hbp hbf hr h n).1

end

end SplitRatio

/-! ## Both -/

/-- **Where the loop settles.**  The paths have constant bandwidths, and each collective carries
what is suggested.  With inverse proportion every run settles just if the ratio of the bandwidths
is below 11/60 or above 741/1220: in between there is a ratio from which the loop goes back and
forth between it and its half forever.  With split ratio control every run gets within ten per cent
of the share that equalises the times, as far as the bounds allow it, and stays there. -/
theorem controller_convergence {bp bf : ℚ} (hbp : 0 < bp) (hbf : 0 < bf) :
    ((∀ (initialAlpha decreaseFactor : ℚ)
        (r : Rounds (InverseProportion.algo
          (InverseProportion.defaults initialAlpha decreaseFactor))),
        r.Carried bp bf → InverseProportion.Admissible (r.alpha 0) →
          InverseProportion.Settles r) ↔
      bp / bf < 11 / 60 ∨ 741 / 1220 < bp / bf) ∧
    (¬ (bp / bf < 11 / 60 ∨ 741 / 1220 < bp / bf) →
      ∃ a, InverseProportion.Admissible a ∧
        ∀ (decreaseFactor : ℚ) (pcieEnabled : Bool) (key : OpKey),
          ∃ r : Rounds (InverseProportion.algo (InverseProportion.defaults a decreaseFactor)),
            r.pcieEnabled = pcieEnabled ∧ r.key = key ∧ r.Carried bp bf ∧ r.alpha 0 = a ∧
            ∀ k, r.alpha (2 + 2 * k) = a ∧ r.alpha (2 + 2 * k + 1) = a * (1 / 2)) ∧
    ∀ (params : SplitRatio.Params ℚ) (r : Rounds (SplitRatio.algo params)),
      r.Carried bp bf → SplitRatio.Admissible params (r.alpha 0) →
        ∃ N, ∀ n, N ≤ n →
          |r.alpha n - SplitRatio.share params bp bf| ≤ SplitRatio.share params bp bf / 10 := by
  refine ⟨⟨fun h => ?_, ?_⟩, InverseProportion.alternates_between hbp hbf, ?_⟩
  · by_contra hbetween
    obtain ⟨a, ha, hruns⟩ := InverseProportion.alternates_between hbp hbf hbetween
    obtain ⟨r, -, -, hr, hstart, hback⟩ := hruns 0 true ⟨.allReduce, 1, 0, 0, 1, 0⟩
    exact InverseProportion.not_settles ha.pos hback (h a 0 r hr (by rwa [hstart]))
  · intro hratio _ _ r hr h
    exact InverseProportion.settles_of_apart hbp hbf hratio hr h
  · intro params r hr h
    exact SplitRatio.eventually_near hbp hbf hr h

/-- PCIe has half the bandwidth of the fast library, and the loop starts at 12/31: it goes back and
forth between this and 6/31. -/
theorem controller_convergence_alternating :
    ∃ r : Rounds (InverseProportion.algo (InverseProportion.defaults (12 / 31) (1 / 2))),
      r.Carried 1 2 ∧ InverseProportion.Admissible (r.alpha 0) ∧ ¬ InverseProportion.Settles r := by
  have ha : InverseProportion.Admissible (12 / 31) := by
    constructor <;> norm_num [InverseProportion.minAlpha, InverseProportion.maxAlpha]
  have hdown : InverseProportion.next (1 / 2) (12 / 31) = 12 / 31 * (1 / 2) := by
    norm_num [InverseProportion.next, InverseProportion.rate, InverseProportion.clamp,
      InverseProportion.minAlpha, InverseProportion.maxAlpha]
  have hup : InverseProportion.next (1 / 2) (12 / 31 * (1 / 2)) = 12 / 31 := by
    norm_num [InverseProportion.next, InverseProportion.rate, InverseProportion.clamp,
      InverseProportion.minAlpha, InverseProportion.maxAlpha]
  obtain ⟨r, -, -, hr, hstart, hback⟩ := InverseProportion.exists_alternating
    (show (0 : ℚ) < 1 by norm_num) (show (0 : ℚ) < 2 by norm_num) ha hdown hup (1 / 2) true
    ⟨.allReduce, 1, 0, 0, 1, 0⟩
  exact ⟨r, hr, by rwa [hstart], InverseProportion.not_settles ha.pos hback⟩

/-- PCIe has a tenth of the bandwidth, and the loop starts at the default ratio. -/
theorem controller_convergence_tenth :
    ∃ r : Rounds (InverseProportion.algo (InverseProportion.defaults (1 / 100) (1 / 2))),
      r.Carried 1 10 ∧ InverseProportion.Settles r := by
  let r := Rounds.ofBandwidths
    (InverseProportion.algo (InverseProportion.defaults (1 / 100) (1 / 2))) 1 10 true
    ⟨.allReduce, 1, 0, 0, 1, 0⟩
  have hstart : InverseProportion.Admissible (r.alpha 0) := by
    show InverseProportion.Admissible (1 / 100)
    constructor <;> norm_num [InverseProportion.minAlpha, InverseProportion.maxAlpha]
  have hr : r.Carried 1 10 := carried_ofBandwidths _ _ _ _ _ fun n =>
    ⟨(InverseProportion.admissible_alpha hstart n).pos.le,
      (InverseProportion.admissible_alpha hstart n).lt_one.le⟩
  exact ⟨r, hr, (@controller_convergence 1 10 (by norm_num) (by norm_num)).1.2
    (.inl (by norm_num)) _ _ r hr hstart⟩

end Feedback
end Orchestrator
end HyLink
