import HyLink.Orchestrator.StatStore

/-!
# What the ranks compute from the announcements

A rank that only reads goes from round to round by the announced entries alone: it merges
them into its cache, asks its controller for a split ratio, and plans.  Rank 0 does the same
with a controller that also learns from the stats.  Its objects differ from the others'
then, but not in a way a plan can show.

* `AdaptiveAlgo.Following` — how rank 0's object of an algorithm may differ.
* `Algorithm.following` — every algorithm of the factory has such a relation.
* `Replica.after` — the rank that has read a list of announcements.
* `Tracks.update`, `Tracks.suggest` — what rank 0 does keeps the relation, and the plans
  agree.
-/

namespace HyLink
namespace Orchestrator
namespace Feedback

variable {K : Type} [Field K] [LinearOrder K] [FloorSemiring K]

/-! ## Ratios that give the same plan -/

def SamePlan (planner : PlannerConfig) (a b : K) : Prop :=
  ∀ bytes hint, createPlan planner bytes a hint = createPlan planner bytes b hint

theorem SamePlan.of_eq {planner : PlannerConfig} {a b : K} (h : a = b) : SamePlan planner a b :=
  fun _ _ => h ▸ rfl

/-- Two ratios that are not positive both count as zero. -/
theorem SamePlan.of_nonpos {planner : PlannerConfig} {a b : K} (ha : a ≤ 0) (hb : b ≤ 0) :
    SamePlan planner a b := by
  have hzero : ∀ c : K, c ≤ 0 → (if c < 0 then 0 else c) = 0 := by
    intro c hc
    by_cases hlt : c < 0
    · exact if_pos hlt
    · rw [if_neg hlt]
      exact le_antisymm hc (not_lt.1 hlt)
  intro bytes hint
  unfold createPlan
  simp only [hzero a ha, hzero b hb]

/-! ## How rank 0's objects differ -/

/-- A relation between the object of a rank that only reads and rank 0's, given the cached
parameters, that every call of the controller keeps. -/
structure AdaptiveAlgo.Following (A : AdaptiveAlgo K) (planner : PlannerConfig) where
  rel : Option (ParamValue K) → A.State → A.State → Prop
  initial : ∀ v, rel v A.initial A.initial
  /-- Where nothing is cached the ratios are equal. -/
  fresh : ∀ {f l}, rel none f l → A.alpha f = A.alpha l
  suggest : ∀ {v f l}, rel (some v) f l →
    SamePlan planner (A.alpha (A.suggest v f)) (A.alpha (A.suggest v l)) ∧
      rel (some v) (A.suggest v f) (A.suggest v l)
  /-- Rank 0's object learns, and its ratio is cached. -/
  update : ∀ {v f l} stat v', rel v f l → v'.alpha = A.alpha (A.update stat l) →
    rel (some v') f (A.update stat l)

/-- The cached ratio replaces the object's own. -/
def InverseProportion.following (params : InverseProportion.Params K) (planner : PlannerConfig) :
    (InverseProportion.algo params).Following planner where
  rel v f l := v = none → f.alpha = l.alpha
  initial _ _ := rfl
  fresh h := h rfl
  suggest _ := ⟨SamePlan.of_eq rfl, nofun⟩
  update _ _ _ _ := nofun

def staticFollowing (alpha : K) (planner : PlannerConfig) :
    (staticAlgo alpha).Following planner where
  rel _ f l := f = l
  initial _ := rfl
  fresh h := h
  suggest h := ⟨SamePlan.of_eq h, h⟩
  update _ _ h _ := h

namespace SplitRatio

variable (params : Params K)

/-- A cached ratio that is not positive leaves the object's own in place: then the two are
equal, or neither is positive and the lower bound keeps them so. -/
def Follows (v : Option (ParamValue K)) (f l : State K) : Prop :=
  f.alpha = l.alpha ∨ (∃ w, v = some w ∧ 0 < w.alpha ∧ 0 < l.alpha) ∨
    (v ≠ none ∧ params.minAlpha ≤ 0 ∧ f.alpha ≤ 0 ∧ l.alpha ≤ 0)

omit [FloorSemiring K] in
theorem clamp_nonpos {alpha : K} (hmin : params.minAlpha ≤ 0) (h : alpha ≤ 0) :
    clamp params alpha ≤ 0 :=
  max_le hmin ((min_le_right _ _).trans h)

theorem Follows.suggest (planner : PlannerConfig) {v : ParamValue K} {f l : State K}
    (h : Follows params (some v) f l) :
    SamePlan planner (suggest params v f).alpha (suggest params v l).alpha ∧
      Follows params (some v) (suggest params v f) (suggest params v l) := by
  by_cases hv : 0 < v.alpha
  · have heq : (SplitRatio.suggest params v f).alpha = (SplitRatio.suggest params v l).alpha := by
      simp only [SplitRatio.suggest, if_pos hv]
    exact ⟨SamePlan.of_eq heq, .inl heq⟩
  · rcases h with heq | ⟨w, hw, hpos, -⟩ | ⟨-, hmin, hf, hl⟩
    · have heq' : (SplitRatio.suggest params v f).alpha = (SplitRatio.suggest params v l).alpha := by
        simp only [SplitRatio.suggest, if_neg hv, heq]
      exact ⟨SamePlan.of_eq heq', .inl heq'⟩
    · cases hw
      exact absurd hpos hv
    · have hf' : (SplitRatio.suggest params v f).alpha ≤ 0 := by
        simp only [SplitRatio.suggest, if_neg hv]
        exact clamp_nonpos params hmin hf
      have hl' : (SplitRatio.suggest params v l).alpha ≤ 0 := by
        simp only [SplitRatio.suggest, if_neg hv]
        exact clamp_nonpos params hmin hl
      exact ⟨SamePlan.of_nonpos hf' hl', .inr (.inr ⟨by simp, hmin, hf', hl'⟩)⟩

omit [FloorSemiring K] in
theorem Follows.update [IsStrictOrderedRing K] {v : Option (ParamValue K)} {f l : State K}
    (stat : ExecStat K) (v' : ParamValue K) (h : Follows params v f l)
    (hv : v'.alpha = (update params stat l).alpha) :
    Follows params (some v') f (update params stat l) := by
  by_cases hpos : 0 < (SplitRatio.update params stat l).alpha
  · exact .inr (.inl ⟨v', rfl, hv ▸ hpos, hpos⟩)
  · have hl : l.alpha ≤ 0 := not_lt.1 fun hlt => hpos (update_pos params stat hlt)
    have hl' := not_lt.1 hpos
    by_cases hmin : params.minAlpha ≤ 0
    · refine .inr (.inr ⟨by simp, hmin, ?_, hl'⟩)
      rcases h with heq | ⟨_, _, _, hlt⟩ | ⟨-, -, hf, -⟩
      · exact heq ▸ hl
      · exact absurd hl (not_le.2 hlt)
      · exact hf
    · -- the ratio was not clamped, so it is the old one
      rcases update_eq_or_le params stat l with hkeep | hle
      · rcases h with heq | ⟨_, _, _, hlt⟩ | ⟨-, hmin', -⟩
        · exact .inl (heq.trans hkeep.symm)
        · exact absurd hl (not_le.2 hlt)
        · exact absurd hmin' hmin
      · exact absurd (hle.trans hl') hmin

def following [IsStrictOrderedRing K] (planner : PlannerConfig) :
    (algo params).Following planner where
  rel := Follows params
  initial _ := .inl rfl
  fresh h := by
    rcases h with heq | ⟨_, hnone, _⟩ | ⟨hne, _⟩
    · exact heq
    · exact absurd hnone (by simp)
    · exact absurd rfl hne
  suggest h := h.suggest params planner
  update stat v' h hv := h.update params stat v' hv

end SplitRatio

def Algorithm.following [IsStrictOrderedRing K] (planner : PlannerConfig) :
    (a : Algorithm K) → a.create.Following planner
  | .inverseProportion params => InverseProportion.following params planner
  | .splitRatio params => SplitRatio.following params planner
  | .static alpha => staticFollowing alpha planner

/-! ## Merging -/

section Merging

omit [Field K] [LinearOrder K] [FloorSemiring K]

theorem mergeAll_cons (c : ParamCache K) (e : OpKey × ParamValue K) (E : Entries K) :
    mergeAll c (e :: E) = mergeAll (Table.set c e.1 e.2) E := rfl

/-- A key that no entry has keeps its value. -/
theorem mergeAll_of_not_mem {E : Entries K} {k : KeyIdent} (h : ∀ e ∈ E, e.1.ident ≠ k)
    (c : ParamCache K) : mergeAll c E k = c k := by
  induction E generalizing c with
  | nil => rfl
  | cons e E ih =>
    rw [mergeAll_cons, ih fun x hx => h x (List.mem_cons_of_mem _ hx)]
    exact Function.update_of_ne (h e List.mem_cons_self).symm _ _

/-- A key that an entry has gets its value from the entries. -/
theorem mergeAll_of_mem {E : Entries K} {k : KeyIdent} (h : ∃ e ∈ E, e.1.ident = k)
    (c c' : ParamCache K) : mergeAll c E k = mergeAll c' E k := by
  induction E generalizing c c' with
  | nil =>
    obtain ⟨e, he, -⟩ := h
    exact absurd he List.not_mem_nil
  | cons e E ih =>
    rw [mergeAll_cons, mergeAll_cons]
    by_cases hE : ∃ x ∈ E, x.1.ident = k
    · exact ih hE _ _
    · have hnone : ∀ x ∈ E, x.1.ident ≠ k := fun x hx hk => hE ⟨x, hx, hk⟩
      rw [mergeAll_of_not_mem hnone, mergeAll_of_not_mem hnone]
      obtain ⟨x, hx, hk⟩ := h
      rcases List.mem_cons.1 hx with rfl | hx
      · subst hk
        rw [Table.set, Table.set, Function.update_self, Function.update_self]
      · exact absurd hk (hnone x hx)

/-- **Merging the same entries again changes nothing.** -/
theorem mergeAll_mergeAll (c : ParamCache K) (E : Entries K) :
    mergeAll (mergeAll c E) E = mergeAll c E := by
  funext k
  by_cases h : ∃ e ∈ E, e.1.ident = k
  · exact mergeAll_of_mem h _ _
  · exact mergeAll_of_not_mem (fun e he hk => h ⟨e, he, hk⟩) _

theorem mergeAll_singleton (c : ParamCache K) (key : OpKey) (v : ParamValue K) :
    mergeAll c [(key, v)] = Table.set c key v := rfl

theorem Table.find_set_self {V : Type} (t : Table V) (key : OpKey) (v : V) :
    Table.find (Table.set t key v) key = some v := Function.update_self _ _ _

theorem Table.set_set {V : Type} (t : Table V) (key : OpKey) (v w : V) :
    Table.set (Table.set t key v) key w = Table.set t key w := Function.update_idem _ _ _

end Merging

/-! ## The rank that only reads -/

variable {cfg : Config K}

structure Replica (cfg : Config K) where
  cache : ParamCache K
  controller : Controller cfg.algo
  plans : List Plan

namespace Replica

def start : Replica cfg := ⟨Table.empty, Table.empty, []⟩

/-- The plan for a collective from a cache and a controller. -/
def plan (cfg : Config K) (seq : ℕ) (cache : ParamCache K) (c : Controller cfg.algo) : Plan :=
  createPlan cfg.planner (cfg.opKey seq).bytes (c.suggestAlpha (cfg.opKey seq) cache).1
    (cache.lookup (cfg.opKey seq)).usePcie

/-- One round: merge the announcement, ask for a ratio, plan. -/
def round (rep : Replica cfg) (entries : Entries K) : Replica cfg :=
  let cache := mergeAll rep.cache entries
  let seq := rep.plans.length
  { cache := cache
    controller := (rep.controller.suggestAlpha (cfg.opKey seq) cache).2
    plans := rep.plans ++ [plan cfg seq cache rep.controller] }

/-- The rank after it has read a list of announcements. -/
def after (cfg : Config K) (announced : List (Entries K)) : Replica cfg :=
  announced.foldl round start

theorem after_append (announced : List (Entries K)) (entries : Entries K) :
    after cfg (announced ++ [entries]) = (after cfg announced).round entries := by
  rw [after, List.foldl_append]
  rfl

theorem after_take_succ {announced : List (Entries K)} {n : ℕ} {entries : Entries K}
    (h : announced[n]? = some entries) :
    after cfg (announced.take (n + 1)) = (after cfg (announced.take n)).round entries := by
  rw [List.take_add_one, h]
  exact after_append _ _

/-- **Plans are never revised:** who has read less has computed a prefix. -/
theorem plans_prefix (cfg : Config K) (announced later : List (Entries K)) :
    (after cfg announced).plans <+: (after cfg (announced ++ later)).plans := by
  induction later using List.reverseRecOn with
  | nil => rw [List.append_nil]
  | append_singleton later entries ih =>
    rw [← List.append_assoc, after_append]
    exact ih.trans (List.prefix_append _ _)

theorem plans_take_prefix (announced : List (Entries K)) (n : ℕ) :
    (after cfg (announced.take n)).plans <+: (after cfg announced).plans := by
  have h := plans_prefix cfg (announced.take n) (announced.drop n)
  rwa [List.take_append_drop] at h

end Replica

/-! ## Rank 0's controller -/

/-- Rank 0's controller `l` may stand for the controller `f` of a rank that only reads. -/
def Tracks (fo : cfg.algo.Following cfg.planner) (cache : ParamCache K)
    (f l : Controller cfg.algo) : Prop :=
  ∀ k, fo.rel (cache k) ((f k).getD cfg.algo.initial) ((l k).getD cfg.algo.initial)

namespace Tracks

variable {fo : cfg.algo.Following cfg.planner} {cache : ParamCache K} {f l : Controller cfg.algo}

theorem start (cache : ParamCache K) : Tracks fo cache Table.empty Table.empty :=
  fun _ => fo.initial _

/-- **What rank 0 learns, its cache shows.** -/
theorem update (h : Tracks fo cache f l) (enabled : Bool) (key : OpKey) (stat : ExecStat K) :
    Tracks fo (l.update enabled key stat cache).1 f (l.update enabled key stat cache).2 := by
  intro k
  by_cases hk : k = key.ident
  · subst hk
    simp only [Controller.update, Table.set, Function.update_self, Option.getD_some]
    exact fo.update stat _ (h key.ident) rfl
  · simp only [Controller.update, Table.set, Function.update_of_ne hk]
    exact h k

/-- **The plans agree**, and asking for a ratio keeps the relation. -/
theorem suggest (h : Tracks fo cache f l) (key : OpKey) :
    SamePlan cfg.planner (f.suggestAlpha key cache).1 (l.suggestAlpha key cache).1 ∧
      Tracks fo cache (f.suggestAlpha key cache).2 (l.suggestAlpha key cache).2 := by
  have hkey := h key.ident
  cases hc : cache key.ident with
  | none =>
    rw [hc] at hkey
    simp only [Controller.suggestAlpha, Table.find, hc, Controller.getOrCreate]
    refine ⟨SamePlan.of_eq (fo.fresh hkey), ?_⟩
    intro k
    by_cases hk : k = key.ident
    · subst hk
      simp only [Table.set, Function.update_self, Option.getD_some, hc]
      exact hkey
    · simp only [Table.set, Function.update_of_ne hk]
      exact h k
  | some v =>
    rw [hc] at hkey
    simp only [Controller.suggestAlpha, Table.find, hc, Controller.getOrCreate]
    refine ⟨(fo.suggest hkey).1, ?_⟩
    intro k
    by_cases hk : k = key.ident
    · subst hk
      simp only [Table.set, Function.update_self, Option.getD_some, hc]
      exact (fo.suggest hkey).2
    · simp only [Table.set, Function.update_of_ne hk]
      exact h k

theorem plan_eq (h : Tracks fo cache f l) (seq : ℕ) :
    Replica.plan cfg seq cache f = Replica.plan cfg seq cache l :=
  (h.suggest (cfg.opKey seq)).1 _ _

end Tracks

end Feedback
end Orchestrator
end HyLink
