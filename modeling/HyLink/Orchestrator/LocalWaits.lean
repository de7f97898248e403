import HyLink.Orchestrator.LocalFeedback

/-!
# The store on no rank, and on some

Without parameter synchronisation nobody attaches and nobody is fed.  The barrier of the store
counts the ranks of the communicator, also those that are not attached and never come.

* `plans_agree_off` — where parameter synchronisation is off, all plans agree.
* `Blocked` — while a rank is not attached, nobody leaves the barrier.
* `attached_waits` — a rank that is attached then computes no further plan.
* `not_agree` — so a store attached on only some ranks stops them.
-/

namespace HyLink
namespace Orchestrator
namespace Feedback
namespace Local

open Theory

variable {K : Type} [Field K] [LinearOrder K] [FloorSemiring K] {cfg : Setup K}

/-! ## The store is not used -/

/-- The log of a rank that is fed nothing, after so many plans. -/
def quietLog (cfg : Setup K) : ℕ → List (Event K)
  | 0 => []
  | n + 1 => quietLog cfg n ++ [.looked (cfg.opKey n)] ++ [.planned (cfg.opKey n)]

/-- What a rank has noted since its last plan. -/
def noted (cfg : Setup K) (n : ℕ) : Stage → List (Event K)
  | .suggest _ => [.looked (cfg.opKey n)]
  | _ => []

omit [FloorSemiring K] in
theorem countP_quietLog (n : ℕ) : (quietLog cfg n).countP Event.isPlanned = n := by
  induction n with
  | zero => rfl
  | succ n ih =>
    rw [quietLog, List.countP_append, List.countP_append, ih]
    rfl

omit [FloorSemiring K] in
theorem before_quietLog {n m : ℕ} (h : n < m) (log : List (Event K)) :
    before Event.isPlanned n (quietLog cfg m ++ log) =
      quietLog cfg n ++ [.looked (cfg.opKey n)] := by
  rw [before_append_of_lt (by rw [countP_quietLog]; exact h)]
  induction m with
  | zero => exact absurd h (Nat.not_lt_zero n)
  | succ m ih =>
    by_cases hn : n < m
    · have hcount : n < (quietLog cfg m).countP Event.isPlanned := by
        rw [countP_quietLog]
        exact hn
      rw [quietLog, List.append_assoc, before_append_of_lt hcount]
      exact ih hn
    · obtain rfl : n = m := by omega
      have hcount : (quietLog cfg n ++ [Event.looked (cfg.opKey n)]).countP Event.isPlanned = n := by
        rw [List.countP_append, countP_quietLog]
        rfl
      calc before Event.isPlanned n (quietLog cfg (n + 1))
          = before Event.isPlanned ((quietLog cfg n ++ [Event.looked (cfg.opKey n)]).countP
              Event.isPlanned) (quietLog cfg (n + 1)) := by rw [hcount]
        _ = quietLog cfg n ++ [.looked (cfg.opKey n)] := before_snoc rfl

/-- The rank is fed nothing. -/
structure State.Quiet (s : State cfg) (r : ℕ) : Prop where
  attached : s.attached r = false
  updating : s.updating r = []
  log : s.log r = quietLog cfg (s.plans r).length ++ noted cfg (s.plans r).length (s.stage r)

omit [FloorSemiring K] in
theorem State.Quiet.goto {s : State cfg} {r : ℕ} (h : s.Quiet r) {stage : Stage}
    (hbefore : noted cfg (s.plans r).length (s.stage r) = [])
    (hnext : noted cfg (s.plans r).length stage = []) : (s.goto r stage).Quiet r := by
  refine ⟨h.attached, h.updating, ?_⟩
  show s.log r = quietLog cfg (s.plans r).length ++
    noted cfg (s.plans r).length (Function.update s.stage r stage r)
  rw [Function.update_self, h.log, hbefore, hnext]

theorem quiet_host {s s' : State cfg} {r : ℕ} (h : s.Quiet r) (hlone : s.Lone r)
    (hstep : hostStep s r = some s') : s'.Quiet r := by
  have hlog := h.log
  cases hstage : s.stage r with
  | idle | round => simp [hostStep, hstage] at hstep
  | meet =>
    simp only [hostStep, hstage, h.attached, Bool.false_eq_true, if_false,
      Option.some.injEq] at hstep
    subst hstep
    exact h.goto (by rw [hstage]; rfl) rfl
  | enterBarrier | arrive | resetCount | raiseSense | waitSense =>
    have hout := hlone.outside
    rw [hstage] at hout
    cases hout
  | lookup =>
    simp only [hostStep, hstage, Option.some.injEq] at hstep
    subst hstep
    refine ⟨h.attached, h.updating, ?_⟩
    show Function.update s.log r (s.log r ++ _) r = quietLog cfg (s.plans r).length ++
      noted cfg (s.plans r).length (Function.update s.stage r _ r)
    rw [hstage] at hlog
    rw [Function.update_self, Function.update_self, hlog, List.append_assoc]
    rfl
  | suggest used =>
    simp only [hostStep, hstage, Option.some.injEq] at hstep
    subst hstep
    refine ⟨h.attached, h.updating, ?_⟩
    show Function.update s.log r (s.log r ++ _) r =
      quietLog cfg (Function.update s.plans r (s.plans r ++ _) r).length ++
        noted cfg _ (Function.update s.stage r _ r)
    rw [hstage] at hlog
    rw [Function.update_self, Function.update_self, Function.update_self, List.length_append,
      hlog]
    simp [quietLog, noted]
  | launching plan =>
    simp only [hostStep, hstage, Option.some.injEq] at hstep
    subst hstep
    have hidle : (s.goto r .idle).Quiet r := h.goto (by rw [hstage]; rfl) rfl
    exact ⟨hidle.attached, hidle.updating, hidle.log⟩

omit [FloorSemiring K] in
/-- Without parameter synchronisation nobody attaches. -/
theorem ensure_off (hoff : cfg.shmParamSync = false) (s : State cfg) (r : ℕ) (ok : Bool) :
    s.ensureShmAttached r ok = s := by
  simp [State.ensureShmAttached, hoff]

theorem quiet_step (hoff : cfg.shmParamSync = false) (hmany : 1 < cfg.nranks) {s s' : State cfg}
    {l : Label K} {r : ℕ} (h : s.Quiet r) (hlone : s.Lone r) (hstep : step s l = some s') :
    s'.Quiet r := by
  by_cases hself : r = l.rank
  · subst hself
    unfold step at hstep
    split at hstep
    · cases l with
      | enter r ok =>
        dsimp only at hstep
        split at hstep
        · next hidle =>
          cases hstep
          rw [ensure_off hoff]
          have hnone : noted cfg (s.plans r).length (s.stage r) = [] := by
            rw [hidle]
            rfl
          exact State.Quiet.goto h hnone rfl
        · cases hstep
      | round r aggregate entries =>
        dsimp only at hstep
        split at hstep
        · next hround =>
          cases hstep
          have hgoto : roundStep s r aggregate entries = s.goto r .meet := by
            have hr : s.attached r = false := h.attached
            unfold roundStep
            simp only [hr, Bool.false_eq_true, if_false]
          rw [hgoto]
          have hnone : noted cfg (s.plans r).length (s.stage r) = [] := by
            rw [hround]
            rfl
          exact State.Quiet.goto h hnone rfl
        · cases hstep
      | host r => exact quiet_host h hlone hstep
      | complete r i fastTime pcieTime ok =>
        obtain ⟨p, -, rfl⟩ := Option.map_eq_some_iff.1 hstep
        have hr : s.attached r = false := h.attached
        simp only [ensure_off hoff, hr, hoff, hmany, and_true, and_false, if_true, if_false,
          Bool.false_eq_true]
        exact ⟨h.attached, h.updating, h.log⟩
      | update r i =>
        obtain ⟨sample, hsample, -⟩ := Option.map_eq_some_iff.1 hstep
        rw [show s.updating r = [] from h.updating] at hsample
        cases hsample
    · cases hstep
  · have hapart := step_apart hstep hself
    refine ⟨hapart.attached.trans h.attached, ?_, ?_⟩
    · rw [hapart.updating]
      exact h.updating
    · rw [hapart.keeps.log, hapart.keeps.plans, hapart.stage]
      exact h.log

/-- **Without parameter synchronisation** no sample is fed, and all plans of several ranks
agree. -/
theorem plans_agree_off (cfg : Setup K) (hoff : cfg.shmParamSync = false)
    (hmany : 1 < cfg.nranks) (headerValid : Bool) {labels : List (Label K)} {s : State cfg}
    (hrun : (machine cfg).runFrom Machine.anyStep (initial cfg headerValid) labels = some s) :
    Agree s := by
  have hquiet : ∀ r, s.Quiet r ∧ s.Lone r := by
    intro r
    refine (machine cfg).invariant (I := fun s => s.Quiet r ∧ s.Lone r) ?_ ?_ hrun
    · intro t l t' ht _ hstep
      have hq := quiet_step hoff hmany ht.1 ht.2 hstep
      exact ⟨hq, lone_step hstep (fun _ => ht.2) hq.attached⟩
    · exact ⟨⟨rfl, rfl, rfl⟩, Lone.start headerValid r⟩
  refine plans_agree cfg headerValid hrun (fun r _ => (hquiet r).1.attached) ?_
  intro n r _ q _ hn hn'
  have hr := (hquiet r).1.log
  have hq := (hquiet q).1.log
  rw [eventsBefore, eventsBefore, hr, hq, before_quietLog hn, before_quietLog hn']
  exact Event.Alike.refl_list _ _

/-! ## The store on some ranks -/

/-- The ranks that wait in the barrier, but for `u`. -/
def waiting (nranks u : ℕ) (stage : ℕ → Stage) : Finset ℕ :=
  (Finset.range nranks).filter fun q => q ≠ u ∧ stage q = .waitSense true

/-- **Nobody leaves the barrier** while rank `u` is not attached. -/
structure Blocked (s : State cfg) (u : ℕ) : Prop where
  sense : s.barrierSense = false
  count : s.barrierCount ≤ (waiting cfg.nranks u s.stage).card
  stages : ∀ q, (s.stage q).inBarrier = true → s.attached q = true ∧
    (s.stage q = .enterBarrier ∨ s.stage q = .arrive true ∨ s.stage q = .waitSense true)

theorem waiting_update {nranks u r : ℕ} {stage : ℕ → Stage} (h : stage r ≠ .waitSense true)
    {next : Stage} (hnext : next ≠ .waitSense true) :
    waiting nranks u (Function.update stage r next) = waiting nranks u stage := by
  apply Finset.filter_congr
  intro q _
  by_cases hq : q = r
  · subst hq
    simp [h, hnext]
  · rw [Function.update_of_ne hq]

/-- One more rank waits; it and `u` had not been waiting. -/
theorem card_waiting_arrive {nranks u r : ℕ} {stage : ℕ → Stage} (hu : u < nranks)
    (hr : r < nranks) (hne : r ≠ u) (h : stage r ≠ .waitSense true) :
    (waiting nranks u stage).card + 1 =
        (waiting nranks u (Function.update stage r (.waitSense true))).card ∧
      (waiting nranks u stage).card + 1 < nranks := by
  have hinsert : waiting nranks u (Function.update stage r (.waitSense true)) =
      insert r (waiting nranks u stage) := by
    ext q
    rw [Finset.mem_insert, waiting, waiting, Finset.mem_filter, Finset.mem_filter]
    by_cases hq : q = r
    · subst hq
      simp [Finset.mem_range.2 hr, hne]
    · simp [hq]
  have hnot : r ∉ waiting nranks u stage := by
    intro hmem
    exact h (Finset.mem_filter.1 hmem).2.2
  have hcard : (waiting nranks u stage).card + 1 =
      (waiting nranks u (Function.update stage r (.waitSense true))).card := by
    rw [hinsert, Finset.card_insert_of_notMem hnot]
  refine ⟨hcard, ?_⟩
  rw [hcard]
  have hsub : waiting nranks u (Function.update stage r (.waitSense true)) ⊆
      (Finset.range nranks).erase u := by
    intro q hq
    rw [waiting, Finset.mem_filter] at hq
    exact Finset.mem_erase.2 ⟨hq.2.1, hq.1⟩
  have hle := Finset.card_le_card hsub
  rw [Finset.card_erase_of_mem (Finset.mem_range.2 hu), Finset.card_range] at hle
  omega

omit [FloorSemiring K] in
/-- A step that moves one rank, from and to a place where it does not wait. -/
theorem Blocked.move {s s' : State cfg} {u r : ℕ} (h : Blocked s u) {next : Stage}
    (hsense : s'.barrierSense = false) (hcount : s'.barrierCount ≤ s.barrierCount)
    (hstage : s'.stage = Function.update s.stage r next)
    (hattached : ∀ q, s.attached q = true → s'.attached q = true)
    (hr : s.stage r ≠ .waitSense true) (hnext : next ≠ .waitSense true)
    (hin : next.inBarrier = true → s'.attached r = true ∧
      (next = .enterBarrier ∨ next = .arrive true)) : Blocked s' u := by
  refine ⟨hsense, ?_, ?_⟩
  · rw [hstage, waiting_update hr hnext]
    exact hcount.trans h.count
  · intro q hq
    rw [hstage] at hq ⊢
    by_cases hqr : q = r
    · subst hqr
      rw [Function.update_self] at hq ⊢
      obtain ⟨hat, hplace | hplace⟩ := hin hq
      · exact ⟨hat, .inl hplace⟩
      · exact ⟨hat, .inr (.inl hplace)⟩
    · rw [Function.update_of_ne hqr] at hq ⊢
      exact ⟨hattached q (h.stages q hq).1, (h.stages q hq).2⟩

omit [FloorSemiring K] in
/-- A step that moves nobody. -/
theorem Blocked.same {s s' : State cfg} {u : ℕ} (h : Blocked s u)
    (hsense : s'.barrierSense = false) (hcount : s'.barrierCount ≤ s.barrierCount)
    (hstage : s'.stage = s.stage) (hattached : ∀ q, s.attached q = true → s'.attached q = true) :
    Blocked s' u := by
  refine ⟨hsense, ?_, ?_⟩
  · rw [hstage]
    exact hcount.trans h.count
  · intro q hq
    rw [hstage] at hq ⊢
    exact ⟨hattached q (h.stages q hq).1, (h.stages q hq).2⟩

omit [FloorSemiring K] in
/-- Attaching leaves the words of the barrier or sets them to zero. -/
theorem ensure_barrier (s : State cfg) (r : ℕ) (ok : Bool) (hsense : s.barrierSense = false) :
    (s.ensureShmAttached r ok).barrierSense = false ∧
      (s.ensureShmAttached r ok).barrierCount ≤ s.barrierCount ∧
      ∀ q, s.attached q = true → (s.ensureShmAttached r ok).attached q = true := by
  rcases ensureShmAttached_cases s r ok with heq | heq
  · rw [heq]
    exact ⟨hsense, le_refl _, fun _ hq => hq⟩
  · rw [heq]
    refine ⟨?_, ?_, ?_⟩
    · simp only [State.attach, hsense, ite_self]
    · show (if _ then 0 else s.barrierCount) ≤ s.barrierCount
      split
      · exact Nat.zero_le _
      · exact le_refl _
    · intro q hq
      by_cases hqr : q = r
      · subst hqr
        simp [State.attach]
      · rwa [attach_other hqr]

theorem Blocked.host {s s' : State cfg} {u r : ℕ} (hu : u < cfg.nranks) (hr : r < cfg.nranks)
    (h : Blocked s u) (hnot : s.attached u = false) (hstep : hostStep s r = some s') :
    Blocked s' u := by
  cases hstage : s.stage r with
  | idle | round => simp [hostStep, hstage] at hstep
  | meet =>
    simp only [hostStep, hstage, Option.some.injEq] at hstep
    subst hstep
    refine h.move h.sense (le_refl _) rfl (fun _ hq => hq) (by rw [hstage]; simp) ?_ ?_
    · split <;> simp
    · intro hin
      by_cases hat : s.attached r = true
      · rw [if_pos hat]
        exact ⟨hat, .inl rfl⟩
      · rw [if_neg hat] at hin
        cases hin
  | enterBarrier =>
    simp only [hostStep, hstage, Option.some.injEq] at hstep
    subst hstep
    have hat := (h.stages r (by rw [hstage]; rfl)).1
    refine h.move h.sense (le_refl _) rfl (fun _ hq => hq) (by rw [hstage]; simp) (by simp) ?_
    rw [h.sense]
    exact fun _ => ⟨hat, .inr rfl⟩
  | arrive mySense =>
    obtain ⟨hat, hplace⟩ := h.stages r (by rw [hstage]; rfl)
    have hmine : mySense = true := by
      rw [hstage] at hplace
      rcases hplace with hplace | hplace | hplace
      · cases hplace
      · exact Stage.arrive.inj hplace
      · cases hplace
    have hne : r ≠ u := by
      rintro rfl
      rw [hnot] at hat
      cases hat
    obtain ⟨hcard, hlt⟩ := card_waiting_arrive hu hr hne
      (show s.stage r ≠ .waitSense true by rw [hstage]; simp)
    have hcount := h.count
    have hbound := cfg.nranks_lt
    have hsmall : (s.barrierCount + 1) % 2 ^ 32 = s.barrierCount + 1 :=
      Nat.mod_eq_of_lt (by omega)
    have hnotlast : s.barrierCount + 1 ≠ cfg.nranks := by omega
    simp only [hostStep, hstage, hsmall, if_neg hnotlast, Option.some.injEq, hmine] at hstep
    subst hstep
    refine ⟨h.sense, ?_, ?_⟩
    · show s.barrierCount + 1 ≤ (waiting cfg.nranks u (Function.update s.stage r _)).card
      omega
    · intro q hq
      by_cases hqr : q = r
      · subst hqr
        exact ⟨hat, .inr (.inr (Function.update_self q _ _))⟩
      · have hself : Function.update s.stage r (.waitSense true) q = s.stage q :=
          Function.update_of_ne hqr _ _
        show s.attached q = true ∧ (Function.update s.stage r _ q = _ ∨
          Function.update s.stage r _ q = _ ∨ Function.update s.stage r _ q = _)
        rw [hself]
        exact h.stages q (hself ▸ hq)
  | resetCount | raiseSense =>
    have hplace := (h.stages r (by rw [hstage]; rfl)).2
    rw [hstage] at hplace
    rcases hplace with hplace | hplace | hplace <;> cases hplace
  | waitSense mySense =>
    have hplace := (h.stages r (by rw [hstage]; rfl)).2
    rw [hstage] at hplace
    rcases hplace with hplace | hplace | hplace
    · cases hplace
    · cases hplace
    · rw [Stage.waitSense.inj hplace] at hstage
      simp [hostStep, hstage, h.sense] at hstep
  | lookup =>
    simp only [hostStep, hstage, Option.some.injEq] at hstep
    subst hstep
    exact h.move h.sense (le_refl _) rfl (fun _ hq => hq) (by rw [hstage]; simp) (by simp)
      fun h => by cases h
  | suggest used =>
    simp only [hostStep, hstage, Option.some.injEq] at hstep
    subst hstep
    exact h.move h.sense (le_refl _) rfl (fun _ hq => hq) (by rw [hstage]; simp) (by simp)
      fun h => by cases h
  | launching plan =>
    simp only [hostStep, hstage, Option.some.injEq] at hstep
    subst hstep
    exact h.move h.sense (le_refl _) rfl (fun _ hq => hq) (by rw [hstage]; simp) (by simp)
      fun h => by cases h

theorem Blocked.step {s s' : State cfg} {l : Label K} {u : ℕ} (hu : u < cfg.nranks)
    (h : Blocked s u) (hnot : s.attached u = false) (hstep : Local.step s l = some s') :
    Blocked s' u := by
  unfold Local.step at hstep
  split at hstep
  · next hr =>
    cases l with
    | enter r ok =>
      dsimp only at hstep
      split at hstep
      · next hidle =>
        cases hstep
        obtain ⟨hsense, hcount, hattached⟩ := ensure_barrier s r ok h.sense
        have hstage : ((s.ensureShmAttached r ok).goto r .round).stage =
            Function.update s.stage r .round := by
          rw [State.goto, (ensure_keeps s r ok r).2.1]
        exact h.move hsense hcount hstage hattached (by rw [hidle]; nofun) nofun nofun
      · cases hstep
    | round r aggregate entries =>
      dsimp only at hstep
      split at hstep
      · next hround =>
        cases hstep
        unfold roundStep
        split
        · exact h.move h.sense (le_refl _) rfl (fun _ hq => hq) (by rw [hround]; nofun) nofun nofun
        · exact h.move h.sense (le_refl _) rfl (fun _ hq => hq) (by rw [hround]; nofun) nofun nofun
      · cases hstep
    | host r => exact h.host hu hr hnot hstep
    | complete r i fastTime pcieTime ok =>
      obtain ⟨p, -, rfl⟩ := Option.map_eq_some_iff.1 hstep
      set t : State cfg :=
        { s with pending := Function.update s.pending r ((s.pending r).eraseIdx i) }
      obtain ⟨hsense, hcount, hattached⟩ := ensure_barrier t r ok h.sense
      have hstage := (ensure_keeps t r ok r).2.1
      have hblocked : Blocked (t.ensureShmAttached r ok) u := h.same hsense hcount hstage hattached
      dsimp only
      split
      · exact hblocked
      · split
        · exact hblocked
        · exact hblocked.same hblocked.sense (le_refl _) rfl fun _ hq => hq
    | update r i =>
      obtain ⟨sample, -, rfl⟩ := Option.map_eq_some_iff.1 hstep
      exact h.same h.sense (le_refl _) rfl fun _ hq => hq
  · cases hstep

omit [FloorSemiring K] in
theorem Blocked.start (headerValid : Bool) (u : ℕ) : Blocked (initial cfg headerValid) u :=
  ⟨rfl, Nat.zero_le _, fun _ (h : false = true) => by cases h⟩

/-- The rank has not come out of the barrier of its next collective. -/
def Stage.beforePlan : Stage → Bool
  | .idle | .round | .meet => true
  | stage => stage.inBarrier

/-- The rank is attached and on its way to the barrier. -/
structure Held (s : State cfg) (r : ℕ) (plans : List Plan) : Prop where
  attached : s.attached r = true
  stage : (s.stage r).beforePlan = true
  plans : s.plans r = plans

theorem held_host {s s' : State cfg} {u r : ℕ} {plans : List Plan} (hblocked : Blocked s u)
    (h : Held s r plans) (hstep : hostStep s r = some s') :
    (s'.stage r).beforePlan = true ∧ s'.plans r = plans := by
  have hgoto : ∀ next, (s.goto r next).stage r = next := fun next => Function.update_self r _ _
  have hbefore := h.stage
  cases hstage : s.stage r with
  | idle | round => simp [hostStep, hstage] at hstep
  | meet =>
    simp only [hostStep, hstage, h.attached, if_true, Option.some.injEq] at hstep
    subst hstep
    rw [hgoto]
    exact ⟨rfl, h.plans⟩
  | enterBarrier =>
    simp only [hostStep, hstage, Option.some.injEq] at hstep
    subst hstep
    rw [hgoto]
    exact ⟨rfl, h.plans⟩
  | arrive mySense =>
    simp only [hostStep, hstage, Option.some.injEq] at hstep
    subst hstep
    refine ⟨?_, h.plans⟩
    show ((s.goto r _).stage r).beforePlan = true
    rw [hgoto]
    split <;> rfl
  | resetCount | raiseSense =>
    have hplace := (hblocked.stages r (by rw [hstage]; rfl)).2
    rw [hstage] at hplace
    rcases hplace with hplace | hplace | hplace <;> cases hplace
  | waitSense mySense =>
    have hplace := (hblocked.stages r (by rw [hstage]; rfl)).2
    rw [hstage] at hplace
    rcases hplace with hplace | hplace | hplace
    · cases hplace
    · cases hplace
    · rw [Stage.waitSense.inj hplace] at hstage
      simp [hostStep, hstage, hblocked.sense] at hstep
  | lookup | suggest | launching =>
    rw [hstage] at hbefore
    cases hbefore

theorem Held.step {s s' : State cfg} {l : Label K} {u r : ℕ} {plans : List Plan}
    (hblocked : Blocked s u) (h : Held s r plans) (hstep : Local.step s l = some s') :
    Held s' r plans := by
  by_cases hself : r = l.rank
  · subst hself
    have hattached : s'.attached l.rank = true := by
      by_contra hnot
      have hbefore := attached_of_step hstep (Bool.eq_false_iff.2 hnot)
      rw [h.attached] at hbefore
      cases hbefore
    unfold Local.step at hstep
    split at hstep
    · cases l with
      | enter r ok =>
        dsimp only at hstep
        split at hstep
        · cases hstep
          refine ⟨hattached, ?_, ?_⟩
          · show (Function.update (s.ensureShmAttached r ok).stage r .round r).beforePlan = true
            rw [Function.update_self]
            rfl
          · exact (ensure_keeps s r ok r).1.plans.trans h.plans
        · cases hstep
      | round r aggregate entries =>
        dsimp only at hstep
        split at hstep
        · cases hstep
          have hstage : (roundStep s r aggregate entries).stage r = .meet := by
            unfold roundStep
            split <;> exact Function.update_self r _ _
          have hplans : (roundStep s r aggregate entries).plans = s.plans := by
            unfold roundStep
            split <;> rfl
          refine ⟨hattached, ?_, ?_⟩
          · show ((roundStep s r aggregate entries).stage r).beforePlan = true
            rw [hstage]
            rfl
          · exact (congrFun hplans r).trans h.plans
        · cases hstep
      | host r =>
        obtain ⟨hstage, hplans⟩ := held_host hblocked h hstep
        exact ⟨hattached, hstage, hplans⟩
      | complete r i fastTime pcieTime ok =>
        obtain ⟨hkeeps, hstage, -⟩ := complete_keeps hstep r
        refine ⟨hattached, ?_, hkeeps.plans.trans h.plans⟩
        show (s'.stage r).beforePlan = true
        rw [hstage]
        exact h.stage
      | update r i =>
        obtain ⟨sample, -, rfl⟩ := Option.map_eq_some_iff.1 hstep
        exact ⟨hattached, h.stage, h.plans⟩
    · cases hstep
  · have hapart := step_apart hstep hself
    refine ⟨hapart.attached.trans h.attached, ?_, hapart.keeps.plans.trans h.plans⟩
    rw [hapart.stage]
    exact h.stage

/-- **A rank that is attached waits for the others:** as long as some rank is not attached, it
computes no further plan. -/
theorem attached_waits (cfg : Setup K) (headerValid : Bool) {labels labels' : List (Label K)}
    {s s' : State cfg} {r u : ℕ} (hu : u < cfg.nranks)
    (hrun : (machine cfg).runFrom Machine.anyStep (initial cfg headerValid) labels = some s)
    (hrun' : (machine cfg).runFrom Machine.anyStep s labels' = some s')
    (hattached : s.attached r = true) (hstage : (s.stage r).beforePlan = true)
    (hnot : s'.attached u = false) : s'.plans r = s.plans r := by
  have hblocked : s.attached u = false → Blocked s u :=
    (machine cfg).invariant (I := fun s => s.attached u = false → Blocked s u)
      (fun _ _ _ hs _ hstep hnot => (hs (attached_of_step hstep hnot)).step hu
        (attached_of_step hstep hnot) hstep)
      (fun _ => Blocked.start headerValid u) hrun
  have hheld := (machine cfg).invariant
    (I := fun t => t.attached u = false → Blocked t u ∧ Held t r (s.plans r))
    (fun t l t' ht _ hstep hnot => by
      have hbefore := attached_of_step hstep hnot
      obtain ⟨hb, hh⟩ := ht hbefore
      exact ⟨hb.step hu hbefore hstep, hh.step hb hstep⟩)
    (fun hnot => ⟨hblocked hnot, hattached, hstage, rfl⟩) hrun' hnot
  exact hheld.2.plans

/-- A step leaves the attachment of every other rank. -/
theorem run_attached {s s' : State cfg} {labels : List (Label K)} {r u : ℕ} (hne : u ≠ r)
    (hlabels : ∀ l ∈ labels, Label.rank l = r)
    (hrun : (machine cfg).runFrom Machine.anyStep s labels = some s') :
    s'.attached u = s.attached u := by
  induction labels generalizing s with
  | nil =>
    cases hrun
    rfl
  | cons l labels ih =>
    obtain ⟨-, t, hstep, hrest⟩ := (machine cfg).runFrom_cons_eq_some.1 hrun
    have hl : u ≠ l.rank := by
      rw [hlabels l List.mem_cons_self]
      exact hne
    have htail := ih (fun l' hl' => hlabels l' (List.mem_cons_of_mem l hl')) hrest
    exact htail.trans (step_apart hstep hl).attached

/-- **A store attached on only some ranks:** where a rank is attached and has not come out of the
barrier, and another is not attached, the ranks do not go on by themselves. -/
theorem not_agree (cfg : Setup K) (headerValid : Bool) {labels : List (Label K)} {s : State cfg}
    {r u : ℕ} (hr : r < cfg.nranks) (hu : u < cfg.nranks)
    (hrun : (machine cfg).runFrom Machine.anyStep (initial cfg headerValid) labels = some s)
    (hattached : s.attached r = true) (hstage : (s.stage r).beforePlan = true)
    (hnot : s.attached u = false) : ¬ Agree s := by
  intro hagree
  obtain ⟨labels', s', hlabels, hrun', hlen⟩ := hagree.goesOn r hr
  have hne : u ≠ r := by
    rintro rfl
    rw [hattached] at hnot
    cases hnot
  have hsame := attached_waits cfg headerValid hu hrun hrun' hattached hstage
    ((run_attached hne hlabels hrun').trans hnot)
  rw [hsame] at hlen
  omega

end Local
end Feedback
end Orchestrator
end HyLink
