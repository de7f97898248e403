import HyLink.Memory.Creator

/-!
# Who succeeds is attached

The steps of the joiners, the calls that fail and the steps of the barrier keep
the invariant of a run of `ProcessState::initialize`.

* `Bootstrap.Local` — a step that is the business of one process.
* `Bootstrap.Inv.step` — the invariant is kept.
* `Bootstrap.initialize_attached` — whoever succeeds works on the state and the
  host buffers of this run's creator, nothing is read before it was initialised,
  and nothing is initialised under somebody who has arrived.
* `Bootstrap.leftover_attached` — a joiner that opens the segment of a crashed
  run passes the barrier its dead processes left one short.
-/

namespace HyLink
namespace Memory
namespace Bootstrap

open Function (update)

variable {cfg : Config} {s s' : State}

/-! ## Steps of a joiner, and calls that fail -/

/-- A step of process `p` that leaves the segments and the other processes alone. -/
structure Local (s s' : State) (p : ℕ) : Prop where
  others : ∀ q, q ≠ p → s'.process q = s.process q
  stateName : s'.stateName = s.stateName
  bootstrapName : s'.bootstrapName = s.bootstrapName
  state : s'.state = s.state
  words : s'.words = s.words
  sized : ∀ r, (s'.bootstrap r).sized = (s.bootstrap r).sized
  cleared : ∀ r, (s'.bootstrap r).cleared = (s.bootstrap r).cleared
  expected : ∀ r, (s'.bootstrap r).expectedJoiners = (s.bootstrap r).expectedJoiners
  sizes : ∀ r, (s'.bootstrap r).hostSizes = (s.bootstrap r).hostSizes
  received : (s'.process p).received = (s.process p).received
  before : (s.process p).pc.past = false
  succeeds : (s'.process p).pc ≠ .succeeded

theorem Local.goto {p : ℕ} {pc : Pc} (hbefore : (s.process p).pc.past = false)
    (hpc : pc ≠ .succeeded) : Local s (s.goto p pc) p where
  others q hq := by simp [hq]
  stateName := rfl
  bootstrapName := rfl
  state := rfl
  words := rfl
  sized _ := rfl
  cleared _ := rfl
  expected _ := rfl
  sizes _ := rfl
  received := by simp
  before := hbefore
  succeeds := by simpa using hpc

theorem Local.setProcess {p : ℕ} {x : Process} (hbefore : (s.process p).pc.past = false)
    (hreceived : x.received = (s.process p).received) (hpc : x.pc ≠ .succeeded) :
    Local s (s.setProcess p x) p where
  others q hq := by simp [hq]
  stateName := rfl
  bootstrapName := rfl
  state := rfl
  words := rfl
  sized _ := rfl
  cleared _ := rfl
  expected _ := rfl
  sizes _ := rfl
  received := by simpa using hreceived
  before := hbefore
  succeeds := by simpa using hpc

theorem local_runJoiner {p : ℕ} (hstep : runJoiner cfg s p = some s') : Local s s' p := by
  cases hpc : (s.process p).pc with
  | openState | openBootstrap =>
    simp only [runJoiner, hpc, Option.map_eq_some_iff] at hstep
    obtain ⟨r, -, rfl⟩ := hstep
    exact .goto (by rw [hpc]; rfl) (by simp)
  | attachState r | attachBootstrap r =>
    simp only [runJoiner, hpc, Option.some.injEq] at hstep
    subst hstep
    exact .setProcess (by rw [hpc]; rfl) rfl (by simp)
  | loadReady =>
    simp only [runJoiner, hpc, Option.map_eq_some_iff] at hstep
    obtain ⟨r, -, rfl⟩ := hstep
    exact .goto (by rw [hpc]; rfl) (by split_ifs <;> simp)
  | connect =>
    simp only [runJoiner, hpc, Option.map_eq_some_iff] at hstep
    obtain ⟨queue, -, rfl⟩ := hstep
    have hgoto : Local s (s.goto p .receiveFds) p := .goto (by rw [hpc]; rfl) (by simp)
    exact ⟨hgoto.others, rfl, rfl, rfl, rfl, fun _ => rfl, fun _ => rfl, fun _ => rfl, fun _ => rfl,
      hgoto.received, hgoto.before, hgoto.succeeds⟩
  | receiveFds =>
    simp only [runJoiner, hpc, Option.ite_none_right_eq_some, Option.some.injEq] at hstep
    obtain ⟨-, rfl⟩ := hstep
    exact .goto (by rw [hpc]; rfl) (by simp)
  | mapHost numa =>
    simp only [runJoiner, hpc, Option.map_eq_some_iff] at hstep
    obtain ⟨r, -, hs'⟩ := hstep
    by_cases hlt : numa < cfg.numNuma
    · rw [if_pos hlt] at hs'
      subst hs'
      exact .setProcess (by rw [hpc]; rfl) rfl (by simp)
    · rw [if_neg hlt] at hs'
      subst hs'
      have hgoto : Local s (s.goto p .barrier) p := .goto (by rw [hpc]; rfl) (by simp)
      refine ⟨hgoto.others, rfl, rfl, rfl, rfl, ?_, ?_, ?_, ?_, hgoto.received, hgoto.before,
        hgoto.succeeds⟩
      all_goals
        intro r'
        by_cases hr : r' = r <;> simp [hr]
  | _ => simp [runJoiner, hpc] at hstep

/-- A call that fails is the business of one process, the bootstrap segment of the creator
apart. -/
theorem local_fail {p : ℕ} (hguard : joinsLate s (.fail p) = true)
    (hstep : fail s p = some s') : Local s s' p ∧ s'.server = s.server := by
  cases hpc : (s.process p).pc with
  | createState | sizeState | mapState | openState | attachState r =>
    simp only [fail, hpc, Option.some.injEq] at hstep
    subst hstep
    exact ⟨.setProcess (by rw [hpc]; rfl) rfl (by simp), rfl⟩
  | createBootstrap | sizeBootstrap | mapBootstrap => simp [joinsLate, hpc] at hguard
  | openBootstrap | attachBootstrap r | allocate numa | createFdServer | serveFds served | connect
  | receiveFds | mapHost numa =>
    simp only [fail, hpc, Option.some.injEq] at hstep
    subst hstep
    exact ⟨.goto (by rw [hpc]; rfl) (by simp), rfl⟩
  | _ => simp [fail, hpc] at hstep

theorem Local.receivers {p : ℕ} (h : Local s s' p) : s'.receivers cfg = s.receivers cfg :=
  receivers_step p h.received h.others

/-- The invariant after a step of a joiner. -/
theorem Inv.local_ {p : ℕ} (h : Inv cfg s) (hloc : Local s s' p) (hp0 : p ≠ 0)
    (hjoiner : p < cfg.nranks → Joiner cfg p (s.state .this).cleared (s.bootstrap .this).cleared
      (s'.process p))
    (hqueue : ∀ queue, s'.server = some queue → Queue cfg s'.process queue)
    (hapart : (s'.process p).place ≠ some (.segment .earlier)) : Inv cfg s' := by
  have hcreator : s'.process 0 = s.process 0 := hloc.others 0 (Ne.symm hp0)
  refine ⟨by rw [hcreator]; exact h.creates, ?_, ?_, ?_, fun q hq hq0 => ?_, hqueue, ?_,
    fun q => ?_⟩
  · rw [hloc.stateName, hloc.state, hcreator]
    exact h.stateBuilt
  · obtain ⟨hcleared, hbuilding, hcreated, hsized⟩ := h.bootstrapBuilt
    rw [hloc.bootstrapName, hcreator]
    constructor <;> simpa only [hloc.cleared, hloc.sized]
  · obtain ⟨hplace, hexpected, hallocated, hserves, hserved, hsizes, happly⟩ := h.serving
    rw [hcreator, hloc.receivers]
    constructor <;> simpa only [hloc.expected, hloc.sizes]
  · rw [hloc.state, hloc.cleared]
    by_cases hqp : q = p
    · subst hqp
      exact hjoiner hq
    · rw [hloc.others q hqp]
      exact h.joiner q hq hq0
  · exact h.meets.before hloc.before hloc.succeeds hloc.words (by rw [hcreator]; exact id)
      fun q hq => by rw [hloc.others q hq]; exact ⟨rfl, rfl⟩
  · by_cases hqp : q = p
    · subst hqp
      exact hapart
    · rw [hloc.others q hqp]
      exact h.apart q

theorem Joiner.cleared {p : ℕ} {a b : Bool} {x : Process} (h : Joiner cfg p a b x)
    (hpc : x.pc ≠ .openState) : a = true := by
  by_contra hno
  exact hpc (h.waits (by simpa using hno))

/-- A joiner that has not connected has not got the descriptors. -/
theorem Joiner.early {p : ℕ} {a b : Bool} {x x' : Process} (h : Joiner cfg p a b x)
    (hpc : x.pc.connected = false) (ha : a = true) (hreceived : x'.received = x.received)
    (hplace : ∀ place, x'.place = some place →
      place = .heap p ∨ place = .segment .this ∧ a = true)
    (hbootstrap : ∀ r, x'.bootstrap = some r → r = .this ∧ b = true)
    (hstate : ∀ r, x'.pc = .attachState r → r = .this)
    (hattach : ∀ r, x'.pc = .attachBootstrap r → r = .this ∧ b = true)
    (hmap : ∀ k, x'.pc ≠ .mapHost k) : Joiner cfg p a b x' := by
  have hno : x'.received ≠ true := fun hrec => by
    have hc := h.received (hreceived ▸ hrec)
    rw [hpc] at hc
    cases hc
  exact ⟨fun hf => absurd (ha.symm.trans hf) (by simp), fun r hr => ⟨hstate r hr, ha⟩, hplace,
    hattach, hbootstrap, fun hrec => absurd hrec hno, fun k hk => absurd hk (hmap k),
    fun hrec => absurd hrec hno⟩

/-- A joiner that has connected keeps what it is attached to. -/
theorem Joiner.late {p : ℕ} {a b : Bool} {x x' : Process} (h : Joiner cfg p a b x)
    (hpc : x.pc.connected = true) (hplace : x'.place = x.place)
    (hbootstrap : x'.bootstrap = x.bootstrap) (hconnected : x'.pc.connected = true)
    (hmapped : ∀ k, x'.pc = .mapHost k → x'.received = true ∧
      ∀ numa < k, x'.pool numa = some (cfg.poolSize 0))
    (hpooled : x'.received = true → x'.pc.past = true →
      ∀ numa < cfg.numNuma, x'.pool numa = some (cfg.poolSize 0)) : Joiner cfg p a b x' := by
  have ha : a = true := h.cleared fun hopen => by rw [hopen] at hpc; cases hpc
  refine ⟨fun hf => absurd (ha.symm.trans hf) (by simp), fun r hr => ?_, ?_, fun r hr => ?_, ?_,
    fun _ => hconnected, hmapped, hpooled⟩
  · rw [hr] at hconnected
    cases hconnected
  · rw [hplace]
    exact h.place
  · rw [hr] at hconnected
    cases hconnected
  · rw [hbootstrap]
    exact h.bootstrap

/-- A joiner's step: it leaves its loops late, and whoever has the descriptors finds the creator's
sizes. -/
theorem joiner_runJoiner {p : ℕ} (h : Inv cfg s) (hp : p < cfg.nranks) (hp0 : p ≠ 0)
    (hguard : joinsLate s (.run p) = true) (hstep : runJoiner cfg s p = some s') :
    Joiner cfg p (s.state .this).cleared (s.bootstrap .this).cleared (s'.process p) := by
  have hj := h.joiner p hp hp0
  cases hpc : (s.process p).pc with
  | openState =>
    simp only [joinsLate, hpc] at hguard
    have hname := (h.stateBuilt.cleared hguard).1
    simp only [runJoiner, hpc, hname, Option.map_some, Option.some.injEq] at hstep
    subst hstep
    exact hj.early (by rw [hpc]; rfl) hguard (by simp) (by simpa using hj.place)
      (by simpa using hj.bootstrap) (by simp) (by simp) (by simp)
  | attachState r =>
    obtain ⟨rfl, hcleared⟩ := hj.attachState r hpc
    simp only [runJoiner, hpc, Option.some.injEq] at hstep
    subst hstep
    exact hj.early (by rw [hpc]; rfl) hcleared (by simp) (by simp [hcleared])
      (by simpa using hj.bootstrap) (by simp) (by simp) (by simp)
  | openBootstrap =>
    simp only [joinsLate, hpc] at hguard
    have hname := (h.bootstrapBuilt.cleared hguard).1
    have hcleared := hj.cleared (by rw [hpc]; simp)
    simp only [runJoiner, hpc, hname, Option.map_some, Option.some.injEq] at hstep
    subst hstep
    exact hj.early (by rw [hpc]; rfl) hcleared (by simp) (by simpa using hj.place)
      (by simpa using hj.bootstrap) (by simp) (by simp [hguard]) (by simp)
  | attachBootstrap r =>
    obtain ⟨rfl, hboot⟩ := hj.attachBootstrap r hpc
    have hcleared := hj.cleared (by rw [hpc]; simp)
    simp only [runJoiner, hpc, Option.some.injEq] at hstep
    subst hstep
    exact hj.early (by rw [hpc]; rfl) hcleared (by simp) (by simpa using hj.place)
      (by simp [hboot]) (by simp) (by simp) (by simp)
  | loadReady =>
    have hcleared := hj.cleared (by rw [hpc]; simp)
    simp only [runJoiner, hpc, Option.map_eq_some_iff] at hstep
    obtain ⟨r, -, rfl⟩ := hstep
    exact hj.early (by rw [hpc]; rfl) hcleared (by simp) (by simpa using hj.place)
      (by simpa using hj.bootstrap) (by simp; split_ifs <;> simp) (by simp; split_ifs <;> simp)
      (by simp; split_ifs <;> simp)
  | connect =>
    have hcleared := hj.cleared (by rw [hpc]; simp)
    simp only [runJoiner, hpc, Option.map_eq_some_iff] at hstep
    obtain ⟨queue, -, rfl⟩ := hstep
    exact hj.early (by rw [hpc]; rfl) hcleared (by simp) (by simpa using hj.place)
      (by simpa using hj.bootstrap) (by simp) (by simp) (by simp)
  | receiveFds =>
    simp only [runJoiner, hpc, Option.ite_none_right_eq_some, Option.some.injEq] at hstep
    obtain ⟨hrec, rfl⟩ := hstep
    refine hj.late (by rw [hpc]; rfl) (by simp) (by simp) (by simp [Pc.connected]) ?_
      (by simp [Pc.past])
    intro k hk
    have hk0 : 0 = k := by simpa using hk
    exact ⟨by simpa using hrec, fun numa hlt => by omega⟩
  | mapHost numa =>
    obtain ⟨hrec, hpool⟩ := hj.mapped numa hpc
    simp only [runJoiner, hpc, Option.map_eq_some_iff] at hstep
    obtain ⟨r, hr, hs'⟩ := hstep
    obtain ⟨rfl, -⟩ := hj.bootstrap r hr
    by_cases hlt : numa < cfg.numNuma
    · obtain ⟨hpos, hsize⟩ := h.serving.sizes (receivers_pos hp hrec) numa hlt
      rw [if_pos hlt, hsize, if_neg hpos.ne'] at hs'
      subst hs'
      refine hj.late (by rw [hpc]; rfl) (by simp) (by simp) (by simp [Pc.connected]) ?_
        (by simp [Pc.past])
      intro k hk
      have hk' : numa + 1 = k := by simpa using hk
      refine ⟨by simpa using hrec, fun j hjk => ?_⟩
      by_cases hjn : j = numa
      · subst hjn
        simp
      · simpa [hjn] using hpool j (by omega)
    · rw [if_neg hlt] at hs'
      subst hs'
      refine hj.late (by rw [hpc]; rfl) (by simp) (by simp) (by simp [Pc.connected]) (by simp) ?_
      intro _ _ j hlt'
      simpa using hpool j (by omega)
  | _ => simp [runJoiner, hpc] at hstep

theorem queue_runJoiner {p : ℕ} (h : Inv cfg s) (hp : p < cfg.nranks) (hp0 : p ≠ 0)
    (hstep : runJoiner cfg s p = some s') :
    ∀ queue, s'.server = some queue → Queue cfg s'.process queue := by
  have hloc := local_runJoiner hstep
  have hj := h.joiner p hp hp0
  -- a joiner in the queue waits for the descriptors
  have hout : ∀ queue, s.server = some queue → p ∉ queue := by
    intro queue hqueue hmem
    obtain ⟨-, -, hrec, hpc | hpc⟩ := (h.queue queue hqueue).waits p hmem <;>
      simp [runJoiner, hpc, hrec] at hstep
  have hkeep : ∀ queue, s.server = some queue → Queue cfg s'.process queue := fun queue hqueue =>
    (h.queue queue hqueue).congr fun q hmem =>
      hloc.others q fun heq => hout queue hqueue (heq ▸ hmem)
  cases hpc : (s.process p).pc with
  | connect =>
    simp only [runJoiner, hpc, Option.map_eq_some_iff] at hstep
    obtain ⟨queue, hqueue, rfl⟩ := hstep
    intro queue' hqueue'
    obtain rfl : queue ++ [p] = queue' := by simpa using hqueue'
    obtain ⟨hnodup, hwaits⟩ := hkeep queue hqueue
    have hrec : (s.process p).received = false := by
      by_contra hrec
      have hc := hj.received (by simpa using hrec)
      rw [hpc] at hc
      cases hc
    refine ⟨List.nodup_append.2 ⟨hnodup, List.nodup_singleton p, ?_⟩, fun q hmem => ?_⟩
    · rintro q hq r hr rfl
      exact hout queue hqueue (List.mem_singleton.1 hr ▸ hq)
    · rcases List.mem_append.1 hmem with hmem | hmem
      · exact hwaits q hmem
      · obtain rfl := List.mem_singleton.1 hmem
        exact ⟨hp0, hp, by simpa using hrec, by simp⟩
  | openState | openBootstrap | loadReady =>
    simp only [runJoiner, hpc, Option.map_eq_some_iff] at hstep
    obtain ⟨r, -, rfl⟩ := hstep
    exact hkeep
  | attachState r | attachBootstrap r =>
    simp only [runJoiner, hpc, Option.some.injEq] at hstep
    subst hstep
    exact hkeep
  | receiveFds =>
    simp only [runJoiner, hpc, Option.ite_none_right_eq_some, Option.some.injEq] at hstep
    obtain ⟨-, rfl⟩ := hstep
    exact hkeep
  | mapHost numa =>
    simp only [runJoiner, hpc, Option.map_eq_some_iff] at hstep
    obtain ⟨r, -, rfl⟩ := hstep
    split at hkeep <;> (rename_i hlt; simp only [hlt, if_true, if_false]; exact hkeep)
  | _ => simp [runJoiner, hpc] at hstep

theorem Inv.runJoiner {p : ℕ} (h : Inv cfg s) (hp : p < cfg.nranks) (hp0 : p ≠ 0)
    (hguard : joinsLate s (.run p) = true) (hstep : runJoiner cfg s p = some s') :
    Inv cfg s' := by
  have hjoiner := joiner_runJoiner h hp hp0 hguard hstep
  refine h.local_ (local_runJoiner hstep) hp0 (fun _ => hjoiner) (queue_runJoiner h hp hp0 hstep)
    fun hplace => ?_
  rcases hjoiner.place _ hplace with hcase | ⟨hcase, -⟩ <;> cases hcase

theorem joiner_fail {p : ℕ} (h : Inv cfg s) (hp : p < cfg.nranks) (hp0 : p ≠ 0)
    (hguard : joinsLate s (.fail p) = true) (hstep : fail s p = some s') :
    Joiner cfg p (s.state .this).cleared (s.bootstrap .this).cleared (s'.process p) := by
  have hj := h.joiner p hp hp0
  cases hpc : (s.process p).pc with
  | openState =>
    simp only [joinsLate, hpc] at hguard
    simp only [fail, hpc, Option.some.injEq] at hstep
    subst hstep
    exact hj.early (by rw [hpc]; rfl) hguard (by simp) (by simp) (by simpa using hj.bootstrap)
      (by simp) (by simp) (by simp)
  | attachState r | createState | sizeState | mapState =>
    simp only [fail, hpc, Option.some.injEq] at hstep
    subst hstep
    exact hj.early (by rw [hpc]; rfl) (hj.cleared (by rw [hpc]; simp)) (by simp) (by simp)
      (by simpa using hj.bootstrap) (by simp) (by simp) (by simp)
  | openBootstrap | attachBootstrap r | connect | allocate numa | createFdServer
  | serveFds served =>
    simp only [fail, hpc, Option.some.injEq] at hstep
    subst hstep
    exact hj.early (by rw [hpc]; rfl) (hj.cleared (by rw [hpc]; simp)) (by simp)
      (by simpa using hj.place) (by simpa using hj.bootstrap) (by simp) (by simp) (by simp)
  | receiveFds | mapHost numa =>
    simp only [fail, hpc, Option.some.injEq] at hstep
    subst hstep
    exact hj.late (by rw [hpc]; rfl) (by simp) (by simp) (by simp [Pc.connected]) (by simp)
      (by simp [Pc.past])
  | createBootstrap | sizeBootstrap | mapBootstrap => simp [joinsLate, hpc] at hguard
  | _ => simp [fail, hpc] at hstep

/-- A call of the creator fails: it falls back to its heap, or gives up. -/
theorem creator_fail (h : Inv cfg s) (hguard : joinsLate s (.fail 0) = true)
    (hstep : fail s 0 = some s') :
    (s'.process 0).pc.joins = false ∧ (s'.process 0).pc.buildsState = false ∧
      StateBuilt s.stateName (s.state .this) (s'.process 0).pc ∧
      BootstrapBuilt s.bootstrapName (s.bootstrap .this) (s'.process 0).pc ∧
      Serving cfg (s'.process 0) (s.bootstrap .this) (s.receivers cfg) := by
  have hserving := h.serving
  have hcreates := h.creates
  cases hpc : (s.process 0).pc with
  | createState | sizeState | mapState =>
    have hcleared := h.bootstrapBuilt.building (by rw [hpc]; rfl)
    simp only [fail, hpc, Option.some.injEq] at hstep
    subst hstep
    refine ⟨by simp [Pc.joins], by simp [Pc.buildsState],
      h.stateBuilt.later (by simp [Pc.buildsState]),
      .uncleared hcleared (by simp) (by simp), ?_⟩
    exact hserving.before (by rw [hpc]; rfl) (by simp) (by simp [Pc.allocated])
      (by simp [Pc.served]) (by simp)
  | createBootstrap | sizeBootstrap | mapBootstrap => simp [joinsLate, hpc] at hguard
  | allocate numa | createFdServer | serveFds served =>
    simp only [fail, hpc, Option.some.injEq] at hstep
    subst hstep
    refine ⟨by simp [Pc.joins], by simp [Pc.buildsState],
      h.stateBuilt.later (by simp [Pc.buildsState]),
      h.bootstrapBuilt.later rfl rfl (by simp [Pc.buildsBootstrap, Pc.buildsState]), ?_⟩
    exact ⟨by simpa using hserving.place, by simp [Pc.allocated], by simp [Pc.allocated], by simp,
      by simp [Pc.served], hserving.sizes, by simpa using hserving.apart⟩
  | openState | attachState r | openBootstrap | attachBootstrap r | connect | receiveFds
  | mapHost numa =>
    rw [hpc] at hcreates
    cases hcreates
  | _ => simp [fail, hpc] at hstep

theorem Inv.fail {p : ℕ} (h : Inv cfg s) (hp : p < cfg.nranks)
    (hguard : joinsLate s (.fail p) = true) (hstep : fail s p = some s') : Inv cfg s' := by
  obtain ⟨hloc, hserver⟩ := local_fail hguard hstep
  by_cases hp0 : p = 0
  · subst hp0
    obtain ⟨hcreates, hbuilds, hstate, hboot, hserving⟩ := creator_fail h hguard hstep
    refine ⟨hcreates, ?_, ?_, ?_, fun q hq hq0 => ?_, fun queue hqueue => ?_, ?_, fun q => ?_⟩
    · rw [hloc.stateName, hloc.state]
      exact hstate
    · obtain ⟨hcleared, hbuilding, hcreated, hsized⟩ := hboot
      rw [hloc.bootstrapName]
      constructor <;> simpa only [hloc.cleared, hloc.sized]
    · rw [hloc.receivers]
      obtain ⟨hplace, hexpected, hallocated, hserves, hserved, hsizes, happly⟩ := hserving
      constructor <;> simpa only [hloc.expected, hloc.sizes]
    · rw [hloc.state, hloc.cleared, hloc.others q hq0]
      exact h.joiner q hq hq0
    · have hq := h.queue queue (hserver ▸ hqueue)
      exact hq.congr fun q hmem => hloc.others q (hq.waits q hmem).1
    · exact h.meets.before hloc.before hloc.succeeds hloc.words (by simp [hbuilds])
        fun q hq => by rw [hloc.others q hq]; exact ⟨rfl, rfl⟩
    · by_cases hq : q = 0
      · subst hq
        intro hplace
        rcases hserving.place _ hplace with hcase | hcase <;> cases hcase
      · rw [hloc.others q hq]
        exact h.apart q
  · have hjoiner := joiner_fail h hp hp0 hguard hstep
    refine h.local_ hloc hp0 (fun _ => hjoiner) (fun queue hqueue => ?_) fun hplace => ?_
    · have hq := h.queue queue (hserver ▸ hqueue)
      refine ⟨hq.nodup, fun q hmem => ?_⟩
      obtain ⟨hq0, hlt, hrec, hpc⟩ := hq.waits q hmem
      by_cases hqp : q = p
      · -- it gives up waiting; its connection stays in the queue
        subst hqp
        refine ⟨hq0, hlt, hloc.received.trans hrec, Or.inr ?_⟩
        rcases hpc with hpc | hpc
        · simp only [Bootstrap.fail, hpc, Option.some.injEq] at hstep
          subst hstep
          simp
        · simp [Bootstrap.fail, hpc] at hstep
      · rw [hloc.others q hqp]
        exact ⟨hq0, hlt, hrec, hpc⟩
    · rcases hjoiner.place _ hplace with hcase | ⟨hcase, -⟩ <;> cases hcase

/-! ## Steps of the barrier -/

/-- Whoever takes a step is one of the parties. -/
theorem party_lt {n start : ℕ} {tr : List Barrier.Event} {w w' : Barrier.State} {l : Barrier.Label}
    (h : Barrier.Inv n start tr w) (hw : Barrier.step n w l = some w') : party l < n := by
  cases l with
  | call p =>
    simp only [Barrier.step] at hw
    split at hw
    · split_ifs at hw with hp
      exact hp
    · cases hw
  | arrive p | reset p | raise p | poll p | spin p | timeout p =>
    simp only [Barrier.step] at hw
    split at hw
    · rename_i g hphase
      exact h.party p (by rw [hphase]; simp)
    · cases hw

theorem entered_party {w : Barrier.State} {l : Barrier.Label} {q g : ℕ}
    (h : Barrier.Event.entered q g ∈ Barrier.events w l) : q = party l := by
  cases l with
  | arrive p =>
    simp only [Barrier.events] at h
    split at h
    · obtain ⟨rfl, -⟩ : q = p ∧ _ := by simpa using h
      rfl
    · cases h
  | call p | reset p | spin p => cases h
  | raise p | timeout p =>
    simp only [Barrier.events] at h
    split at h <;> simp at h
  | poll p =>
    simp only [Barrier.events] at h
    split at h
    · split_ifs at h <;> simp at h
    · cases h

theorem result_true {w : Barrier.State} {l : Barrier.Label}
    (h : result (Barrier.events w l) = some true) :
    ∃ g, Barrier.events w l = [.returned (party l) g true] := by
  cases l with
  | call p | reset p | spin p => cases h
  | arrive p =>
    simp only [Barrier.events] at h
    split at h <;> cases h
  | raise p =>
    simp only [Barrier.events] at h ⊢
    split at h
    · exact ⟨_, rfl⟩
    · cases h
  | poll p =>
    simp only [Barrier.events] at h ⊢
    split at h
    · split_ifs at h ⊢
      · cases h
      · exact ⟨_, rfl⟩
    · cases h
  | timeout p =>
    simp only [Barrier.events] at h
    split at h <;> cases h

/-- A step of the barrier moves one party, and only a wait that times out leaves a mark. -/
theorem phase_barrier {n : ℕ} {w w' : Barrier.State} {l : Barrier.Label}
    (h : Barrier.step n w l = some w') :
    (∀ q, q ≠ party l → w'.phase q = w.phase q) ∧
      ∀ g, w'.phase (party l) = .outside (some g) →
        result (Barrier.events w l) = some false := by
  cases l with
  | call p =>
    simp only [Barrier.step] at h
    split at h
    · split_ifs at h
      cases h
      exact ⟨fun q hq => Function.update_of_ne hq _ _, by simp [party]⟩
    · cases h
  | arrive p =>
    simp only [Barrier.step] at h
    split at h <;> cases h
    refine ⟨fun q hq => Function.update_of_ne hq _ _, fun g hg => ?_⟩
    simp only [party, Function.update_self] at hg
    split_ifs at hg
  | reset p | raise p | spin p =>
    simp only [Barrier.step] at h
    split at h <;> cases h
    exact ⟨fun q hq => Function.update_of_ne hq _ _, by simp [party]⟩
  | poll p =>
    simp only [Barrier.step] at h
    split at h <;> cases h
    refine ⟨fun q hq => Function.update_of_ne hq _ _, fun g hg => ?_⟩
    simp only [party, Function.update_self] at hg
    split_ifs at hg
    cases hg
  | timeout p =>
    simp only [Barrier.step] at h
    split at h
    · rename_i g hg
      cases h
      exact ⟨fun q hq => Function.update_of_ne hq _ _, fun g' hg' => by
        simp only [Barrier.events, hg]
        rfl⟩
    · cases h

theorem afterBarrier_past (r : Option Bool) : (afterBarrier r).past = true := by
  rcases r with _ | _ | _ <;> rfl

theorem Pc.past_cases {pc : Pc} (h : pc.past = true) :
    pc = .barrier ∨ pc = .succeeded ∨ pc = .failed := by
  cases pc <;> simp_all [Pc.past]

theorem meets_barrier (h : Meets cfg s) {l : Barrier.Label} {place : Place} {w : Barrier.State}
    (hpc : (s.process (party l)).pc = .barrier)
    (hplace : (s.process (party l)).place = some place) (hapart : place ≠ .segment .earlier)
    (hbuilt : (s.process 0).pc.buildsState = false)
    (hw : Barrier.step cfg.nranks (s.words place) l = some w) :
    Meets cfg ({ s with words := update s.words place w }.goto (party l)
      (afterBarrier (result (Barrier.events (s.words place) l)))) := by
  obtain ⟨tr, hinv, hentered⟩ := h.entered place hapart
  obtain ⟨hothers, htimed⟩ := phase_barrier hw
  -- a party calls once: it has not timed out before
  have hrejoins : Barrier.rejoinsLater (s.words place) l = true := by
    cases l with
    | call p =>
      simp only [Barrier.rejoinsLater]
      split
      · rename_i g hphase
        have hfailed := h.timedOut place hapart p g hphase
        rw [show (s.process p).pc = .barrier from hpc] at hfailed
        cases hfailed
      · rfl
    | _ => rfl
  have hinv' := hinv.step hrejoins hw
  have hpast : ∀ q, (s.process q).pc.past = true →
      ((({ s with words := update s.words place w } : State).goto (party l)
        (afterBarrier (result (Barrier.events (s.words place) l)))).process q).pc.past = true := by
    intro q hq
    rw [process_goto]
    split_ifs
    · exact afterBarrier_past _
    · exact hq
  have hsame : ∀ q, ((({ s with words := update s.words place w } : State).goto (party l)
      (afterBarrier (result (Barrier.events (s.words place) l)))).process q).place =
      (s.process q).place := by
    intro q
    rw [process_goto]
    split_ifs with hq
    · rw [hq]
    · rfl
  have hin : ∀ q g, Barrier.Event.entered q g ∈ tr ++ Barrier.events (s.words place) l →
      (s.process q).place = some place ∧ (s.process q).pc.past = true := by
    intro q g hq
    rcases List.mem_append.1 hq with hq | hq
    · exact hentered q g hq
    · rw [entered_party hq]
      exact ⟨hplace, by rw [hpc]; rfl⟩
  refine ⟨fun hno => ?_, fun place' hplace' => ?_, fun place' hplace' q g hq => ?_, fun q hq => ?_⟩
  · rw [process_goto] at hno
    split_ifs at hno with hq
    · rcases hr : result (Barrier.events (s.words place) l) with _ | _ | _ <;> rw [hr] at hno <;>
        cases hno
    · rw [show (s.process 0).pc.buildsState = false from hbuilt] at hno
      cases hno
  · by_cases heq : place' = place
    · subst heq
      refine ⟨_, by simpa using hinv', fun q g hq => ?_⟩
      obtain ⟨hat, hp⟩ := hin q g hq
      exact ⟨(hsame q).trans hat, hpast q hp⟩
    · obtain ⟨tr', hinv', hentered'⟩ := h.entered place' hplace'
      refine ⟨tr', by simpa [heq] using hinv', fun q g hq => ?_⟩
      obtain ⟨hat, hp⟩ := hentered' q g hq
      exact ⟨(hsame q).trans hat, hpast q hp⟩
  · by_cases hqp : q = party l
    · subst hqp
      by_cases heq : place' = place
      · subst heq
        have hresult := htimed g (by simpa using hq)
        simp [hresult, afterBarrier]
      · have hfailed := h.timedOut place' hplace' (party l) g (by simpa [heq] using hq)
        rw [hpc] at hfailed
        cases hfailed
    · rw [process_goto, if_neg hqp]
      by_cases heq : place' = place
      · subst heq
        refine h.timedOut place' hplace' q g ?_
        rw [← hothers q hqp]
        simpa using hq
      · exact h.timedOut place' hplace' q g (by simpa [heq] using hq)
  · by_cases hqp : q = party l
    · subst hqp
      have htrue : result (Barrier.events (s.words place) l) = some true := by
        simp only [process_goto, if_pos] at hq
        rcases hr : result (Barrier.events (s.words place) l) with _ | _ | _ <;> rw [hr] at hq <;>
          first | rfl | cases hq
      obtain ⟨g, hevents⟩ := result_true htrue
      refine ⟨place, fun t ht => ?_⟩
      -- the barrier is complete: everybody has entered
      have hall := hinv'.returned tr (party l) g [] (by rw [hevents]) t ht
      obtain ⟨hat, hp⟩ := hentered t g hall
      exact ⟨(hsame t).trans hat, hpast t hp⟩
    · rw [process_goto, if_neg hqp] at hq
      obtain ⟨place', hall⟩ := h.succeeded q hq
      refine ⟨place', fun t ht => ?_⟩
      obtain ⟨hat, hp⟩ := hall t ht
      exact ⟨(hsame t).trans hat, hpast t hp⟩

theorem Inv.barrier {l : Barrier.Label} (h : Inv cfg s)
    (hstep : step cfg s (.barrier l) = some s') : Inv cfg s' := by
  simp only [step, Option.ite_none_right_eq_some, Option.bind_eq_some_iff,
    Option.map_eq_some_iff] at hstep
  obtain ⟨hpc, place, hplace, w, hw, rfl⟩ := hstep
  have hpast := afterBarrier_past (result (Barrier.events (s.words place) l))
  have hapart : place ≠ .segment .earlier := fun heq => h.apart (party l) (heq ▸ hplace)
  obtain ⟨tr, hinv, -⟩ := h.meets.entered place hapart
  have hp : party l < cfg.nranks := party_lt hinv hw
  -- while the creator builds the state, every joiner looks for it
  have hbuilt : (s.process 0).pc.buildsState = false := by
    by_contra hb
    by_cases hp0 : party l = 0
    · rw [← hp0, hpc] at hb
      exact hb rfl
    · have hopen := (h.joiner _ hp hp0).waits (h.stateBuilt.building (by simpa using hb))
      rw [hpc] at hopen
      cases hopen
  have hmeets := meets_barrier h.meets hpc hplace hapart hbuilt hw
  generalize hpc' : afterBarrier (result (Barrier.events (s.words place) l)) = pc' at hpast hmeets
  have hpc'' : pc'.joins = false ∧ pc'.buildsState = false ∧ pc'.buildsBootstrap = false ∧
      pc'.connected = true := by
    rcases Pc.past_cases hpast with rfl | rfl | rfl <;> exact ⟨rfl, rfl, rfl, rfl⟩
  obtain ⟨hjoins, hbuilds, hboot, hconnected⟩ := hpc''
  have hrec : (({ s with words := update s.words place w } : State).goto (party l) pc').receivers
      cfg = s.receivers cfg :=
    receivers_step (party l) (by simp) fun q hq => by simp [hq]
  have hcreator : (({ s with words := update s.words place w } : State).goto (party l) pc').process
      0 = s.process 0 ∨ party l = 0 ∧ (({ s with words := update s.words place w } :
        State).goto (party l) pc').process 0 = { s.process 0 with pc := pc' } := by
    rw [process_goto]
    split_ifs with hp0
    · exact Or.inr ⟨hp0.symm, by rw [← hp0]⟩
    · exact Or.inl rfl
  refine ⟨?_, ?_, ?_, ?_, fun q hq hq0 => ?_, fun queue hqueue => ?_, hmeets, fun q => ?_⟩
  · rcases hcreator with hsame | ⟨-, hsame⟩ <;> rw [hsame]
    · exact h.creates
    · exact hjoins
  · rcases hcreator with hsame | ⟨-, hsame⟩ <;> rw [hsame]
    · exact h.stateBuilt
    · exact h.stateBuilt.later hbuilds
  · rcases hcreator with hsame | ⟨-, hsame⟩ <;> rw [hsame]
    · exact h.bootstrapBuilt
    · exact h.bootstrapBuilt.later rfl rfl hboot
  · rw [hrec]
    rcases hcreator with hsame | ⟨hp0, hsame⟩ <;> rw [hsame]
    · exact h.serving
    · rw [hp0] at hpc
      refine h.serving.goto rfl rfl rfl rfl rfl (fun j hj => ⟨j, ?_, le_rfl⟩) (fun j hj => ?_)
        fun j hj => ?_
      · rw [hpc]
        rcases Pc.past_cases hpast with rfl | rfl | rfl <;> exact hj
      · rw [show pc' = .serveFds j from hj] at hpast
        cases hpast
      · rw [hpc]
        rcases Pc.past_cases hpast with rfl | rfl | rfl <;> exact hj
  · have hj := h.joiner q hq hq0
    rw [process_goto]
    split_ifs with hqp
    · subst hqp
      refine hj.late (by rw [hpc]; rfl) rfl rfl hconnected (fun k hk => ?_) fun hr _ => ?_
      · rw [show pc' = .mapHost k from hk] at hpast
        cases hpast
      · exact hj.pooled hr (by rw [hpc]; rfl)
    · exact hj
  · have hq := h.queue queue hqueue
    refine hq.congr fun q hmem => ?_
    rw [process_goto, if_neg]
    rintro rfl
    rcases (hq.waits _ hmem).2.2.2 with hcase | hcase <;> rw [hpc] at hcase <;> cases hcase
  · rw [process_goto]
    split_ifs with hqp
    · exact h.apart (party l)
    · exact h.apart q

theorem Inv.step (h : Inv cfg s) {l : Label} (hguard : joinsLate s l = true)
    (hstep : step cfg s l = some s') : Inv cfg s' := by
  cases l with
  | run p =>
    simp only [Bootstrap.step, Option.ite_none_right_eq_some] at hstep
    obtain ⟨hp, hstep⟩ := hstep
    split_ifs at hstep with hp0
    · exact h.runCreator hstep
    · exact h.runJoiner hp hp0 hguard hstep
  | fail p =>
    simp only [Bootstrap.step, Option.ite_none_right_eq_some] at hstep
    exact h.fail hstep.1 hguard hstep.2
  | barrier l => exact h.barrier hstep

/-! ## Who succeeds is attached -/

theorem Inv.init (cfg : Config) (left : Leftover) : Inv cfg (State.init left) := by
  have hrec : (State.init left).receivers cfg = 0 := by
    simp [State.receivers, State.init]
  refine ⟨rfl, ⟨by simp [State.init], fun _ => rfl, by simp [State.init], by simp [State.init]⟩,
    .uncleared rfl (by simp [State.init]) (by simp [State.init]), ?_, fun p _ hp0 => ?_,
    fun queue hqueue => by simp [State.init] at hqueue, ?_, fun p => by simp [State.init]⟩
  · exact ⟨by simp [State.init], by simp [State.init, Pc.allocated],
      by simp [State.init, Pc.allocated], by simp [State.init],
      fun k hk => hrec.trans (by simpa [State.init, Pc.served] using hk), by omega, rfl⟩
  · constructor <;> simp [State.init, hp0, Pc.past]
  · refine ⟨fun _ => rfl, fun place hplace => ⟨[], ?_, by simp⟩, fun place hplace q g hq => ?_,
      fun p hp => ?_⟩
    · rcases place with (_ | _) | p
      · exact absurd rfl hplace
      · exact Barrier.Inv.init cfg.nranks_pos 0
      · exact Barrier.Inv.init cfg.nranks_pos 0
    · rcases place with (_ | _) | p <;> simp [State.init, Barrier.State.init] at hq
    · simp only [State.init] at hp
      split_ifs at hp

/-- Where somebody has succeeded, everybody is in the same barrier and the creator has served all
joiners. -/
theorem Inv.attached (h : Inv cfg s) {p : ℕ} (hp : p < cfg.nranks)
    (hpc : (s.process p).pc = .succeeded) : s.Attached cfg p := by
  obtain ⟨place, hall⟩ := h.meets.succeeded p hpc
  obtain ⟨hplace, hpast⟩ := hall p hp
  obtain ⟨hplace0, hpast0⟩ := hall 0 cfg.nranks_pos
  have hmade := h.serving.place place hplace0
  refine ⟨by rw [hplace]; rcases hmade with rfl | rfl <;> simp, fun numa hnuma => ?_⟩
  by_cases hp0 : p = 0
  · subst hp0
    have hall := h.serving.allocated cfg.numNuma
      (by rcases Pc.past_cases hpast with hc | hc | hc <;> rw [hc] <;> rfl)
    exact (hall numa hnuma).2.2
  · have hserved := h.serving.served (cfg.nranks - 1)
      (by rcases Pc.past_cases hpast0 with hc | hc | hc <;> rw [hc] <;> rfl)
    -- with the creator itself, as many as there are
    have hcount : (List.range cfg.nranks).countP
        (fun q => decide (q = 0) || (s.process q).received) = cfg.nranks := by
      rw [Theory.countP_range_set (f := fun q => (s.process q).received) cfg.nranks_pos
        h.serving.apart (by simp) fun q hq => by simp [hq]]
      have hpos := cfg.nranks_pos
      unfold State.receivers at hserved
      omega
    have hrec := Theory.countP_range_eq.1 hcount p hp
    exact (h.joiner p hp hp0).pooled (by simpa [hp0] using hrec) hpast numa hnuma

theorem Inv.orderly (h : Inv cfg s) {l : Label} (hstep : (Bootstrap.step cfg s l).isSome = true) :
    Orderly cfg s l := by
  refine ⟨fun g hg => ?_, fun _ hpc p hp hp0 => ?_⟩
  · have hboot : ∀ r, r = .this ∧ (s.bootstrap .this).cleared = true →
        s.initialised (.bootstrap r) = true := by
      rintro _ ⟨rfl, hcleared⟩
      simp [State.initialised, hcleared, (h.bootstrapBuilt.cleared hcleared).2]
    cases l with
    | run p =>
      simp only [Bootstrap.step] at hstep
      split_ifs at hstep with hp hp0
      · simp [Bootstrap.reads, hp0] at hg
      · have hj := h.joiner p hp hp0
        simp only [Bootstrap.reads, if_neg hp0] at hg
        split at hg
        · obtain ⟨r, hr, rfl⟩ := Option.map_eq_some_iff.1 (Option.mem_toList.1 hg)
          exact hboot r (hj.bootstrap r hr)
        · obtain ⟨r, hr, rfl⟩ := Option.map_eq_some_iff.1 (Option.mem_toList.1 hg)
          exact hboot r (hj.bootstrap r hr)
        · cases hg
      · cases hstep
    | fail p => cases hg
    | barrier l =>
      obtain ⟨s', hs'⟩ := Option.isSome_iff_exists.1 hstep
      simp only [Bootstrap.step, Option.ite_none_right_eq_some, Option.bind_eq_some_iff,
        Option.map_eq_some_iff] at hs'
      obtain ⟨hpc, place, hplace, w, hw, rfl⟩ := hs'
      have hapart : place ≠ .segment .earlier := fun heq => h.apart (party l) (heq ▸ hplace)
      obtain ⟨tr, hinv, -⟩ := h.meets.entered place hapart
      have hp := party_lt hinv hw
      simp only [Bootstrap.reads, hplace] at hg
      split_ifs at hg with hp0
      · cases hg
      · split at hg
        · rename_i r hr
          obtain rfl := List.mem_singleton.1 hg
          rcases (h.joiner _ hp hp0).place _ (hplace.trans hr) with hcase | ⟨hcase, hcleared⟩
          · cases hcase
          · cases hcase
            simp [State.initialised, hcleared, (h.stateBuilt.cleared hcleared).2]
        · cases hg
  · have hcleared := h.stateBuilt.building (by rw [hpc]; rfl)
    simp [State.arrived, (h.joiner p hp hp0).waits hcleared]

/-- **The processes of a run find one another.**  In a run in which every joiner leaves its loops
once the creator has cleared the segment it looks for, whoever returns from `initialize` with
success works on the state and the host buffers of this run's creator; no step reads a segment
that has not been initialised, and none initialises the state under somebody who has arrived. -/
theorem initialize_attached {left : Leftover} {ls : List Label}
    (hrun : (machine cfg).runFrom joinsLate (State.init left) ls = some s) :
    (∀ p < cfg.nranks, (s.process p).pc = .succeeded → s.Attached cfg p) ∧
      ∀ l, joinsLate s l = true → (step cfg s l).isSome = true → Orderly cfg s l := by
  have h := (machine cfg).invariant (I := Inv cfg)
    (fun s l s' h hguard hstep => h.step hguard hstep) (Inv.init cfg left) hrun
  exact ⟨fun p hp hpc => h.attached hp hpc, fun l _ hstep => h.orderly hstep⟩

/-! ## A joiner that comes early -/

/-- A creator and one joiner on one NUMA node. -/
def pair : Config := ⟨2, Nat.two_pos, 1, fun _ => 4096⟩

/-- The segments of a run whose creator died waiting for its joiner. -/
def halfMet : Leftover where
  stateName := true
  bootstrapName := true
  state := ⟨true, true⟩
  generation := 0
  count := 1
  bootstrap := ⟨true, true, true, 0, 1, fun _ => 4096⟩

/-- The creator comes as far as its socket. -/
def creatorServes : List Label :=
  List.replicate 14 (.run 0)

/-- The joiner takes the descriptors and goes to the barrier. -/
def joinerTakes : List Label :=
  [.run 1, .run 1, .run 1, .run 1, .run 0, .run 1, .run 1, .run 1]

def bothMeet : List Label :=
  [.run 0, .barrier (.call 1), .barrier (.arrive 1), .barrier (.call 0), .barrier (.arrive 0),
    .barrier (.reset 0), .barrier (.raise 0), .barrier (.poll 1)]

/-- With the loops left late the two of them meet, whatever is left behind. -/
def meeting : List Label := creatorServes ++ [.run 1, .run 1] ++ joinerTakes ++ bothMeet

theorem initialize_attached_meeting :
    ∃ s, (machine pair).runFrom joinsLate (State.init halfMet) meeting = some s ∧
      (s.process 1).pc = .succeeded ∧ s.Attached pair 1 := by
  have hpc : ((machine pair).runFrom joinsLate (State.init halfMet) meeting).map
      (fun s => (s.process 1).pc) = some .succeeded := by
    decide
  obtain ⟨s, hrun, hs⟩ := Option.map_eq_some_iff.1 hpc
  exact ⟨s, hrun, hs, (initialize_attached hrun).1 1 (by decide) hs⟩

/-- The joiner finds the state the dead creator left, where the barrier is one short. -/
def early : List Label :=
  [.run 1, .run 1] ++ creatorServes ++ joinerTakes ++
    [.barrier (.call 1), .barrier (.arrive 1), .barrier (.reset 1), .barrier (.raise 1)]

theorem runFrom_early :
    ((machine pair).runFrom Theory.Machine.anyStep (State.init halfMet) early).map
      (fun s => ((s.process 1).pc, (s.process 1).place)) =
        some (.succeeded, some (.segment .earlier)) := by
  decide

/-- On a clean system, the joiner looks into the bootstrap segment between its creation and its
`ftruncate`. -/
def unsized : List Label :=
  List.replicate 7 (.run 0) ++ [.run 1, .run 1, .run 1, .run 1]

theorem reads_unsized :
    ((machine pair).runFrom Theory.Machine.anyStep (State.init .nothing) unsized).map
      (fun s => ((step pair s (.run 1)).isSome, (reads s (.run 1)).map s.initialised)) =
        some (true, [false]) := by
  decide

/-- **A joiner that comes early** succeeds on the state of a crashed run, alone; and on a clean
system it reads a segment that has no size yet. -/
theorem leftover_attached :
    (¬ ∀ (cfg : Config) (left : Leftover) (ls : List Label) (s : State),
      (machine cfg).runFrom Theory.Machine.anyStep (State.init left) ls = some s →
      ∀ p < cfg.nranks, (s.process p).pc = .succeeded → s.Attached cfg p) ∧
    ¬ ∀ (cfg : Config) (ls : List Label) (s : State),
      (machine cfg).runFrom Theory.Machine.anyStep (State.init .nothing) ls = some s →
      ∀ l, (step cfg s l).isSome = true → Orderly cfg s l := by
  constructor
  · intro hall
    obtain ⟨s, hrun, hs⟩ := Option.map_eq_some_iff.1 runFrom_early
    rw [Prod.mk.injEq] at hs
    obtain ⟨hplace, -⟩ := hall pair halfMet early s hrun 1 (by decide) hs.1
    rw [hs.2] at hplace
    rcases hplace with hplace | hplace <;> cases hplace
  · intro hall
    obtain ⟨s, hrun, hs⟩ := Option.map_eq_some_iff.1 reads_unsized
    rw [Prod.mk.injEq, List.map_eq_singleton_iff] at hs
    obtain ⟨hstep, g, hreads, hno⟩ := hs
    have hyes := (hall pair unsized s hrun (.run 1) hstep).reads g
      (by rw [hreads]; exact List.mem_singleton_self g)
    rw [hno] at hyes
    cases hyes

end Bootstrap
end Memory
end HyLink
