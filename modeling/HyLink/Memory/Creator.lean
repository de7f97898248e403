import HyLink.Memory.Bootstrap

/-!
# What the creator has built

The invariant of a run of `ProcessState::initialize` in which joiners come late:
what the creator has built at which step, what a joiner can have found by then,
who waits at the socket, and who meets in which barrier; and that the steps of
the creator keep it.

* `Bootstrap.StateBuilt`, `Bootstrap.BootstrapBuilt`, `Bootstrap.Serving` — the
  creator's part.
* `Bootstrap.Joiner`, `Bootstrap.Queue`, `Bootstrap.Meets` — the others' part.
* `Bootstrap.Inv.runCreator` — the creator's step.
-/

namespace HyLink
namespace Memory
namespace Bootstrap

open Function (update)

variable (cfg : Config)

/-! ## Where a process stands -/

/-- The process is in or past its barrier. -/
def Pc.past : Pc → Bool
  | .barrier | .succeeded | .failed => true
  | _ => false

/-- The joiner has connected to the creator, or never will. -/
def Pc.connected : Pc → Bool
  | .receiveFds | .mapHost _ | .barrier | .succeeded | .failed | .aborted => true
  | _ => false

/-- The process is a joiner, before its barrier. -/
def Pc.joins : Pc → Bool
  | .openState | .attachState _ | .openBootstrap | .attachBootstrap _ | .loadReady | .connect
  | .receiveFds | .mapHost _ => true
  | _ => false

/-- The creator has not yet cleared the state. -/
def Pc.buildsState : Pc → Bool
  | .unlinkState | .createState | .sizeState | .mapState | .clearState => true
  | _ => false

/-- The creator has not yet cleared the bootstrap segment. -/
def Pc.buildsBootstrap : Pc → Bool
  | .unlinkBootstrap | .createBootstrap | .sizeBootstrap | .mapBootstrap | .clearBootstrap => true
  | pc => pc.buildsState

/-- The nodes the creator has allocated, from where its bootstrap segment is cleared. -/
def Pc.allocated (numNuma : ℕ) : Pc → Option ℕ
  | .allocate numa => some numa
  | .createFdServer | .storeReady | .serveFds _ | .barrier | .succeeded | .failed => some numNuma
  | _ => none

/-- The joiners the creator has served. -/
def Pc.served (nranks : ℕ) : Pc → Option ℕ
  | .aborted => none
  | .serveFds served => some served
  | .barrier | .succeeded | .failed => some (nranks - 1)
  | _ => some 0

/-- How many joiners have the descriptors. -/
def State.receivers (s : State) : ℕ :=
  (List.range cfg.nranks).countP fun p => (s.process p).received

/-! ## The creator -/

/-- What stands of the state segment of this run when: what the name names, the segment, and
where the creator is. -/
structure StateBuilt (name : Option Run) (shm : StateShm) (pc : Pc) : Prop where
  cleared : shm.cleared = true → name = some .this ∧ shm.sized = true
  building : pc.buildsState = true → shm.cleared = false
  created : pc = .sizeState ∨ pc = .mapState ∨ pc = .clearState → name = some .this
  sized : pc = .mapState ∨ pc = .clearState → shm.sized = true

/-- What stands of the bootstrap segment of this run when. -/
structure BootstrapBuilt (name : Option Run) (shm : BootstrapShm) (pc : Pc) : Prop where
  cleared : shm.cleared = true → name = some .this ∧ shm.sized = true
  building : pc.buildsBootstrap = true → shm.cleared = false
  created : pc = .sizeBootstrap ∨ pc = .mapBootstrap ∨ pc = .clearBootstrap → name = some .this
  sized : pc = .mapBootstrap ∨ pc = .clearBootstrap → shm.sized = true

/-- What the creator `x` has allocated and given away when. -/
structure Serving (x : Process) (shm : BootstrapShm) (receivers : ℕ) : Prop where
  place : ∀ place, x.place = some place → place = .segment .this ∨ place = .heap 0
  expected : ∀ k, x.pc.allocated cfg.numNuma = some k → shm.expectedJoiners = cfg.nranks - 1
  allocated : ∀ k, x.pc.allocated cfg.numNuma = some k → ∀ numa < k,
    0 < cfg.poolSize 0 ∧ shm.hostSizes numa = cfg.poolSize 0 ∧
      x.pool numa = some (cfg.poolSize 0)
  serves : ∀ k, x.pc = .serveFds k → k ≤ cfg.nranks - 1
  served : ∀ k, x.pc.served cfg.nranks = some k → receivers = k
  sizes : 0 < receivers → ∀ numa < cfg.numNuma,
    0 < cfg.poolSize 0 ∧ shm.hostSizes numa = cfg.poolSize 0
  apart : x.received = false

/-! ## A joiner -/

/-- What joiner `p` has found; the flags say whether the creator has cleared the segments of this
run. -/
structure Joiner (p : ℕ) (state bootstrap : Bool) (x : Process) : Prop where
  waits : state = false → x.pc = .openState
  attachState : ∀ r, x.pc = .attachState r → r = .this ∧ state = true
  place : ∀ place, x.place = some place →
    place = .heap p ∨ place = .segment .this ∧ state = true
  attachBootstrap : ∀ r, x.pc = .attachBootstrap r → r = .this ∧ bootstrap = true
  bootstrap : ∀ r, x.bootstrap = some r → r = .this ∧ bootstrap = true
  received : x.received = true → x.pc.connected = true
  mapped : ∀ k, x.pc = .mapHost k → x.received = true ∧
    ∀ numa < k, x.pool numa = some (cfg.poolSize 0)
  pooled : x.received = true → x.pc.past = true →
    ∀ numa < cfg.numNuma, x.pool numa = some (cfg.poolSize 0)

/-- The connections at the socket. -/
structure Queue (process : ℕ → Process) (queue : List ℕ) : Prop where
  nodup : queue.Nodup
  waits : ∀ p ∈ queue, p ≠ 0 ∧ p < cfg.nranks ∧ (process p).received = false ∧
    ((process p).pc = .receiveFds ∨ (process p).pc = .aborted)

/-! ## The barrier -/

/-- Who meets in a barrier. -/
structure Meets (s : State) : Prop where
  fresh : (s.process 0).pc.buildsState = true →
    s.words (.segment .this) = Barrier.State.init 0
  /-- Whoever has entered the barrier of a state is attached to it. -/
  entered : ∀ place, place ≠ .segment .earlier → ∃ tr,
    Barrier.Inv cfg.nranks 0 tr (s.words place) ∧ ∀ q g, Barrier.Event.entered q g ∈ tr →
      (s.process q).place = some place ∧ (s.process q).pc.past = true
  /-- Whoever has timed out does not call again. -/
  timedOut : ∀ place, place ≠ .segment .earlier → ∀ q g,
    (s.words place).phase q = .outside (some g) → (s.process q).pc = .failed
  succeeded : ∀ p, (s.process p).pc = .succeeded → ∃ place, ∀ q < cfg.nranks,
    (s.process q).place = some place ∧ (s.process q).pc.past = true

structure Inv (s : State) : Prop where
  creates : (s.process 0).pc.joins = false
  stateBuilt : StateBuilt s.stateName (s.state .this) (s.process 0).pc
  bootstrapBuilt : BootstrapBuilt s.bootstrapName (s.bootstrap .this) (s.process 0).pc
  serving : Serving cfg (s.process 0) (s.bootstrap .this) (s.receivers cfg)
  joiner : ∀ p < cfg.nranks, p ≠ 0 →
    Joiner cfg p (s.state .this).cleared (s.bootstrap .this).cleared (s.process p)
  queue : ∀ queue, s.server = some queue → Queue cfg s.process queue
  meets : Meets cfg s
  /-- Nobody is attached to what an earlier run has left. -/
  apart : ∀ p, (s.process p).place ≠ some (.segment .earlier)

variable {cfg} {s s' : State}

/-- A step of process `p` that gives nobody the descriptors. -/
theorem receivers_step (p : ℕ) (hself : (s'.process p).received = (s.process p).received)
    (hothers : ∀ q, q ≠ p → s'.process q = s.process q) :
    s'.receivers cfg = s.receivers cfg :=
  Theory.countP_range_congr fun q _ => by
    by_cases hq : q = p
    · rw [hq, hself]
    · rw [hothers q hq]

theorem receivers_pos {p : ℕ} (hp : p < cfg.nranks) (h : (s.process p).received = true) :
    0 < s.receivers cfg :=
  List.countP_pos_iff.2 ⟨p, List.mem_range.2 hp, h⟩

/-! ## The creator builds the segments -/

theorem StateBuilt.later {name : Option Run} {shm : StateShm} {pc pc' : Pc}
    (h : StateBuilt name shm pc) (hpc : pc'.buildsState = false) : StateBuilt name shm pc' := by
  refine ⟨h.cleared, fun hb => ?_, ?_, ?_⟩
  · rw [hpc] at hb
    cases hb
  · rintro (rfl | rfl | rfl) <;> cases hpc
  · rintro (rfl | rfl) <;> cases hpc

theorem BootstrapBuilt.later {name : Option Run} {shm shm' : BootstrapShm} {pc pc' : Pc}
    (h : BootstrapBuilt name shm pc) (hcleared : shm'.cleared = shm.cleared)
    (hsized : shm'.sized = shm.sized) (hpc : pc'.buildsBootstrap = false) :
    BootstrapBuilt name shm' pc' := by
  refine ⟨?_, fun hb => ?_, ?_, ?_⟩
  · rw [hcleared, hsized]
    exact h.cleared
  · rw [hpc] at hb
    cases hb
  · rintro (rfl | rfl | rfl) <;> cases hpc
  · rintro (rfl | rfl) <;> cases hpc

/-- Nothing is cleared yet. -/
theorem BootstrapBuilt.uncleared {name : Option Run} {shm : BootstrapShm} {pc : Pc}
    (hcleared : shm.cleared = false)
    (hcreated : pc = .sizeBootstrap ∨ pc = .mapBootstrap ∨ pc = .clearBootstrap →
      name = some .this)
    (hsized : pc = .mapBootstrap ∨ pc = .clearBootstrap → shm.sized = true) :
    BootstrapBuilt name shm pc :=
  ⟨by simp [hcleared], fun _ => hcleared, hcreated, hsized⟩

/-- The creator's step builds the state segment. -/
theorem stateBuilt_runCreator
    (h : StateBuilt s.stateName (s.state .this) (s.process 0).pc)
    (hstep : runCreator cfg s = some s') :
    StateBuilt s'.stateName (s'.state .this) (s'.process 0).pc := by
  cases hpc : (s.process 0).pc with
  | unlinkState =>
    have hcleared := h.building (by rw [hpc]; rfl)
    simp only [runCreator, hpc, Option.some.injEq] at hstep
    subst hstep
    exact ⟨by simp [hcleared], by simp [hcleared], by simp, by simp⟩
  | createState =>
    have hcleared := h.building (by rw [hpc]; rfl)
    simp only [runCreator, hpc, Option.ite_none_right_eq_some, Option.some.injEq] at hstep
    obtain ⟨-, rfl⟩ := hstep
    exact ⟨by simp [hcleared], by simp [hcleared], by simp, by simp⟩
  | sizeState =>
    have hcleared := h.building (by rw [hpc]; rfl)
    have hname := h.created (Or.inl hpc)
    simp only [runCreator, hpc, Option.some.injEq] at hstep
    subst hstep
    exact ⟨by simp [hcleared], by simp [hcleared], by simp [hname], by simp⟩
  | mapState =>
    have hcleared := h.building (by rw [hpc]; rfl)
    have hname := h.created (Or.inr (Or.inl hpc))
    have hsized := h.sized (Or.inl hpc)
    simp only [runCreator, hpc, Option.some.injEq] at hstep
    subst hstep
    exact ⟨by simp [hcleared], by simp [hcleared], by simp [hname], by simp [hsized]⟩
  | clearState =>
    have hname := h.created (Or.inr (Or.inr hpc))
    have hsized := h.sized (Or.inr hpc)
    simp only [runCreator, hpc, Option.some.injEq] at hstep
    subst hstep
    exact ⟨by simp [hname, hsized], by simp [Pc.buildsState], by simp, by simp⟩
  | createBootstrap =>
    simp only [runCreator, hpc, Option.ite_none_right_eq_some, Option.some.injEq] at hstep
    obtain ⟨-, rfl⟩ := hstep
    exact h.later (by simp [Pc.buildsState])
  | allocate numa =>
    simp only [runCreator, hpc] at hstep
    split_ifs at hstep <;> cases hstep <;> exact h.later (by simp [Pc.buildsState])
  | storeReady =>
    simp only [runCreator, hpc, Option.some.injEq] at hstep
    subst hstep
    exact h.later (by simp only [process_goto, if_pos]; split_ifs <;> rfl)
  | serveFds served =>
    simp only [runCreator, hpc] at hstep
    split_ifs at hstep
    · split at hstep <;> cases hstep
      exact h.later (by simp [Pc.buildsState])
    · cases hstep
      exact h.later (by simp [Pc.buildsState])
  | unlinkBootstrap | sizeBootstrap | mapBootstrap | clearBootstrap | createFdServer =>
    simp only [runCreator, hpc, Option.some.injEq] at hstep
    subst hstep
    exact h.later (by simp [Pc.buildsState])
  | _ => simp [runCreator, hpc] at hstep

/-- The creator's step builds the bootstrap segment. -/
theorem bootstrapBuilt_runCreator
    (h : BootstrapBuilt s.bootstrapName (s.bootstrap .this) (s.process 0).pc)
    (hstep : runCreator cfg s = some s') :
    BootstrapBuilt s'.bootstrapName (s'.bootstrap .this) (s'.process 0).pc := by
  cases hpc : (s.process 0).pc with
  | unlinkState | sizeState | mapState | clearState | unlinkBootstrap =>
    have hcleared := h.building (by rw [hpc]; rfl)
    simp only [runCreator, hpc, Option.some.injEq] at hstep
    subst hstep
    exact .uncleared (by simpa using hcleared) (by simp) (by simp)
  | createState =>
    have hcleared := h.building (by rw [hpc]; rfl)
    simp only [runCreator, hpc, Option.ite_none_right_eq_some, Option.some.injEq] at hstep
    obtain ⟨-, rfl⟩ := hstep
    exact .uncleared (by simpa using hcleared) (by simp) (by simp)
  | createBootstrap =>
    have hcleared := h.building (by rw [hpc]; rfl)
    simp only [runCreator, hpc, Option.ite_none_right_eq_some, Option.some.injEq] at hstep
    obtain ⟨-, rfl⟩ := hstep
    exact .uncleared (by simpa using hcleared) (by simp) (by simp)
  | sizeBootstrap =>
    have hcleared := h.building (by rw [hpc]; rfl)
    have hname := h.created (Or.inl hpc)
    simp only [runCreator, hpc, Option.some.injEq] at hstep
    subst hstep
    exact .uncleared (by simpa using hcleared) (by simp [hname]) (by simp)
  | mapBootstrap =>
    have hcleared := h.building (by rw [hpc]; rfl)
    have hname := h.created (Or.inr (Or.inl hpc))
    have hsized := h.sized (Or.inl hpc)
    simp only [runCreator, hpc, Option.some.injEq] at hstep
    subst hstep
    exact .uncleared (by simpa using hcleared) (by simp [hname]) (by simp [hsized])
  | clearBootstrap =>
    have hname := h.created (Or.inr (Or.inr hpc))
    have hsized := h.sized (Or.inr hpc)
    simp only [runCreator, hpc, Option.some.injEq] at hstep
    subst hstep
    exact ⟨by simp [hname, hsized], by simp [Pc.buildsBootstrap, Pc.buildsState], by simp, by simp⟩
  | allocate numa =>
    simp only [runCreator, hpc] at hstep
    split_ifs at hstep <;> cases hstep <;>
      exact h.later (by simp) (by simp) (by simp [Pc.buildsBootstrap, Pc.buildsState])
  | storeReady =>
    simp only [runCreator, hpc, Option.some.injEq] at hstep
    subst hstep
    exact h.later (by simp) (by simp) (by simp only [process_goto, if_pos]; split_ifs <;> rfl)
  | serveFds served =>
    simp only [runCreator, hpc] at hstep
    split_ifs at hstep
    · split at hstep <;> cases hstep
      exact h.later rfl rfl (by simp [Pc.buildsBootstrap, Pc.buildsState])
    · cases hstep
      exact h.later rfl rfl (by simp [Pc.buildsBootstrap, Pc.buildsState])
  | createFdServer =>
    simp only [runCreator, hpc, Option.some.injEq] at hstep
    subst hstep
    exact h.later rfl rfl (by simp [Pc.buildsBootstrap, Pc.buildsState])
  | _ => simp [runCreator, hpc] at hstep

/-- Before it allocates, the creator has given nothing away. -/
theorem Serving.before {x x' : Process} {shm shm' : BootstrapShm} {k : ℕ}
    (h : Serving cfg x shm k) (hnone : x.pc.served cfg.nranks = some 0)
    (hplace : ∀ place, x'.place = some place → place = .segment .this ∨ place = .heap 0)
    (hallocated : x'.pc.allocated cfg.numNuma = none)
    (hserved : x'.pc.served cfg.nranks = some 0) (hapart : x'.received = x.received) :
    Serving cfg x' shm' k := by
  have hk : k = 0 := h.served 0 hnone
  refine ⟨hplace, fun j hj => ?_, fun j hj => ?_, fun j hj => ?_, fun j hj => ?_, fun hpos => ?_,
    hapart.trans h.apart⟩
  · rw [hallocated] at hj
    cases hj
  · rw [hallocated] at hj
    cases hj
  · rw [hj] at hallocated
    cases hallocated
  · rw [hserved] at hj
    rw [hk]
    exact Option.some.inj hj
  · omega

/-- Where nothing is allocated or served, only the stage changes. -/
theorem Serving.goto {x x' : Process} {shm shm' : BootstrapShm} {k : ℕ}
    (h : Serving cfg x shm k) (hplace : x'.place = x.place) (hpool : x'.pool = x.pool)
    (hreceived : x'.received = x.received)
    (hexpected : shm'.expectedJoiners = shm.expectedJoiners)
    (hsizes : shm'.hostSizes = shm.hostSizes)
    (hallocated : ∀ j, x'.pc.allocated cfg.numNuma = some j →
      ∃ i, x.pc.allocated cfg.numNuma = some i ∧ j ≤ i)
    (hserves : ∀ j, x'.pc = .serveFds j → j = 0)
    (hserved : ∀ j, x'.pc.served cfg.nranks = some j → x.pc.served cfg.nranks = some j) :
    Serving cfg x' shm' k := by
  refine ⟨?_, fun j hj => ?_, fun j hj numa hlt => ?_, fun j hj => ?_, fun j hj => ?_, ?_, ?_⟩
  · rw [hplace]
    exact h.place
  · obtain ⟨i, hi, -⟩ := hallocated j hj
    exact hexpected.trans (h.expected i hi)
  · obtain ⟨i, hi, hle⟩ := hallocated j hj
    rw [hsizes, hpool]
    exact h.allocated i hi numa (Nat.lt_of_lt_of_le hlt hle)
  · have := hserves j hj
    omega
  · exact h.served j (hserved j hj)
  · rw [hsizes]
    exact h.sizes
  · rw [hreceived]
    exact h.apart

/-- One of the connections is answered. -/
theorem receivers_serve {p : ℕ} {rest : List ℕ} (hq : Queue cfg s.process (p :: rest))
    (hp : s'.process p = { s.process p with received := true })
    (hothers : ∀ q, q ≠ p → (s'.process q).received = (s.process q).received) :
    s'.receivers cfg = s.receivers cfg + 1 := by
  obtain ⟨-, hlt, hout, -⟩ := hq.waits p (List.mem_cons_self ..)
  exact Theory.countP_range_set hlt hout (by rw [hp]) hothers

theorem serving_runCreator
    (h : Serving cfg (s.process 0) (s.bootstrap .this) (s.receivers cfg))
    (hq : ∀ queue, s.server = some queue → Queue cfg s.process queue)
    (hstep : runCreator cfg s = some s') :
    Serving cfg (s'.process 0) (s'.bootstrap .this) (s'.receivers cfg) := by
  cases hpc : (s.process 0).pc with
  | unlinkState | sizeState | clearState | unlinkBootstrap | sizeBootstrap | mapBootstrap =>
    simp only [runCreator, hpc, Option.some.injEq] at hstep
    subst hstep
    rw [receivers_step (s := s) 0 (by simp) fun q hq => by simp [hq]]
    exact h.before (by rw [hpc]; rfl) (by simpa using h.place) (by simp [Pc.allocated])
      (by simp [Pc.served]) (by simp)
  | createState | createBootstrap =>
    simp only [runCreator, hpc, Option.ite_none_right_eq_some, Option.some.injEq] at hstep
    obtain ⟨-, rfl⟩ := hstep
    rw [receivers_step (s := s) 0 (by simp) fun q hq => by simp [hq]]
    exact h.before (by rw [hpc]; rfl) (by simpa using h.place) (by simp [Pc.allocated])
      (by simp [Pc.served]) (by simp)
  | mapState =>
    simp only [runCreator, hpc, Option.some.injEq] at hstep
    subst hstep
    rw [receivers_step (s := s) 0 (by simp) fun q hq => by simp [hq]]
    exact h.before (by rw [hpc]; rfl) (by simp) (by simp [Pc.allocated]) (by simp [Pc.served])
      (by simp)
  | clearBootstrap =>
    have hk : s.receivers cfg = 0 := h.served 0 (by rw [hpc]; rfl)
    simp only [runCreator, hpc, Option.some.injEq] at hstep
    subst hstep
    rw [receivers_step (s := s) 0 (by simp) fun q hq => by simp [hq]]
    refine ⟨by simpa using h.place, by simp [Pc.allocated], ?_, by simp, ?_, by omega,
      by simpa using h.apart⟩
    · intro k hk' numa hlt
      have h0 : 0 = k := by simpa [Pc.allocated] using hk'
      omega
    · simp [Pc.served, hk]
  | allocate numa =>
    have hk : s.receivers cfg = 0 := h.served 0 (by rw [hpc]; rfl)
    have hexpected := h.expected numa (by rw [hpc]; rfl)
    have hallocated := h.allocated numa (by rw [hpc]; rfl)
    simp only [runCreator, hpc] at hstep
    by_cases hlt : numa < cfg.numNuma
    · rw [if_pos hlt] at hstep
      simp only [Option.ite_none_right_eq_some, Option.some.injEq] at hstep
      obtain ⟨hpos, rfl⟩ := hstep
      rw [receivers_step (s := s) 0 (by simp) fun q hq => by simp [hq]]
      refine ⟨by simpa using h.place, by simp [hexpected], ?_, by simp, by simp [Pc.served, hk],
        by omega, by simpa using h.apart⟩
      intro k hk' j hj
      have hk'' : numa + 1 = k := by simpa [Pc.allocated] using hk'
      by_cases hjn : j = numa
      · subst hjn
        simp [hpos]
      · simpa [hjn] using hallocated j (by omega)
    · rw [if_neg hlt, Option.some.injEq] at hstep
      subst hstep
      rw [receivers_step (s := s) 0 (by simp) fun q hq => by simp [hq]]
      refine h.goto (by simp) (by simp) (by simp) rfl rfl (fun j hj => ⟨numa, by rw [hpc]; rfl, ?_⟩)
        (fun j hj => ?_) fun j hj => ?_
      all_goals simp only [process_goto, if_pos] at hj
      · split_ifs at hj <;> cases hj <;> omega
      · split_ifs at hj
      · rw [hpc]
        split_ifs at hj <;> exact hj
  | createFdServer =>
    simp only [runCreator, hpc, Option.some.injEq] at hstep
    subst hstep
    rw [receivers_step (s := s) 0 (by simp) fun q hq => by simp [hq]]
    refine h.goto (by simp) (by simp) (by simp) rfl rfl
      (fun j hj => ⟨j, by rw [hpc]; simpa [Pc.allocated] using hj, le_rfl⟩) (by simp) fun j hj => ?_
    rw [hpc]
    simpa [Pc.served] using hj
  | storeReady =>
    have hexpected := h.expected cfg.numNuma (by rw [hpc]; rfl)
    simp only [runCreator, hpc, Option.some.injEq] at hstep
    subst hstep
    rw [receivers_step (s := s) 0 (by simp) fun q hq => by simp [hq]]
    refine h.goto (by simp) (by simp) (by simp) (by simp) (by simp)
      (fun j hj => ?_) (fun j hj => ?_) fun j hj => ?_
    all_goals simp only [process_goto, if_pos] at hj
    · refine ⟨j, ?_, le_rfl⟩
      rw [hpc]
      split_ifs at hj <;> exact hj
    · split_ifs at hj
      exact (Pc.serveFds.inj hj).symm
    · rw [hpc]
      split_ifs at hj with hpos
      · exact hj
      · -- no joiner is expected
        rw [hexpected] at hpos
        have hj' : cfg.nranks - 1 = j := by simpa [Pc.served] using hj
        simp only [Pc.served, Option.some.injEq]
        omega
  | serveFds served =>
    have hk : s.receivers cfg = served := h.served served (by rw [hpc]; rfl)
    have hexpected := h.expected cfg.numNuma (by rw [hpc]; rfl)
    have hallocated := h.allocated cfg.numNuma (by rw [hpc]; rfl)
    have hle := h.serves served hpc
    simp only [runCreator, hpc] at hstep
    by_cases hlt : served < (s.bootstrap .this).expectedJoiners
    · rw [if_pos hlt] at hstep
      split at hstep
      · rename_i p rest hserver
        cases hstep
        obtain ⟨hp0, -⟩ := (hq _ hserver).waits p (List.mem_cons_self ..)
        rw [receivers_serve (s := s) (hq _ hserver) (by simp [hp0])
          fun q hqp => by by_cases hq0 : q = 0 <;> simp [hq0, hqp, Ne.symm hp0]]
        refine ⟨?_, ?_, ?_, ?_, ?_, fun _ => ?_, ?_⟩
        · simpa [Ne.symm hp0] using h.place
        · simp [hexpected]
        · intro k hk' j hj
          have hk'' : cfg.numNuma = k := by simpa [Pc.allocated] using hk'
          subst hk''
          simpa [Ne.symm hp0] using hallocated j hj
        · intro k hk'
          have hk'' : served + 1 = k := by simpa using hk'
          omega
        · intro k hk'
          have hk'' : served + 1 = k := by simpa [Pc.served] using hk'
          omega
        · exact fun j hj => ⟨(hallocated j hj).1, (hallocated j hj).2.1⟩
        · simpa [Ne.symm hp0] using h.apart
      · cases hstep
    · rw [if_neg hlt, Option.some.injEq] at hstep
      subst hstep
      rw [receivers_step (s := s) 0 (by simp) fun q hq => by simp [hq]]
      refine h.goto (by simp) (by simp) (by simp) rfl rfl
        (fun j hj => ⟨j, by rw [hpc]; simpa [Pc.allocated] using hj, le_rfl⟩) (by simp)
        fun j hj => ?_
      have hj' : cfg.nranks - 1 = j := by simpa [Pc.served] using hj
      rw [hpc, Pc.served]
      congr 1
      omega
  | _ => simp [runCreator, hpc] at hstep

/-- What the creator's step does to the others. -/
theorem runCreator_others (hstep : runCreator cfg s = some s') :
    (∀ q, q ≠ 0 → s'.process q = s.process q) ∧
        (s'.server = s.server ∨ s'.server = none ∨ s'.server = some []) ∨
      ∃ p rest, s.server = some (p :: rest) ∧ s'.server = some rest ∧ ∀ q, q ≠ 0 →
        s'.process q = if q = p then { s.process p with received := true } else s.process q := by
  cases hpc : (s.process 0).pc with
  | createState | createBootstrap =>
    simp only [runCreator, hpc, Option.ite_none_right_eq_some, Option.some.injEq] at hstep
    obtain ⟨-, rfl⟩ := hstep
    exact Or.inl ⟨fun q hq => by simp [hq], Or.inl rfl⟩
  | allocate numa =>
    simp only [runCreator, hpc] at hstep
    split_ifs at hstep <;> cases hstep <;>
      exact Or.inl ⟨fun q hq => by simp [hq], Or.inl rfl⟩
  | createFdServer =>
    simp only [runCreator, hpc, Option.some.injEq] at hstep
    subst hstep
    exact Or.inl ⟨fun q hq => by simp [hq], Or.inr (Or.inr rfl)⟩
  | serveFds served =>
    simp only [runCreator, hpc] at hstep
    split_ifs at hstep
    · split at hstep
      · rename_i p rest hserver
        cases hstep
        exact Or.inr ⟨p, rest, hserver, rfl, fun q hq => by simp [hq]⟩
      · cases hstep
    · cases hstep
      exact Or.inl ⟨fun q hq => by simp [hq], Or.inr (Or.inl rfl)⟩
  | unlinkState | sizeState | mapState | clearState | unlinkBootstrap | sizeBootstrap
  | mapBootstrap | clearBootstrap | storeReady =>
    simp only [runCreator, hpc, Option.some.injEq] at hstep
    subst hstep
    exact Or.inl ⟨fun q hq => by simp [hq], Or.inl rfl⟩
  | _ => simp [runCreator, hpc] at hstep

/-- What the creator has cleared stays cleared, and it steps before its barrier only. -/
theorem runCreator_flags (hstep : runCreator cfg s = some s') :
    ((s.state .this).cleared = true → (s'.state .this).cleared = true) ∧
      ((s.bootstrap .this).cleared = true → (s'.bootstrap .this).cleared = true) ∧
      (s.process 0).pc.past = false ∧ (s'.process 0).pc ≠ .succeeded ∧
      (s'.process 0).pc.joins = false ∧
      ((s'.process 0).pc.buildsState = true → (s.process 0).pc.buildsState = true) := by
  cases hpc : (s.process 0).pc with
  | createState | createBootstrap =>
    simp only [runCreator, hpc, Option.ite_none_right_eq_some, Option.some.injEq] at hstep
    obtain ⟨-, rfl⟩ := hstep
    simp [Pc.past, Pc.joins, Pc.buildsState]
  | allocate numa =>
    simp only [runCreator, hpc] at hstep
    split_ifs at hstep <;> cases hstep <;> simp [Pc.past, Pc.joins, Pc.buildsState]
  | serveFds served =>
    simp only [runCreator, hpc] at hstep
    split_ifs at hstep
    · split at hstep <;> cases hstep
      simp [Pc.past, Pc.joins, Pc.buildsState]
    · cases hstep
      simp [Pc.past, Pc.joins, Pc.buildsState]
  | storeReady =>
    simp only [runCreator, hpc, Option.some.injEq] at hstep
    subst hstep
    refine ⟨by simp, by simp, rfl, ?_⟩
    simp only [process_goto, if_pos]
    split_ifs <;> simp [Pc.joins, Pc.buildsState]
  | unlinkState | sizeState | mapState | clearState | unlinkBootstrap | sizeBootstrap
  | mapBootstrap | clearBootstrap | createFdServer =>
    simp only [runCreator, hpc, Option.some.injEq] at hstep
    subst hstep
    simp [Pc.past, Pc.joins, Pc.buildsState]
  | _ => simp [runCreator, hpc] at hstep

theorem runCreator_words (hfresh : (s.process 0).pc.buildsState = true →
      s.words (.segment .this) = Barrier.State.init 0)
    (hstep : runCreator cfg s = some s') : s'.words = s.words := by
  cases hpc : (s.process 0).pc with
  | createState | createBootstrap =>
    simp only [runCreator, hpc, Option.ite_none_right_eq_some, Option.some.injEq] at hstep
    obtain ⟨-, rfl⟩ := hstep
    rfl
  | allocate numa =>
    simp only [runCreator, hpc] at hstep
    split_ifs at hstep <;> cases hstep <;> rfl
  | serveFds served =>
    simp only [runCreator, hpc] at hstep
    split_ifs at hstep
    · split at hstep <;> cases hstep
      rfl
    · cases hstep
      rfl
  | clearState =>
    -- nobody is attached: the words are as they were created
    have hwords := hfresh (by rw [hpc]; rfl)
    simp only [runCreator, hpc, Option.some.injEq] at hstep
    subst hstep
    simp only [words_goto, hwords]
    exact (Function.update_eq_self_iff).2 hwords.symm
  | unlinkState | sizeState | mapState | unlinkBootstrap | sizeBootstrap
  | mapBootstrap | clearBootstrap | createFdServer | storeReady =>
    simp only [runCreator, hpc, Option.some.injEq] at hstep
    subst hstep
    rfl
  | _ => simp [runCreator, hpc] at hstep

theorem Joiner.mono {p : ℕ} {a b a' b' : Bool} {x : Process} (h : Joiner cfg p a b x)
    (ha : a = true → a' = true) (hb : b = true → b' = true) : Joiner cfg p a' b' x where
  waits ha' := h.waits (by by_contra hne; simp [ha (by simpa using hne)] at ha')
  attachState r hr := (h.attachState r hr).imp_right ha
  place place hplace := (h.place place hplace).imp_right (And.imp_right ha)
  attachBootstrap r hr := (h.attachBootstrap r hr).imp_right hb
  bootstrap r hr := (h.bootstrap r hr).imp_right hb
  received := h.received
  mapped := h.mapped
  pooled := h.pooled

/-- The descriptors reach a joiner that waits for them. -/
theorem Joiner.receive {p : ℕ} {a b : Bool} {x : Process} (h : Joiner cfg p a b x)
    (hpc : x.pc = .receiveFds ∨ x.pc = .aborted) :
    Joiner cfg p a b { x with received := true } where
  waits := h.waits
  attachState := h.attachState
  place := h.place
  attachBootstrap := h.attachBootstrap
  bootstrap := h.bootstrap
  received _ := by rcases hpc with hpc | hpc <;> simp [hpc, Pc.connected]
  mapped k hk := by rcases hpc with hpc | hpc <;> simp [hpc] at hk
  pooled _ hpast := by rcases hpc with hpc | hpc <;> simp [hpc, Pc.past] at hpast

theorem Queue.congr {process process' : ℕ → Process} {queue : List ℕ}
    (h : Queue cfg process queue) (hsame : ∀ q ∈ queue, process' q = process q) :
    Queue cfg process' queue :=
  ⟨h.nodup, fun q hq => by rw [hsame q hq]; exact h.waits q hq⟩

theorem Queue.nil {process : ℕ → Process} : Queue cfg process [] :=
  ⟨List.nodup_nil, fun _ h => absurd h List.not_mem_nil⟩

/-- A step before the barrier leaves the barriers alone. -/
theorem Meets.before (h : Meets cfg s) {p : ℕ} (hp : (s.process p).pc.past = false)
    (hp' : (s'.process p).pc ≠ .succeeded) (hwords : s'.words = s.words)
    (hbuilds : (s'.process 0).pc.buildsState = true → (s.process 0).pc.buildsState = true)
    (hothers : ∀ q, q ≠ p → (s'.process q).pc = (s.process q).pc ∧
      (s'.process q).place = (s.process q).place) : Meets cfg s' := by
  have hpast : ∀ q, (s.process q).pc.past = true → (s'.process q).pc = (s.process q).pc ∧
      (s'.process q).place = (s.process q).place := fun q hq =>
    hothers q fun heq => by rw [heq, hp] at hq; cases hq
  refine ⟨fun hno => ?_, fun place hplace => ?_, fun place hplace q g hq => ?_, fun q hq => ?_⟩
  · rw [hwords]
    exact h.fresh (hbuilds hno)
  · obtain ⟨tr, hinv, hentered⟩ := h.entered place hplace
    refine ⟨tr, by rw [hwords]; exact hinv, fun q g hg => ?_⟩
    obtain ⟨hat, hin⟩ := hentered q g hg
    obtain ⟨hpc, hsame⟩ := hpast q hin
    exact ⟨hsame.trans hat, by rw [hpc]; exact hin⟩
  · rw [hwords] at hq
    have hfailed := h.timedOut place hplace q g hq
    exact (hpast q (by rw [hfailed]; rfl)).1.trans hfailed
  · have hqp : q ≠ p := fun heq => hp' (heq ▸ hq)
    obtain ⟨place, hall⟩ := h.succeeded q ((hothers q hqp).1 ▸ hq)
    refine ⟨place, fun t ht => ?_⟩
    obtain ⟨hat, hin⟩ := hall t ht
    obtain ⟨hpc, hsame⟩ := hpast t hin
    exact ⟨hsame.trans hat, by rw [hpc]; exact hin⟩

theorem Inv.runCreator (h : Inv cfg s) (hstep : runCreator cfg s = some s') : Inv cfg s' := by
  obtain ⟨hstate, hboot, hpast, hsucc, hcreates, hbuilds⟩ := runCreator_flags hstep
  have hserving := serving_runCreator h.serving h.queue hstep
  have hothers := runCreator_others hstep
  have hsame : ∀ q, q ≠ 0 → s'.process q = s.process q ∨
      s'.process q = { s.process q with received := true } ∧
        ((s.process q).pc = .receiveFds ∨ (s.process q).pc = .aborted) := by
    intro q hq
    rcases hothers with ⟨hall, -⟩ | ⟨p, rest, hserver, -, hall⟩
    · exact Or.inl (hall q hq)
    · rw [hall q hq]
      by_cases hqp : q = p
      · subst hqp
        rw [if_pos rfl]
        exact Or.inr ⟨rfl, ((h.queue _ hserver).waits q (List.mem_cons_self ..)).2.2.2⟩
      · rw [if_neg hqp]
        exact Or.inl rfl
  refine ⟨hcreates, stateBuilt_runCreator h.stateBuilt hstep,
    bootstrapBuilt_runCreator h.bootstrapBuilt hstep, hserving, fun p hp hp0 => ?_,
    fun queue hqueue => ?_, ?_, fun p => ?_⟩
  · have hj := (h.joiner p hp hp0).mono hstate hboot
    rcases hsame p hp0 with heq | ⟨heq, hpc⟩
    · rw [heq]
      exact hj
    · rw [heq]
      exact hj.receive hpc
  · rcases hothers with ⟨hall, hserver | hserver | hserver⟩ | ⟨p, rest, hserver, hserver', hall⟩
    · have hq := h.queue queue (hserver ▸ hqueue)
      exact hq.congr fun q hmem => hall q (hq.waits q hmem).1
    · rw [hserver] at hqueue
      cases hqueue
    · rw [hserver] at hqueue
      cases hqueue
      exact .nil
    · obtain rfl := Option.some.inj (hserver'.symm.trans hqueue)
      have hq := h.queue _ hserver
      have hnodup := List.nodup_cons.1 hq.nodup
      have hrest : Queue cfg s.process rest :=
        ⟨hnodup.2, fun q hmem => hq.waits q (List.mem_cons_of_mem _ hmem)⟩
      refine hrest.congr fun q hmem => ?_
      rw [hall q (hrest.waits q hmem).1, if_neg]
      rintro rfl
      exact hnodup.1 hmem
  · refine h.meets.before hpast hsucc (runCreator_words h.meets.fresh hstep) hbuilds
      fun q hq => ?_
    rcases hsame q hq with heq | ⟨heq, -⟩ <;> rw [heq] <;> exact ⟨rfl, rfl⟩
  · by_cases hp : p = 0
    · subst hp
      intro hplace
      rcases hserving.place _ hplace with hcase | hcase <;> cases hcase
    · rcases hsame p hp with heq | ⟨heq, -⟩ <;> rw [heq] <;> exact h.apart p

end Bootstrap
end Memory
end HyLink
