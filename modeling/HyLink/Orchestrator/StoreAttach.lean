import HyLink.Orchestrator.PlanAgreement

/-!
# Attaching to the shared store

`ShmParamStore::Attach` in every rank, and what the ranks do on the segment afterwards.  A rank
attaches when it begins its first collective.  It holds the file lock throughout; each of its stores
is a step, and ranks that are attached go on meanwhile.

* `Attach.Inv` — until rank 0 is attached the others wait for its announcement.
* `Attach.Inv.refines` — once rank 0 is attached, the ranks are in a run from `attached`.
* `Attach.attach_sound_iff` — all orders of attaching are sound just if the segment is initialised,
  or its `param_read_count` was left at zero.
-/

namespace HyLink
namespace Orchestrator
namespace Feedback
namespace Attach

open Theory

variable {K : Type} [Field K] [LinearOrder K]

/-! ## What a rank stores -/

/-- The segment when it is opened: all zero where it is new, or left by an earlier run. -/
structure Segment (K : Type) where
  /-- The magic number is `kMagic`. -/
  magic : Bool
  nranks : ℕ
  statEpoch : ℕ
  slots : ℕ → StatSlot K
  entries : Entries K
  paramVersion : ℕ
  paramReadCount : ℕ
  barrierCount : ℕ
  barrierSense : Bool

inductive Store where
  | memset
  | statEpoch
  | nranks
  | paramReadCount
  | barrierCount
  | barrierSense
  | magic
  | valid (rank : ℕ)
  deriving DecidableEq, Repr

/-- What a rank has to do when it holds the lock. -/
inductive Task where
  | initialise
  | reset
  /-- There is nothing to do. -/
  | join
  deriving DecidableEq, Repr

def Task.stores (nranks : ℕ) : Task → List Store
  | .initialise =>
    [.memset, .statEpoch, .nranks, .paramReadCount, .barrierCount, .barrierSense, .magic]
  | .reset =>
    (List.range nranks).map .valid ++ [.statEpoch, .paramReadCount, .barrierCount, .barrierSense]
  | .join => []

/-- The holder of the lock, with the stores still to do. -/
structure Attaching where
  rank : ℕ
  task : Task
  todo : List Store
  deriving DecidableEq, Repr

/-- The header's two words that only `Attach` uses, and the rest of the segment with the ranks. -/
structure Shm (cfg : Config K) where
  magic : Bool
  nranks : ℕ
  store : Feedback.State cfg

/-- A slot of zeros. -/
def zeroSlot : StatSlot K := ⟨0, ⟨.allReduce, 0, 0, 0, 0, 0⟩, ⟨0, 0, 0, 0, false, false⟩, false, 0, 0⟩

variable {cfg : Config K}

def Shm.write (m : Shm cfg) : Store → Shm cfg
  | .memset =>
    { magic := false
      nranks := 0
      store := { m.store with
        statEpoch := 0
        slots := fun _ => zeroSlot
        entries := []
        paramVersion := 0
        paramReadCount := 0
        barrierCount := 0
        barrierSense := false } }
  | .statEpoch => { m with store := { m.store with statEpoch := 0 } }
  | .nranks => { m with nranks := cfg.nranks }
  | .paramReadCount => { m with store := { m.store with paramReadCount := 0 } }
  | .barrierCount => { m with store := { m.store with barrierCount := 0 } }
  | .barrierSense => { m with store := { m.store with barrierSense := false } }
  | .magic => { m with magic := true }
  | .valid r => { m with store := m.store.setSlot r { m.store.slots r with valid := false } }

/-! ## The ranks -/

/-- What a rank stores to the segment in a round. -/
inductive Item where
  | arrival
  | count
  | stat
  deriving DecidableEq, Repr

structure State (cfg : Config K) where
  shm : Shm cfg
  attaching : Option Attaching
  attached : ℕ → Bool
  /-- How often a rank has initialised the segment, and how often rank 0 has reset it (history). -/
  initialisations : ℕ
  resets : ℕ
  /-- What an attached rank has stored (history). -/
  made : ℕ → List Item

def Shm.Valid (m : Shm cfg) : Prop := m.magic = true ∧ m.nranks = cfg.nranks

instance (m : Shm cfg) : Decidable m.Valid := inferInstanceAs (Decidable (_ ∧ _))

def State.task (s : State cfg) (r : ℕ) : Task :=
  if s.shm.Valid then if r = 0 then .reset else .join else .initialise

/-- The rank is attached and releases the lock. -/
def State.finish (s : State cfg) (r : ℕ) (task : Task) : State cfg :=
  { s with
    attaching := none
    attached := Function.update s.attached r true
    initialisations := s.initialisations + if task = .initialise then 1 else 0
    resets := s.resets + if task = .reset then 1 else 0 }

/-- One step of `Attach`.  Nobody else looks at the header before the lock is taken, so this and
the checks are one step. -/
def attachStep (s : State cfg) (r : ℕ) : Option (State cfg) :=
  match s.attaching with
  | none =>
    if s.attached r then none
    else some { s with attaching := some ⟨r, s.task r, (s.task r).stores cfg.nranks⟩ }
  | some ⟨q, task, todo⟩ =>
    if q = r then
      match todo with
      | store :: todo => some { s with shm := s.shm.write store, attaching := some ⟨q, task, todo⟩ }
      | [] => some (s.finish r task)
    else none

def rankOf : Feedback.Label K → ℕ
  | .thread r _ | .startCallback r _ _ _ | .callback r _ => r

/-- What a step stores that others count on. -/
def items (s : Feedback.State cfg) : Feedback.Label K → List Item
  | .thread r _ =>
    match s.stage r with
    | .signal | .consume => [.count]
    | .arrive _ | .resetCount _ | .raiseSense _ => [.arrival]
    | _ => []
  | .startCallback .. => []
  | .callback .. => [.stat]

inductive Label (K : Type) where
  | attach (r : ℕ)
  /-- A step of an attached rank. -/
  | inner (l : Feedback.Label K)

def innerStep [FloorSemiring K] (s : State cfg) (l : Feedback.Label K) : Option (State cfg) :=
  if s.attached (rankOf l) then
    (Feedback.step s.shm.store l).map fun store =>
      { s with
        shm := { s.shm with store := store }
        made := Function.update s.made (rankOf l) (s.made (rankOf l) ++ items s.shm.store l) }
  else none

def step [FloorSemiring K] (s : State cfg) : Label K → Option (State cfg)
  | .attach r => if r < cfg.nranks then attachStep s r else none
  | .inner l => innerStep s l

def machine [FloorSemiring K] (cfg : Config K) : Machine (State cfg) (Label K) := ⟨step⟩

/-- Nobody is attached.  No rank looks at slots beyond its own number of ranks. -/
def start (cfg : Config K) (seg : Segment K) : State cfg where
  shm :=
    { magic := seg.magic
      nranks := seg.nranks
      store := { Feedback.attached cfg seg.slots seg.entries seg.paramVersion with
        statEpoch := seg.statEpoch
        slots := fun r => if r < cfg.nranks then seg.slots r else zeroSlot
        paramReadCount := seg.paramReadCount
        barrierCount := seg.barrierCount
        barrierSense := seg.barrierSense } }
  attaching := none
  attached := fun _ => false
  initialisations := 0
  resets := 0
  made := fun _ => []

/-! ## What is to hold -/

/-- The rank is where it waits for the announcement, or before. -/
def entering : Stage K → Bool
  | .idle | .waitConsumed | .waitParams => true
  | _ => false

/-- The rank has gone on with what it found in the segment. -/
def State.Proceeded (s : State cfg) (r : ℕ) : Prop :=
  entering (s.shm.store.stage r) = false ∨ s.shm.store.plans r ≠ []

/-- A store that takes back what rank `r` has stored. -/
def Store.Erases (r : ℕ) : Store → Item → Prop
  | .valid q, .stat => q = r
  | .statEpoch, .stat | .paramReadCount, .count | .barrierCount, .arrival
  | .barrierSense, .arrival => True
  | _, _ => False

/-- The words of a round are as for a new segment. -/
def Zero (st : Feedback.State cfg) : Prop :=
  st.statEpoch = 0 ∧ st.paramReadCount = 0 ∧ st.barrierCount = 0 ∧ st.barrierSense = false ∧
    ∀ q, (st.slots q).valid = false

structure Sound (s : State cfg) : Prop where
  /-- The segment is initialised at most once, and rank 0 resets it at most once. -/
  once : s.initialisations ≤ 1 ∧ s.resets ≤ 1
  /-- Nobody goes on before one of both. -/
  proceeds : ∀ r < cfg.nranks, s.Proceeded r → 0 < s.initialisations + s.resets
  /-- When rank 0 has attached, the words are those of a new segment. -/
  clean : ∀ task, s.attaching = some ⟨0, task, []⟩ → Zero s.shm.store
  /-- What rank 0 resets, nobody else has stored. -/
  keeps : ∀ todo, s.attaching = some ⟨0, .reset, todo⟩ → ∀ store ∈ todo, ∀ r, r ≠ 0 →
    ∀ item ∈ s.made r, ¬ store.Erases r item

/-- The header is that of an earlier run with as many ranks, so that nobody initialises the
segment. -/
def Segment.Stale (cfg : Config K) (seg : Segment K) : Prop :=
  seg.magic = true ∧ seg.nranks = cfg.nranks

/-! ## What a store leaves alone -/

/-- The ranks have not done anything. -/
structure Untouched (st : Feedback.State cfg) : Prop where
  cache : st.cache = fun _ => Table.empty
  controller : st.controller = fun _ => Table.empty
  pending : st.pending = fun _ => []
  running : st.running = fun _ => []
  plans : st.plans = fun _ => []
  announced : st.announced = []
  released : st.released = 0
  loads : st.loads = fun _ => 0
  loadsBefore : st.loadsBefore = fun _ => 0
  aggregated : st.aggregated = []

theorem write_stage (m : Shm cfg) (store : Store) : (m.write store).store.stage = m.store.stage := by
  cases store <;> rfl

theorem Untouched.write {m : Shm cfg} (h : Untouched m.store) (store : Store) :
    Untouched (m.write store).store := by
  obtain ⟨h1, h2, h3, h4, h5, h6, h7, h8, h9, h10⟩ := h
  cases store <;> exact ⟨h1, h2, h3, h4, h5, h6, h7, h8, h9, h10⟩

/-- A store of a reset keeps the header valid, and does not raise the count. -/
theorem write_reset {m : Shm cfg} (hm : m.Valid) {store : Store}
    (hmem : store ∈ Task.reset.stores cfg.nranks) :
    (m.write store).Valid ∧
      (m.store.paramReadCount = 0 → (m.write store).store.paramReadCount = 0) := by
  simp only [Task.stores, List.mem_append, List.mem_map, List.mem_cons, List.not_mem_nil,
    or_false] at hmem
  rcases hmem with ⟨r, -, rfl⟩ | rfl | rfl | rfl | rfl
  · exact ⟨hm, id⟩
  · exact ⟨hm, id⟩
  · exact ⟨hm, fun _ => rfl⟩
  · exact ⟨hm, id⟩
  · exact ⟨hm, id⟩

/-- A store invalidates slots only. -/
theorem write_valid {m : Shm cfg} {q : ℕ} (h : (m.store.slots q).valid = false) (store : Store) :
    ((m.write store).store.slots q).valid = false := by
  cases store with
  | memset => rfl
  | valid r =>
    show (Function.update m.store.slots r _ q).valid = false
    by_cases hqr : q = r
    · rw [hqr, Function.update_self]
    · rw [Function.update_of_ne hqr]
      exact h
  | statEpoch | nranks | paramReadCount | barrierCount | barrierSense | magic => exact h

/-- The slots of a list of ranks are reset. -/
theorem foldl_valid (l : List ℕ) (m : Shm cfg) {q : ℕ}
    (h : q ∉ l → (m.store.slots q).valid = false) :
    (((l.map Store.valid).foldl Shm.write m).store.slots q).valid = false := by
  induction l generalizing m with
  | nil => exact h List.not_mem_nil
  | cons r l ih =>
    refine ih _ fun hmem => ?_
    show (Function.update m.store.slots r _ q).valid = false
    by_cases hqr : q = r
    · rw [hqr, Function.update_self]
    · rw [Function.update_of_ne hqr]
      exact h fun hin => (List.mem_cons.1 hin).elim hqr hmem

theorem foldl_initialise (m : Shm cfg) :
    ((Task.initialise.stores cfg.nranks).foldl Shm.write m).Valid ∧
      Zero ((Task.initialise.stores cfg.nranks).foldl Shm.write m).store :=
  ⟨⟨rfl, rfl⟩, rfl, rfl, rfl, rfl, fun _ => rfl⟩

theorem foldl_reset (m : Shm cfg) (h : ∀ q, cfg.nranks ≤ q → (m.store.slots q).valid = false) :
    Zero ((Task.reset.stores cfg.nranks).foldl Shm.write m).store := by
  unfold Task.stores
  rw [List.foldl_append]
  refine ⟨rfl, rfl, rfl, rfl, fun q => ?_⟩
  refine foldl_valid (List.range cfg.nranks) m fun hmem => h q ?_
  exact not_lt.1 fun hlt => hmem (List.mem_range.2 hlt)

/-- Stores do not mind where the ranks stand. -/
theorem foldl_goto (todo : List Store) (m : Shm cfg) (r : ℕ) (stage : Stage K) :
    todo.foldl Shm.write { m with store := m.store.goto r stage } =
      { todo.foldl Shm.write m with store := (todo.foldl Shm.write m).store.goto r stage } := by
  induction todo generalizing m with
  | nil => rfl
  | cons store todo ih =>
    rw [List.foldl_cons, List.foldl_cons, ← ih]
    congr 1
    cases store <;> rfl

/-! ## What holds in every state -/

/-- The rank has taken no step, or waits for the announcement. -/
def Waits (st : Feedback.State cfg) (r : ℕ) : Prop :=
  st.stage r = .idle ∨ st.stage r = .waitParams ∧ r ≠ 0 ∧ r < cfg.nranks

/-- What holds until rank 0 is attached. -/
structure Before (s : State cfg) : Prop where
  untouched : Untouched s.shm.store
  waits : ∀ r, Waits s.shm.store r
  made : ∀ r, s.made r = []
  resets : s.resets = 0
  /-- Nobody can pass the wait. -/
  consumed : (∀ a, s.attaching = some a → a.task ≠ .initialise) → s.shm.Valid →
    s.shm.store.paramReadCount = 0
  slots : ∀ q, cfg.nranks ≤ q → (s.shm.store.slots q).valid = false

/-- The attached ranks are in a run from `attached`. -/
def Joined [FloorSemiring K] (st : Feedback.State cfg) : Prop :=
  ∃ slots entries version labels, (Feedback.machine cfg).runFrom Machine.anyStep
    (Feedback.attached cfg slots entries version) labels = some st

/-- What the holder of the lock may count on. -/
structure Holds (s : State cfg) (a : Attaching) : Prop where
  rank : a.rank < cfg.nranks
  waiting : s.attached a.rank = false
  leader : a.task = .reset → a.rank = 0
  join : a.task = .join → a.rank ≠ 0
  todo : a.todo <:+ a.task.stores cfg.nranks
  /-- Nobody is attached while the segment is initialised. -/
  alone : a.task = .initialise → (∀ r, s.attached r = false) ∧ s.initialisations = 0
  /-- The segment will be initialised. -/
  header : a.task = .initialise → (a.todo.foldl Shm.write s.shm).Valid ∧
    Zero (a.todo.foldl Shm.write s.shm).store
  valid : a.task ≠ .initialise → s.shm.Valid
  clean : a.rank = 0 → Zero (a.todo.foldl Shm.write s.shm).store

structure Inv [FloorSemiring K] (s : State cfg) : Prop where
  holds : ∀ a, s.attaching = some a → Holds s a
  valid : ∀ r, s.attached r = true → s.shm.Valid
  initialised : s.initialisations ≤ 1 ∧ (s.initialisations ≠ 0 → ∃ r, s.attached r = true)
  before : s.attached 0 = false → Before s
  after : s.attached 0 = true →
    s.resets ≤ 1 ∧ 0 < s.initialisations + s.resets ∧ Joined s.shm.store

variable [FloorSemiring K] {s s' : State cfg} {r : ℕ}

/-! ## Rank 0 is attached -/

/-- Some ranks go to wait for the announcement. -/
theorem run_waiting (l : List ℕ) (hnodup : l.Nodup) (st : Feedback.State cfg)
    (h : ∀ r ∈ l, st.stage r = .idle ∧ r ≠ 0 ∧ r < cfg.nranks) :
    (Feedback.machine cfg).runFrom Machine.anyStep st (l.map fun r => .thread r none) =
      some { st with stage := fun r => if r ∈ l then .waitParams else st.stage r } := by
  induction l generalizing st with
  | nil => rfl
  | cons r l ih =>
    obtain ⟨hr, hl⟩ := List.nodup_cons.1 hnodup
    obtain ⟨hidle, hne, hlt⟩ := h r List.mem_cons_self
    have hstep : (Feedback.machine cfg).step st (.thread r none) = some (st.goto r .waitParams) := by
      show (if r < cfg.nranks then threadStep st r none else none) = _
      rw [if_pos hlt]
      unfold threadStep
      rw [hidle]
      simp only [if_neg hne]
    refine (Machine.runFrom_cons_eq_some _).2 ⟨rfl, _, hstep, ?_⟩
    rw [ih hl]
    · congr 2
      funext q
      by_cases hq : q = r
      · subst hq
        rw [if_neg hr, if_pos List.mem_cons_self]
        exact Function.update_self _ _ _
      · have hstay : (st.goto r .waitParams).stage q = st.stage q := Function.update_of_ne hq _ _
        simp only [List.mem_cons, hq, false_or, hstay]
    · intro q hq
      obtain ⟨hidle', hne', hlt'⟩ := h q (List.mem_cons_of_mem _ hq)
      have hqr : q ≠ r := by
        rintro rfl
        exact hr hq
      exact ⟨(Function.update_of_ne hqr _ _).trans hidle', hne', hlt'⟩

/-- **The ranks are where the others' model of the store begins.** -/
theorem joined_of_before {st : Feedback.State cfg} (hun : Untouched st) (hzero : Zero st)
    (hwaits : ∀ r, Waits st r) : Joined st := by
  classical
  have hrun := run_waiting
    ((List.range cfg.nranks).filter fun r => decide (st.stage r = .waitParams))
    (List.nodup_range.filter _) (Feedback.attached cfg st.slots st.entries st.paramVersion) ?_
  · refine ⟨st.slots, st.entries, st.paramVersion, _, hrun.trans ?_⟩
    have hslots : (fun r => { st.slots r with valid := false }) = st.slots := by
      funext q
      rw [← hzero.2.2.2.2 q]
    have hstage : (fun r => if r ∈ (List.range cfg.nranks).filter
        fun r => decide (st.stage r = .waitParams) then .waitParams else .idle) = st.stage := by
      funext q
      rcases hwaits q with hidle | ⟨hwait, -, hlt⟩
      · rw [if_neg, hidle]
        simp [hidle]
      · rw [if_pos, hwait]
        simp [hwait, hlt]
    obtain ⟨h1, h2, h3, h4, h5, h6, h7, h8, h9, h10⟩ := hun
    obtain ⟨z1, z2, z3, z4, -⟩ := hzero
    obtain ⟨statEpoch, slots, entries, paramVersion, paramReadCount, barrierCount, barrierSense,
      stage, cache, controller, pending, running, plans, announced, released, loads, loadsBefore,
      aggregated⟩ := st
    dsimp only at *
    subst h1 h2 h3 h4 h5 h6 h7 h8 h9 h10 z1 z2 z3 z4
    unfold Feedback.attached
    dsimp only
    rw [hslots, hstage]
  · intro r hr
    obtain ⟨hmem, hstage⟩ := List.mem_filter.1 hr
    have hwait := of_decide_eq_true hstage
    rcases hwaits r with hidle | ⟨-, hne, hlt⟩
    · rw [hidle] at hwait
      cases hwait
    · exact ⟨rfl, hne, hlt⟩

/-! ## Every step -/

namespace Inv

/-- **A rank takes the lock** and looks at the header. -/
theorem lock (h : Inv s) (hr : r < cfg.nranks) (hnone : s.attaching = none)
    (hat : s.attached r = false) :
    Inv { s with attaching := some ⟨r, s.task r, (s.task r).stores cfg.nranks⟩ } := by
  have htask : s.shm.Valid ∧ (r = 0 ∧ s.task r = .reset ∨ r ≠ 0 ∧ s.task r = .join) ∨
      ¬ s.shm.Valid ∧ s.task r = .initialise := by
    unfold State.task
    by_cases hv : s.shm.Valid
    · refine .inl ⟨hv, ?_⟩
      by_cases h0 : r = 0
      · exact .inl ⟨h0, by rw [if_pos hv, if_pos h0]⟩
      · exact .inr ⟨h0, by rw [if_pos hv, if_neg h0]⟩
    · exact .inr ⟨hv, by rw [if_neg hv]⟩
  refine ⟨?_, h.valid, h.initialised, ?_, h.after⟩
  · rintro a ⟨⟩
    refine ⟨hr, hat, ?_, ?_, List.suffix_refl _, ?_, ?_, ?_, ?_⟩
    · intro hreset
      rcases htask with ⟨-, ⟨h0, -⟩ | ⟨-, ht⟩⟩ | ⟨-, ht⟩
      · exact h0
      · cases ht.symm.trans hreset
      · cases ht.symm.trans hreset
    · intro hjoin
      rcases htask with ⟨-, ⟨-, ht⟩ | ⟨h0, -⟩⟩ | ⟨-, ht⟩
      · cases ht.symm.trans hjoin
      · exact h0
      · cases ht.symm.trans hjoin
    · -- nobody has attached to a header that is not valid
      intro hinit
      rcases htask with ⟨-, ⟨-, ht⟩ | ⟨-, ht⟩⟩ | ⟨hv, -⟩
      · cases ht.symm.trans hinit
      · cases ht.symm.trans hinit
      · have hnobody : ∀ q, s.attached q = false := fun q =>
          Bool.eq_false_iff.2 fun hq => hv (h.valid q hq)
        refine ⟨hnobody, ?_⟩
        by_contra hne
        obtain ⟨q, hq⟩ := h.initialised.2 hne
        rw [hnobody q] at hq
        cases hq
    · intro hinit
      dsimp only at hinit ⊢
      rw [hinit]
      exact foldl_initialise _
    · intro hne
      rcases htask with ⟨hv, -⟩ | ⟨-, ht⟩
      · exact hv
      · exact absurd ht hne
    · intro h0
      dsimp only at h0 ⊢
      rcases htask with ⟨-, ⟨-, ht⟩ | ⟨hne, -⟩⟩ | ⟨-, ht⟩
      · rw [ht]
        exact foldl_reset _ (h.before (h0 ▸ hat)).slots
      · exact absurd h0 hne
      · rw [ht]
        exact (foldl_initialise _).2
  · intro h0
    obtain ⟨h1, h2, h3, h4, h5, h6⟩ := h.before h0
    exact ⟨h1, h2, h3, h4, fun _ => h5 (by rw [hnone]; exact nofun), h6⟩

/-- **The holder of the lock stores.** -/
theorem write (h : Inv s) {q : ℕ} {task : Task} {store : Store} {todo : List Store}
    (hat : s.attaching = some ⟨q, task, store :: todo⟩) :
    Inv { s with shm := s.shm.write store, attaching := some ⟨q, task, todo⟩ } := by
  have hold := h.holds _ hat
  have hmem : store ∈ task.stores cfg.nranks := hold.todo.subset List.mem_cons_self
  -- the header is valid throughout a reset
  have hvalid : task ≠ .initialise → (s.shm.write store).Valid ∧
      (s.shm.store.paramReadCount = 0 → (s.shm.write store).store.paramReadCount = 0) := by
    intro hne
    cases task with
    | initialise => exact absurd rfl hne
    | reset => exact write_reset (hold.valid hne) hmem
    | join => cases hmem
  have hsome : ∀ r, s.attached r = true → task ≠ .initialise := by
    rintro r hr rfl
    rw [(hold.alone rfl).1 r] at hr
    cases hr
  refine ⟨?_, fun r hr => (hvalid (hsome r hr)).1, h.initialised, ?_, ?_⟩
  · rintro a ⟨⟩
    exact ⟨hold.rank, hold.waiting, hold.leader, hold.join,
      (List.suffix_cons store todo).trans hold.todo, hold.alone, hold.header,
      fun hne => (hvalid hne).1, hold.clean⟩
  · intro h0
    have hb := h.before h0
    refine ⟨hb.untouched.write store, ?_, hb.made, hb.resets, ?_, ?_⟩
    · intro r
      have hw := hb.waits r
      unfold Waits at hw ⊢
      rw [write_stage]
      exact hw
    · intro hne _
      have hne' : task ≠ .initialise := hne _ rfl
      refine (hvalid hne').2 (hb.consumed ?_ (hold.valid hne'))
      rintro a ha
      rw [hat] at ha
      cases ha
      exact hne'
    · exact fun q hq => write_valid (hb.slots q hq) store
  · -- whoever attaches after rank 0 has nothing to store
    intro h0
    exfalso
    cases task with
    | initialise => exact hsome 0 h0 rfl
    | reset =>
      have hwaiting := hold.waiting
      rw [hold.leader rfl, h0] at hwaiting
      cases hwaiting
    | join => cases hmem

/-- **A rank is attached.** -/
theorem finish (h : Inv s) {q : ℕ} {task : Task} (hat : s.attaching = some ⟨q, task, []⟩) :
    Inv (s.finish q task) := by
  have hold := h.holds _ hat
  have hvalid : s.shm.Valid := by
    by_cases hinit : task = .initialise
    · exact (hold.header hinit).1
    · exact hold.valid hinit
  have hattached : ∀ {r}, r ≠ q → (s.finish q task).attached r = s.attached r :=
    fun hr => Function.update_of_ne hr _ _
  have hself : (s.finish q task).attached q = true := Function.update_self _ _ _
  have hle : (s.finish q task).initialisations ≤ 1 := by
    show s.initialisations + (if task = .initialise then 1 else 0) ≤ 1
    split
    · rename_i hinit
      rw [(hold.alone hinit).2]
    · exact h.initialised.1
  refine ⟨nofun, fun _ _ => hvalid, ⟨hle, fun _ => ⟨q, hself⟩⟩, ?_, ?_⟩
  · intro h0
    have hne : 0 ≠ q := by
      rintro rfl
      rw [hself] at h0
      cases h0
    rw [hattached hne] at h0
    obtain ⟨h1, h2, h3, h4, h5, h6⟩ := h.before h0
    refine ⟨h1, h2, h3, ?_, fun _ _ => ?_, h6⟩
    · have hreset : task ≠ .reset := fun ht => hne (hold.leader ht).symm
      show s.resets + (if task = .reset then 1 else 0) = 0
      rw [if_neg hreset, h4]
    · by_cases hinit : task = .initialise
      · exact (hold.header hinit).2.2.1
      · refine h5 ?_ hvalid
        intro a ha
        rw [hat] at ha
        cases ha
        exact hinit
  · intro h0
    show s.resets + (if task = .reset then 1 else 0) ≤ 1 ∧
      0 < s.initialisations + (if task = .initialise then 1 else 0) +
        (s.resets + if task = .reset then 1 else 0) ∧ Joined s.shm.store
    by_cases hq : q = 0
    · subst hq
      have hb := h.before hold.waiting
      have hzero : Zero s.shm.store := hold.clean rfl
      have hjoined := joined_of_before hb.untouched hzero hb.waits
      rw [hb.resets]
      cases task with
      | initialise => exact ⟨Nat.zero_le _, by simp, hjoined⟩
      | reset => exact ⟨le_refl _, by simp, hjoined⟩
      | join => exact absurd rfl (hold.join rfl)
    · rw [hattached (Ne.symm hq)] at h0
      obtain ⟨h1, h2, h3⟩ := h.after h0
      have hreset : task ≠ .reset := fun ht => hq (hold.leader ht)
      rw [if_neg hreset]
      exact ⟨h1, by omega, h3⟩

/-- A rank that is attached before rank 0 can only begin to wait. -/
theorem inner_before (h : Inv s) (h0 : s.attached 0 = false) {l : Feedback.Label K}
    (hat : s.attached (rankOf l) = true) {st : Feedback.State cfg}
    (hstep : Feedback.step s.shm.store l = some st) :
    st = s.shm.store.goto (rankOf l) .waitParams ∧ rankOf l ≠ 0 ∧ rankOf l < cfg.nranks ∧
      items s.shm.store l = [] := by
  have hb := h.before h0
  have hne : rankOf l ≠ 0 := by
    intro hzero
    rw [hzero, h0] at hat
    cases hat
  cases l with
  | thread r raced =>
    have hne' : r ≠ 0 := hne
    simp only [Feedback.step] at hstep
    split at hstep
    · rename_i hr
      unfold threadStep at hstep
      rcases hb.waits r with hidle | ⟨hwait, -, -⟩
      · rw [hidle] at hstep
        dsimp only at hstep
        rw [if_neg hne'] at hstep
        cases hstep
        refine ⟨rfl, hne, hr, ?_⟩
        simp only [items, hidle]
      · have hcount : s.shm.store.paramReadCount = 0 := by
          refine hb.consumed ?_ (h.valid _ hat)
          intro a ha hinit
          have hnobody := ((h.holds a ha).alone hinit).1 r
          rw [show s.attached r = true from hat] at hnobody
          cases hnobody
        rw [hwait] at hstep
        dsimp only at hstep
        rw [if_pos hcount] at hstep
        cases hstep
    · cases hstep
  | startCallback r i fast pcie =>
    exfalso
    simp only [Feedback.step] at hstep
    split at hstep
    · unfold startCallback at hstep
      rw [hb.untouched.pending] at hstep
      cases hstep
    · cases hstep
  | callback r i =>
    exfalso
    simp only [Feedback.step] at hstep
    split at hstep
    · unfold callbackStep at hstep
      rw [hb.untouched.running] at hstep
      cases hstep
    · cases hstep

/-- **An attached rank takes a step.** -/
theorem inner (h : Inv s) {l : Feedback.Label K} (hat : s.attached (rankOf l) = true)
    {st : Feedback.State cfg} (hstep : Feedback.step s.shm.store l = some st) :
    Inv { s with
      shm := { s.shm with store := st }
      made := Function.update s.made (rankOf l) (s.made (rankOf l) ++ items s.shm.store l) } := by
  have hnot : ∀ a, s.attaching = some a → a.task ≠ .initialise := by
    intro a ha hinit
    rw [((h.holds a ha).alone hinit).1] at hat
    cases hat
  refine ⟨?_, fun r hr => h.valid r hr, h.initialised, ?_, ?_⟩
  · intro a ha
    have hold := h.holds a ha
    refine ⟨hold.rank, hold.waiting, hold.leader, hold.join, hold.todo, hold.alone,
      fun hinit => absurd hinit (hnot a ha), hold.valid, ?_⟩
    intro hzero
    have h0 : s.attached 0 = false := hzero ▸ hold.waiting
    obtain ⟨rfl, -⟩ := h.inner_before h0 hat hstep
    show Zero (a.todo.foldl Shm.write _).store
    rw [foldl_goto]
    exact hold.clean hzero
  · intro h0
    have hb := h.before h0
    obtain ⟨rfl, hne, hlt, hitems⟩ := h.inner_before h0 hat hstep
    obtain ⟨h1, h2, h3, h4, h5, h6, h7, h8, h9, h10⟩ := hb.untouched
    refine ⟨⟨h1, h2, h3, h4, h5, h6, h7, h8, h9, h10⟩, ?_, ?_, hb.resets, hb.consumed, hb.slots⟩
    · intro r
      by_cases hr : r = rankOf l
      · subst hr
        exact .inr ⟨Function.update_self _ _ _, hne, hlt⟩
      · have hstay : (s.shm.store.goto (rankOf l) .waitParams).stage r = s.shm.store.stage r :=
          Function.update_of_ne hr _ _
        have hw := hb.waits r
        unfold Waits at hw ⊢
        rw [hstay]
        exact hw
    · intro r
      rw [hitems, List.append_nil, Function.update_eq_self]
      exact hb.made r
  · intro h0
    obtain ⟨h1, h2, slots, entries, version, labels, hrun⟩ := h.after h0
    refine ⟨h1, h2, slots, entries, version, labels ++ [l], ?_⟩
    rw [Machine.runFrom_append, hrun]
    exact (Machine.runFrom_cons_eq_some _).2 ⟨rfl, _, hstep, rfl⟩

theorem step (h : Inv s) {l : Label K} (hstep : Attach.step s l = some s') : Inv s' := by
  cases l with
  | attach r =>
    simp only [Attach.step] at hstep
    split at hstep
    · rename_i hr
      unfold attachStep at hstep
      split at hstep
      · rename_i hnone
        split at hstep
        · cases hstep
        · rename_i hat
          cases hstep
          exact h.lock hr hnone (Bool.eq_false_iff.2 hat)
      · rename_i q task todo hat
        split at hstep
        · rename_i hq
          subst hq
          split at hstep
          · cases hstep
            exact h.write hat
          · cases hstep
            exact h.finish hat
        · cases hstep
    · cases hstep
  | inner l =>
    simp only [Attach.step, innerStep] at hstep
    split at hstep
    · rename_i hat
      obtain ⟨st, hst, rfl⟩ := Option.map_eq_some_iff.1 hstep
      exact h.inner hat hst
    · cases hstep

/-- The segment is new, or its `param_read_count` was left at zero. -/
theorem start {seg : Segment K} (hseg : seg.Stale cfg → seg.paramReadCount = 0) :
    Inv (Attach.start cfg seg) := by
  refine ⟨nofun, nofun, ⟨Nat.zero_le _, fun h => absurd rfl h⟩, fun _ => ?_, nofun⟩
  refine ⟨⟨rfl, rfl, rfl, rfl, rfl, rfl, rfl, rfl, rfl, rfl⟩, fun _ => .inl rfl, fun _ => rfl, rfl,
    fun _ hvalid => hseg hvalid, ?_⟩
  intro q hq
  show (if q < cfg.nranks then seg.slots q else zeroSlot).valid = false
  rw [if_neg (not_lt.2 hq)]
  rfl

theorem sound (h : Inv s) : Sound s := by
  have hresets : s.resets ≤ 1 := by
    cases h0 : s.attached 0 with
    | false => rw [(h.before h0).resets]; exact Nat.zero_le _
    | true => exact (h.after h0).1
  refine ⟨⟨h.initialised.1, hresets⟩, ?_, ?_, ?_⟩
  · intro r _ hproceeded
    cases h0 : s.attached 0 with
    | false =>
      have hb := h.before h0
      rcases hproceeded with hstage | hplans
      · rcases hb.waits r with hidle | ⟨hwait, -⟩
        · rw [hidle] at hstage
          cases hstage
        · rw [hwait] at hstage
          cases hstage
      · rw [hb.untouched.plans] at hplans
        exact absurd rfl hplans
    | true => exact (h.after h0).2.1
  · intro task hat
    exact (h.holds _ hat).clean rfl
  · intro todo hat store _ r _ item hitem
    have hb := h.before (h.holds _ hat).waiting
    rw [hb.made r] at hitem
    cases hitem

end Inv

/-- **The ranks start as if they were all attached:** what the attached ranks do once rank 0 is one
of them, they do in a run from `attached`. -/
theorem Inv.refines (cfg : Config K) {seg : Segment K}
    (hseg : seg.Stale cfg → seg.paramReadCount = 0) {labels : List (Label K)} {s : State cfg}
    (hrun : (machine cfg).runFrom Machine.anyStep (Attach.start cfg seg) labels = some s)
    (h0 : s.attached 0 = true) : Joined s.shm.store :=
  (((machine cfg).invariant (I := Inv) (fun _ _ _ hs _ hstep => hs.step hstep) (.start hseg)
    hrun).after h0).2.2

/-- Rank 1 attaches, and goes on with the count it finds. -/
def early : List (Label K) :=
  [.attach 1, .attach 1, .inner (.thread 1 none), .inner (.thread 1 none)]

omit [FloorSemiring K] in
theorem attach_self (hnone : s.attaching = none) (hat : s.attached r = false)
    (htask : s.task r = .join) :
    attachStep s r = some { s with attaching := some ⟨r, .join, []⟩ } := by
  unfold attachStep
  rw [hnone]
  dsimp only
  rw [hat, htask]
  rfl

theorem step_thread (hat : s.attached r = true) (hr : r < cfg.nranks) {st : Feedback.State cfg}
    (hthread : threadStep s.shm.store r none = some st) :
    ∃ s', step s (.inner (.thread r none)) = some s' ∧ s'.shm.store = st ∧
      s'.attached = s.attached ∧ s'.initialisations = s.initialisations ∧ s'.resets = s.resets := by
  have hinner : Feedback.step s.shm.store (.thread r none) = some st := by
    show (if r < cfg.nranks then threadStep s.shm.store r none else none) = some st
    rw [if_pos hr, hthread]
  refine ⟨{ s with
    shm := { s.shm with store := st }
    made := Function.update s.made r (s.made r ++ items s.shm.store (.thread r none)) }, ?_,
    rfl, rfl, rfl, rfl⟩
  show innerStep s (.thread r none) = _
  unfold innerStep
  rw [if_pos (show s.attached (rankOf (.thread r none)) = true from hat), hinner]
  rfl

omit [FloorSemiring K] in
theorem goto_stage_self (st : Feedback.State cfg) (r : ℕ) (stage : Stage K) :
    (st.goto r stage).stage r = stage := by
  unfold Feedback.State.goto
  exact Function.update_self _ _ _

theorem run_early {seg : Segment K} (hstale : seg.Stale cfg) (hcount : seg.paramReadCount ≠ 0) :
    ∃ s, (machine cfg).runFrom Machine.anyStep (start cfg seg) early = some s ∧
      s.shm.store.stage 1 = .readVersion 0 ∧ s.initialisations = 0 ∧ s.resets = 0 := by
  have h1 : 1 < cfg.nranks := cfg.two_le
  have htask : (start cfg seg).task 1 = .join := by
    unfold State.task
    rw [if_pos (show (start cfg seg).shm.Valid from hstale), if_neg Nat.one_ne_zero]
  have hattach : ∀ s : State cfg, step s (.attach 1) = attachStep s 1 := fun _ => if_pos h1
  have hlock : step (start cfg seg) (.attach 1) =
      some { start cfg seg with attaching := some ⟨1, .join, []⟩ } := by
    rw [hattach, attach_self rfl rfl htask]
  -- rank 1 has nothing to store
  have hjoin : step { start cfg seg with attaching := some ⟨1, .join, []⟩ } (.attach 1) =
      some ((start cfg seg).finish 1 .join) := hattach _
  have hidle : threadStep (start cfg seg).shm.store 1 none =
      some ((start cfg seg).shm.store.goto 1 .waitParams) := rfl
  obtain ⟨s₁, hstep₁, hstore₁, hat₁, hinit₁, hreset₁⟩ :=
    step_thread (s := (start cfg seg).finish 1 .join) rfl h1 hidle
  have hwait : threadStep s₁.shm.store 1 none =
      some (s₁.shm.store.goto 1 (.readVersion 0)) := by
    rw [hstore₁]
    exact if_neg hcount
  obtain ⟨s₂, hstep₂, hstore₂, -, hinit₂, hreset₂⟩ := step_thread (by rw [hat₁]; rfl) h1 hwait
  refine ⟨s₂, ?_, ?_, by rw [hinit₂, hinit₁]; rfl, by rw [hreset₂, hreset₁]; rfl⟩
  · refine (Machine.runFrom_cons_eq_some _).2 ⟨rfl, _, hlock, ?_⟩
    refine (Machine.runFrom_cons_eq_some _).2 ⟨rfl, _, hjoin, ?_⟩
    refine (Machine.runFrom_cons_eq_some _).2 ⟨rfl, _, hstep₁, ?_⟩
    exact (Machine.runFrom_cons_eq_some _).2 ⟨rfl, _, hstep₂, rfl⟩
  · rw [hstore₂]
    exact goto_stage_self _ _ _

/-- **Attaching is sound just if nothing of the earlier run is waited for.**  In all orders and all
interleavings in which the ranks attach to a segment and go on, the segment is initialised once,
nobody goes on before that, and rank 0's reset takes nothing back, if and only if the segment is
initialised by the first rank or its `param_read_count` was left at zero. -/
theorem attach_sound_iff (cfg : Config K) (seg : Segment K) :
    (∀ labels s, (machine cfg).runFrom Machine.anyStep (start cfg seg) labels = some s → Sound s) ↔
      (seg.Stale cfg → seg.paramReadCount = 0) := by
  constructor
  · intro hall hstale
    by_contra hcount
    obtain ⟨s, hrun, hstage, hinit, hreset⟩ := run_early hstale hcount
    have hpos := (hall _ s hrun).proceeds 1 cfg.two_le (.inl (by rw [hstage]; rfl))
    omega
  · intro hseg labels s hrun
    exact ((machine cfg).invariant (I := Inv) (fun _ _ _ hs _ hstep => hs.step hstep) (.start hseg)
      hrun).sound

/-! ## A segment of a run that ended early -/

/-- Rank 1 had not read the last announcement. -/
def unread : Segment ℚ := ⟨true, 2, 0, fun _ => emptySlot, [], 0, 1, 0, false⟩

/-- Rank 1 reads what is left and arrives at the barrier; then rank 0 takes the lock. -/
def lateReset : List (Label ℚ) :=
  [.attach 1, .attach 1] ++ List.replicate 9 (.inner (.thread 1 none)) ++ [.attach 0]

/-- **Attaching is not sound:** rank 1 goes on with what the earlier run left, and rank 0 then resets
the barrier at which it has arrived. -/
theorem attach_unsound :
    (¬ ∀ labels s, (machine twoRanks).runFrom Machine.anyStep (start twoRanks unread) labels =
      some s → Sound s) ∧
    ¬ ∀ labels s, (machine twoRanks).runFrom Machine.anyStep (start twoRanks unread) labels =
      some s → ∀ todo, s.attaching = some ⟨0, .reset, todo⟩ → ∀ store ∈ todo, ∀ r, r ≠ 0 →
        ∀ item ∈ s.made r, ¬ store.Erases r item := by
  have hobs : ((machine twoRanks).runFrom Machine.anyStep (start twoRanks unread) lateReset).map
      (fun s => (s.attaching, s.made 1)) =
      some (some ⟨0, .reset, Task.reset.stores 2⟩, [.count, .arrival]) := by decide +kernel
  obtain ⟨s, hrun, hs⟩ := Option.map_eq_some_iff.1 hobs
  obtain ⟨hattaching, hmade⟩ := Prod.mk.inj hs
  have herased : ¬ ∀ todo, s.attaching = some ⟨0, .reset, todo⟩ → ∀ store ∈ todo, ∀ r, r ≠ 0 →
      ∀ item ∈ s.made r, ¬ store.Erases r item := by
    intro hkeeps
    exact hkeeps _ hattaching .barrierCount (by decide) 1 Nat.one_ne_zero .arrival
      (by rw [hmade]; decide) trivial
  exact ⟨fun hall => herased (hall _ s hrun).keeps, fun hall => herased (hall _ s hrun)⟩

end Attach
end Feedback
end Orchestrator
end HyLink
