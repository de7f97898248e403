import Mathlib.Tactic.IntervalCases
import HyLink.Ascend.CommSlots
import HyLink.Api.Submit

/-!
# The shared state of a communicator

A process makes its shared state and its host pool once, with the first communicator it creates:
rank 0 creates the named segments of that communicator, the other ranks open them; without a unique
id both are of the process alone.  Every communicator of the process takes a slot in its shared
state, the same for all where the process is on its own.

* `Names` — objects that are created and opened by name.
* `segments_kept` — where all processes of a communicator began with one communicator, a process on
  its own has one communicator, and keys of communicators differ, the ranks of a communicator are in
  one slot of one segment, and those of two communicators are not.
* `single_slot_shared` — two communicators of a process on its own.
-/

namespace HyLink
namespace Api
namespace CommSegment

open Theory
open Ascend.CommSlots (Words CommHash maxConcurrentComms hashCommKey probeIdx Sound)

/-! ## Communicators -/

def isUniqueIdZero (id : List UInt8) : Bool := id.all fun b => decide (b = 0)

/-- A communicator, with the process of each rank. -/
structure Comm where
  uniqueId : List UInt8
  nranks : ℕ
  place : ℕ → ℕ

/-- The communicators there are; a unique id that is not zero is that of one of them. -/
structure Config where
  backend : Backend
  comm : ℕ → Comm
  distinct : ∀ c d, (comm c).uniqueId = (comm d).uniqueId →
    isUniqueIdZero (comm c).uniqueId = false → c = d

namespace Config

variable (cfg : Config)

/-- The process of a communicator that comes first is in multi-process mode. -/
def multi (first : ℕ) : Bool := !isUniqueIdZero (cfg.comm first).uniqueId

def hash (c : ℕ) : CommHash := hashCommKey (cfg.comm c).uniqueId (cfg.comm c).nranks

end Config

/-! ## Objects with a name -/

/-- The segments of one kind, on the heap or under a name. -/
structure Names where
  next : ℕ
  name : List UInt8 → Option ℕ

/-- The creator unlinks what the name stood for and makes a new segment, the others open it once it
is there; without a unique id the object is on the heap. -/
def Names.acquire (n : Names) (uniqueId : List UInt8) (isCreator : Bool) : Option (ℕ × Names) :=
  if isUniqueIdZero uniqueId then some (n.next, { n with next := n.next + 1 })
  else if isCreator then
    some (n.next,
      { next := n.next + 1, name := Function.update n.name uniqueId (some n.next) })
  else (n.name uniqueId).map fun o => (o, n)

/-- `held` gives the object of a process and the communicator it came with. -/
structure Names.Ok (cfg : Config) (n : Names) (held : ℕ → Option (ℕ × ℕ)) : Prop where
  lt : ∀ p o f, held p = some (o, f) → o < n.next
  name_lt : ∀ u o, n.name u = some o → o < n.next
  named : ∀ p o f, held p = some (o, f) → cfg.multi f = true →
    n.name (cfg.comm f).uniqueId = some o
  owner : ∀ f o, n.name (cfg.comm f).uniqueId = some o → cfg.multi f = true →
    held ((cfg.comm f).place 0) ≠ none
  users : ∀ u o p f, n.name u = some o → held p = some (o, f) → (cfg.comm f).uniqueId = u
  name_inj : ∀ u u' o, n.name u = some o → n.name u' = some o → u = u'
  apart : ∀ p q o f g, held p = some (o, f) → held q = some (o, g) →
    p = q ∨ f = g ∧ cfg.multi f = true

variable {cfg : Config}

theorem Config.eq_of_uniqueId {c d : ℕ} (h : (cfg.comm c).uniqueId = (cfg.comm d).uniqueId)
    (hm : cfg.multi c = true) : c = d :=
  cfg.distinct c d h (by simpa [multi] using hm)

/-- A process that has no object yet gets one with a rank of its first communicator. -/
theorem Names.Ok.acquire {n n' : Names} {held : ℕ → Option (ℕ × ℕ)} (h : n.Ok cfg held)
    {p o f r : ℕ} (hp : held p = none) (hplace : (cfg.comm f).place r = p)
    (hacq : n.acquire (cfg.comm f).uniqueId (decide (r = 0)) = some (o, n')) :
    n'.Ok cfg (Function.update held p (some (o, f))) := by
  have hheld (q o' g) (hq : Function.update held p (some (o, f)) q = some (o', g)) :
      q = p ∧ o' = o ∧ g = f ∨ held q = some (o', g) := by
    by_cases hqp : q = p
    · subst hqp
      rw [Function.update_self, Option.some.injEq, Prod.mk.injEq] at hq
      exact .inl ⟨rfl, hq.1.symm, hq.2.symm⟩
    · rw [Function.update_of_ne hqp] at hq
      exact .inr hq
  have hmore (q) (hq : held q ≠ none) : Function.update held p (some (o, f)) q ≠ none := by
    by_cases hqp : q = p
    · subst hqp
      simp
    · rwa [Function.update_of_ne hqp]
  unfold Names.acquire at hacq
  by_cases hz : isUniqueIdZero (cfg.comm f).uniqueId = true
  · -- the object is new and has no name
    rw [if_pos hz] at hacq
    cases hacq
    have hsingle : cfg.multi f = false := by simp [Config.multi, hz]
    refine ⟨?_, ?_, ?_, ?_, ?_, h.name_inj, ?_⟩
    · intro q o' g hq
      rcases hheld q o' g hq with ⟨-, rfl, -⟩ | hq
      · exact Nat.lt_succ_self _
      · exact (h.lt q o' g hq).trans (Nat.lt_succ_self _)
    · intro u o' ho
      exact (h.name_lt u o' ho).trans (Nat.lt_succ_self _)
    · intro q o' g hq hm
      rcases hheld q o' g hq with ⟨-, -, rfl⟩ | hq
      · rw [hsingle] at hm
        cases hm
      · exact h.named q o' g hq hm
    · intro g o' ho hm
      exact hmore _ (h.owner g o' ho hm)
    · intro u o' q g ho hq
      rcases hheld q o' g hq with ⟨-, rfl, -⟩ | hq
      · exact absurd (h.name_lt u _ ho) (lt_irrefl _)
      · exact h.users u o' q g ho hq
    · intro q q' o' g g' hq hq'
      rcases hheld q o' g hq with ⟨rfl, rfl, rfl⟩ | h1 <;>
        rcases hheld q' _ g' hq' with ⟨rfl, hoo, rfl⟩ | h2
      · exact .inl rfl
      · exact absurd (h.lt q' _ g' h2) (lt_irrefl _)
      · exact absurd (h.lt q _ g (hoo ▸ h1)) (lt_irrefl _)
      · exact h.apart q q' o' g g' h1 h2
  · have hmulti : cfg.multi f = true := by simpa [Config.multi] using hz
    rw [if_neg hz] at hacq
    by_cases hr : r = 0
    · -- the object is new, and so is its name
      subst hr
      rw [if_pos (by simp)] at hacq
      cases hacq
      have hfree (o') (ho : n.name (cfg.comm f).uniqueId = some o') : False := by
        have := h.owner f o' ho hmulti
        rw [hplace] at this
        exact this hp
      have hname (u o')
          (ho : Function.update n.name (cfg.comm f).uniqueId (some n.next) u = some o') :
          u = (cfg.comm f).uniqueId ∧ o' = n.next ∨ n.name u = some o' := by
        by_cases hu : u = (cfg.comm f).uniqueId
        · subst hu
          rw [Function.update_self, Option.some.injEq] at ho
          exact .inl ⟨rfl, ho.symm⟩
        · rw [Function.update_of_ne hu] at ho
          exact .inr ho
      refine ⟨?_, ?_, ?_, ?_, ?_, ?_, ?_⟩
      · intro q o' g hq
        rcases hheld q o' g hq with ⟨-, rfl, -⟩ | hq
        · exact Nat.lt_succ_self _
        · exact (h.lt q o' g hq).trans (Nat.lt_succ_self _)
      · intro u o' ho
        rcases hname u o' ho with ⟨-, rfl⟩ | ho
        · exact Nat.lt_succ_self _
        · exact (h.name_lt u o' ho).trans (Nat.lt_succ_self _)
      · intro q o' g hq hm
        rcases hheld q o' g hq with ⟨-, rfl, rfl⟩ | hq
        · exact Function.update_self _ _ _
        · have hold := h.named q o' g hq hm
          show Function.update n.name _ _ _ = _
          rw [Function.update_of_ne, hold]
          intro hu
          rw [hu] at hold
          exact hfree o' hold
      · intro g o' ho hm
        rcases hname _ o' ho with ⟨hu, -⟩ | ho
        · obtain rfl := Config.eq_of_uniqueId hu hm
          rw [hplace, Function.update_self]
          simp
        · exact hmore _ (h.owner g o' ho hm)
      · intro u o' q g ho hq
        rcases hheld q o' g hq with ⟨-, rfl, rfl⟩ | h1 <;> rcases hname u _ ho with ⟨hu, hoo⟩ | h2
        · exact hu.symm
        · exact absurd (h.name_lt u _ h2) (lt_irrefl _)
        · exact absurd (h.lt q _ g (hoo ▸ h1)) (lt_irrefl _)
        · exact h.users u o' q g h2 h1
      · intro u u' o' ho ho'
        rcases hname u o' ho with ⟨rfl, rfl⟩ | h1 <;> rcases hname u' _ ho' with ⟨rfl, hoo⟩ | h2
        · rfl
        · exact absurd (h.name_lt u' _ h2) (lt_irrefl _)
        · exact absurd (h.name_lt u _ (hoo ▸ h1)) (lt_irrefl _)
        · exact h.name_inj u u' o' h1 h2
      · intro q q' o' g g' hq hq'
        rcases hheld q o' g hq with ⟨rfl, rfl, rfl⟩ | h1 <;>
          rcases hheld q' _ g' hq' with ⟨rfl, hoo, rfl⟩ | h2
        · exact .inl rfl
        · exact absurd (h.lt q' _ g' h2) (lt_irrefl _)
        · exact absurd (h.lt q _ g (hoo ▸ h1)) (lt_irrefl _)
        · exact h.apart q q' o' g g' h1 h2
    · -- the object is the one that has the name
      rw [if_neg (by simpa using hr)] at hacq
      obtain ⟨o', ho, heq⟩ := Option.map_eq_some_iff.1 hacq
      cases heq
      refine ⟨?_, h.name_lt, ?_, ?_, ?_, h.name_inj, ?_⟩
      · intro q o' g hq
        rcases hheld q o' g hq with ⟨-, rfl, -⟩ | hq
        · exact h.name_lt _ _ ho
        · exact h.lt q o' g hq
      · intro q o' g hq hm
        rcases hheld q o' g hq with ⟨-, rfl, rfl⟩ | hq
        · exact ho
        · exact h.named q o' g hq hm
      · intro g o' ho hm
        exact hmore _ (h.owner g o' ho hm)
      · intro u o' q g ho' hq
        rcases hheld q o' g hq with ⟨-, rfl, rfl⟩ | hq
        · exact h.name_inj _ _ _ ho ho'
        · exact h.users u o' q g ho' hq
      · have hsame (q g) (hq : held q = some (o, g)) : g = f :=
          (Config.eq_of_uniqueId (h.users _ _ q g ho hq).symm hmulti).symm
        intro q q' o' g g' hq hq'
        rcases hheld q o' g hq with ⟨rfl, rfl, rfl⟩ | h1 <;>
          rcases hheld q' _ g' hq' with ⟨rfl, hoo, rfl⟩ | h2
        · exact .inl rfl
        · exact .inr ⟨(hsame q' g' h2).symm, hmulti⟩
        · subst hoo
          obtain rfl := hsame q g h1
          exact .inr ⟨rfl, hmulti⟩
        · exact h.apart q q' o' g g' h1 h2

/-! ## Processes and calls -/

/-- `ProcessState`: its segment and its pool, and the communicator they came with. -/
structure ProcessState where
  segment : ℕ
  pool : ℕ
  first : ℕ
  deriving DecidableEq, Repr

/-- A rank of a communicator, with the state of its process. -/
structure Call where
  comm : ℕ
  rank : ℕ
  state : ProcessState
  deriving DecidableEq, Repr

/-- A rank that looks for a slot. -/
structure Probe where
  call : Call
  attempt : ℕ
  deriving DecidableEq, Repr

/-- A rank with its `comm_id`, until its communicator is destroyed or its creation is given up. -/
structure Holder where
  call : Call
  slot : ℕ
  deriving DecidableEq, Repr

structure World where
  stateNames : Names
  poolNames : Names
  /-- The segment of a process and the communicator it came with. -/
  sharedState : ℕ → Option (ℕ × ℕ)
  hostPool : ℕ → Option (ℕ × ℕ)
  initialized : ℕ → Bool
  /-- The slots of a segment. -/
  words : ℕ → Words
  probing : List Probe
  holders : List Holder

/-- The ranks that have a slot or look for one. -/
def World.active (s : World) : List Call := s.probing.map Probe.call ++ s.holders.map Holder.call

def initial : World where
  stateNames := ⟨0, fun _ => none⟩
  poolNames := ⟨0, fun _ => none⟩
  sharedState := fun _ => none
  hostPool := fun _ => none
  initialized := fun _ => false
  words := fun _ => ⟨fun _ => 0, fun _ => 0⟩
  probing := []
  holders := []

inductive Label
  /-- The process of a rank makes its shared state. -/
  | openState (c r : ℕ)
  /-- It makes its host pool. -/
  | openPool (c r : ℕ)
  /-- It passes the barrier of `ProcessState::initialize`. -/
  | barrier (c r : ℕ)
  /-- The process state is there, and the call of a rank goes on. -/
  | claim (c r : ℕ)
  /-- One attempt of `userReadyCommSlot`. -/
  | probe (i : ℕ)
  /-- `pcclCommDestroy`. -/
  | destroy (i : ℕ)
  deriving DecidableEq, Repr

section Steps

variable (cfg : Config) (s : World)

def openState (c r : ℕ) : Option World :=
  let p := (cfg.comm c).place r
  if r < (cfg.comm c).nranks ∧ s.sharedState p = none then
    (s.stateNames.acquire (cfg.comm c).uniqueId (decide (r = 0))).map fun x =>
      { s with
        stateNames := x.2
        sharedState := Function.update s.sharedState p (some (x.1, c)) }
  else none

def openPool (c r : ℕ) : Option World :=
  let p := (cfg.comm c).place r
  if r < (cfg.comm c).nranks ∧ (s.sharedState p).map Prod.snd = some c ∧ s.hostPool p = none then
    (s.poolNames.acquire (cfg.comm c).uniqueId (decide (r = 0))).map fun x =>
      { s with
        poolNames := x.2
        hostPool := Function.update s.hostPool p (some (x.1, c)) }
  else none

/-- A process on its own does not wait. -/
def passBarrier (c r : ℕ) : Option World :=
  let p := (cfg.comm c).place r
  if (s.hostPool p).map Prod.snd = some c ∧ (cfg.multi c = true →
      ∀ r' < (cfg.comm c).nranks,
        (s.hostPool ((cfg.comm c).place r')).map Prod.snd = some c) then
    some { s with initialized := Function.update s.initialized p true }
  else none

def claim (c r : ℕ) : Option World :=
  let p := (cfg.comm c).place r
  if r < (cfg.comm c).nranks ∧ s.initialized p = true ∧
      ∀ x ∈ s.active, ¬(x.comm = c ∧ x.rank = r) then
    match s.sharedState p, s.hostPool p with
    | some (segment, first), some (pool, _) =>
      let call : Call := ⟨c, r, segment, pool, first⟩
      if cfg.multi first then some { s with probing := s.probing ++ [⟨call, 0⟩] }
      else some { s with holders := s.holders ++ [⟨call, 0⟩] }
    | _, _ => none
  else none

/-- An attempt of `userReadyCommSlot`; the CUDA library does not count references. -/
def take (w : Words) (commHash idx : ℕ) : Option Words :=
  match cfg.backend with
  | .ascend => w.take commHash idx
  | .cuda =>
    if w.hash idx = 0 ∨ w.hash idx = commHash then
      some { w with hash := Function.update w.hash idx commHash }
    else none

def probe (i : ℕ) : Option World :=
  (s.probing[i]?).map fun x =>
    if maxConcurrentComms * 2 ≤ x.attempt then { s with probing := s.probing.eraseIdx i }
    else
      let segment := x.call.state.segment
      let commHash := (cfg.hash x.call.comm).value
      let idx := probeIdx commHash x.attempt
      match take cfg (s.words segment) commHash idx with
      | some words =>
        { s with
          words := Function.update s.words segment words
          probing := s.probing.eraseIdx i
          holders := s.holders ++ [⟨x.call, idx⟩] }
      | none => { s with probing := s.probing.set i { x with attempt := x.attempt + 1 } }

/-- The CUDA library does not give the slot back. -/
def destroy (i : ℕ) : Option World :=
  (s.holders[i]?).map fun x =>
    let segment := x.call.state.segment
    let s := { s with holders := s.holders.eraseIdx i }
    if cfg.backend = .ascend ∧ cfg.multi x.call.state.first = true then
      match (s.words segment).release x.slot (cfg.hash x.call.comm).value with
      | some words => { s with words := Function.update s.words segment words }
      | none => s
    else s

def step : Label → Option World
  | .openState c r => openState cfg s c r
  | .openPool c r => openPool cfg s c r
  | .barrier c r => passBarrier cfg s c r
  | .claim c r => claim cfg s c r
  | .probe i => probe cfg s i
  | .destroy i => destroy cfg s i

end Steps

def machine (cfg : Config) : Machine World Label := ⟨step cfg⟩

/-! ## What is promised -/

/-- All ranks of a communicator have one segment, one pool and one slot. -/
def OneSlot (s : World) : Prop :=
  ∀ x ∈ s.holders, ∀ y ∈ s.holders, x.call.comm = y.call.comm →
    x.call.state.segment = y.call.state.segment ∧ x.call.state.pool = y.call.state.pool ∧
      x.slot = y.slot

/-- Two communicators do not have one slot of one segment. -/
def Apart (s : World) : Prop :=
  ∀ x ∈ s.holders, ∀ y ∈ s.holders, x.call.comm ≠ y.call.comm →
    x.call.state.segment = y.call.state.segment → x.slot ≠ y.slot

/-- Two calls that fit together: those of one communicator come from one process, or from processes
that began with one communicator; those of two do not come from one process on its own, and where
their processes began with one communicator, their keys differ. -/
def Fit (cfg : Config) (x y : Call) : Prop :=
  (x.comm = y.comm → (cfg.comm x.comm).place x.rank = (cfg.comm y.comm).place y.rank ∨
    cfg.multi x.state.first = true ∧ x.state.first = y.state.first) ∧
  (x.comm ≠ y.comm →
    (cfg.multi x.state.first = false →
      (cfg.comm x.comm).place x.rank ≠ (cfg.comm y.comm).place y.rank) ∧
    (cfg.multi x.state.first = true → x.state.first = y.state.first →
      (cfg.hash x.comm).value ≠ (cfg.hash y.comm).value))

instance (cfg : Config) (x y : Call) : Decidable (Fit cfg x y) :=
  inferInstanceAs (Decidable (_ ∧ _))

/-- A call fits to all others; in the Ascend library, a free slot is taken only while the key is in
no other, and no slot has as many holders as an `int` can count. -/
def kept (cfg : Config) (s : World) : Label → Bool
  | .claim c r =>
    match s.sharedState ((cfg.comm c).place r), s.hostPool ((cfg.comm c).place r) with
    | some (segment, first), some (pool, _) =>
      decide (∀ y ∈ s.active, Fit cfg ⟨c, r, segment, pool, first⟩ y)
    | _, _ => true
  | .probe i =>
    match s.probing[i]? with
    | some x =>
      let w := s.words x.call.state.segment
      let commHash := (cfg.hash x.call.comm).value
      decide (cfg.backend = .ascend → s.holders.length + 1 < 2 ^ 31 ∧
        (w.hash (probeIdx commHash x.attempt) = 0 →
          ∀ j < maxConcurrentComms, w.hash j ≠ commHash))
    | none => true
  | _ => true

/-! ## The words of a segment -/

/-- The holders of a segment, as those of `Ascend.CommSlots`. -/
def holdersOf (cfg : Config) (l : List Holder) (segment : ℕ) : List Ascend.CommSlots.Holder :=
  (l.filter fun x =>
    decide (x.call.state.segment = segment ∧ cfg.multi x.call.state.first = true)).map
      fun x => ⟨cfg.hash x.call.comm, x.slot⟩

theorem mem_holdersOf {l : List Holder} {segment : ℕ} {a : Ascend.CommSlots.Holder} :
    a ∈ holdersOf cfg l segment ↔ ∃ x ∈ l, x.call.state.segment = segment ∧
      cfg.multi x.call.state.first = true ∧ a = ⟨cfg.hash x.call.comm, x.slot⟩ := by
  simp only [holdersOf, List.mem_map, List.mem_filter, decide_eq_true_eq]
  constructor
  · rintro ⟨x, ⟨hx, hs, hm⟩, rfl⟩
    exact ⟨x, hx, hs, hm, rfl⟩
  · rintro ⟨x, hx, hs, hm, rfl⟩
    exact ⟨x, ⟨hx, hs, hm⟩, rfl⟩

theorem holdersOf_append (l : List Holder) (x : Holder) (segment : ℕ) :
    holdersOf cfg (l ++ [x]) segment = holdersOf cfg l segment ++
      if x.call.state.segment = segment ∧ cfg.multi x.call.state.first = true then
        [⟨cfg.hash x.call.comm, x.slot⟩] else [] := by
  unfold holdersOf
  rw [List.filter_append, List.map_append]
  by_cases h : x.call.state.segment = segment ∧ cfg.multi x.call.state.first = true <;> simp [h]

/-- Which holder comes first does not matter. -/
theorem Sound.perm {w : Words} {claims claims' : List Ascend.CommSlots.Claim}
    {l l' : List Ascend.CommSlots.Holder} (h : Sound ⟨w, claims, l⟩) (hl : l.Perm l') :
    Sound ⟨w, claims', l'⟩ := by
  refine ⟨fun a ha => h.slot_lt a (hl.mem_iff.2 ha), fun a ha => h.stored a (hl.mem_iff.2 ha),
    ?_, ?_, h.unique⟩
  · intro i hi
    rw [h.count i hi]
    exact congrArg _ (hl.countP_eq _)
  · intro i hi
    obtain ⟨a, ha, hai⟩ := h.held i hi
    exact ⟨a, hl.mem_iff.1 ha, hai⟩

/-- A holder can give its slot back. -/
theorem Sound.release_some {s : Ascend.CommSlots.State} (h : Sound s)
    {a : Ascend.CommSlots.Holder} (ha : a ∈ s.holders) :
    ∃ words, s.words.release a.slot a.hash.value = some words := by
  have hstored := h.stored a ha
  have hne : s.words.hash a.slot ≠ 0 := by
    rw [hstored]
    exact a.hash.pos.ne'
  have hpos : 0 < s.heldBy a.slot := List.countP_pos_iff.2 ⟨a, ha, by simp⟩
  have hcount := h.count a.slot hne
  have hlt := h.slot_lt a ha
  have hlt' : ¬ ((a.slot : ℤ) < 0 ∨ (maxConcurrentComms : ℤ) ≤ a.slot) := by omega
  unfold Ascend.CommSlots.Words.release
  simp only [a.hash.storedHash_eq, Int.toNat_natCast, hstored, hlt', if_false, ne_eq,
    not_true_eq_false, hcount]
  rw [if_neg (by omega)]
  split
  · exact ⟨_, rfl⟩
  · exact ⟨_, rfl⟩

/-- What holds of slots that are never given back: a key is in the first slot it came to that was
free, and a rank has passed only slots of other keys. -/
structure Placed (cfg : Config) (words : ℕ → Words) (probing : List Probe)
    (holders : List Holder) : Prop where
  stored : ∀ x ∈ holders, cfg.multi x.call.state.first = true →
    (words x.call.state.segment).hash x.slot = (cfg.hash x.call.comm).value
  placed : ∀ seg i, (words seg).hash i ≠ 0 → ∃ k, i = probeIdx ((words seg).hash i) k ∧
    ∀ a < k, (words seg).hash (probeIdx ((words seg).hash i) a) ≠ 0 ∧
      (words seg).hash (probeIdx ((words seg).hash i) a) ≠ (words seg).hash i
  passed : ∀ x ∈ probing, ∀ a < x.attempt,
    (words x.call.state.segment).hash (probeIdx (cfg.hash x.call.comm).value a) ≠ 0 ∧
      (words x.call.state.segment).hash (probeIdx (cfg.hash x.call.comm).value a) ≠
        (cfg.hash x.call.comm).value

theorem Placed.unique {words : ℕ → Words} {probing : List Probe} {holders : List Holder}
    (h : Placed cfg words probing holders) {seg i j : ℕ} (hi : (words seg).hash i ≠ 0)
    (hij : (words seg).hash i = (words seg).hash j) : i = j := by
  obtain ⟨k, hk, hbefore⟩ := h.placed seg i hi
  obtain ⟨k', hk', hbefore'⟩ := h.placed seg j (hij ▸ hi)
  rw [← hij] at hk' hbefore'
  rcases lt_trichotomy k k' with hlt | rfl | hlt
  · have := (hbefore' k hlt).2
    rw [← hk] at this
    exact absurd rfl this
  · rw [hk, hk']
  · have := (hbefore k' hlt).2
    rw [← hk'] at this
    exact absurd hij.symm this

/-- An attempt that takes its slot. -/
theorem Placed.take {words : ℕ → Words} {probing : List Probe} {holders : List Holder}
    (h : Placed cfg words probing holders) {i : ℕ} {x : Probe} (hx : probing[i]? = some x)
    (hfree : (words x.call.state.segment).hash
        (probeIdx (cfg.hash x.call.comm).value x.attempt) = 0 ∨
      (words x.call.state.segment).hash (probeIdx (cfg.hash x.call.comm).value x.attempt) =
        (cfg.hash x.call.comm).value) {w : Words}
    (hw : w.hash = Function.update (words x.call.state.segment).hash
      (probeIdx (cfg.hash x.call.comm).value x.attempt) (cfg.hash x.call.comm).value) :
    Placed cfg (Function.update words x.call.state.segment w) (probing.eraseIdx i)
      (holders ++ [⟨x.call, probeIdx (cfg.hash x.call.comm).value x.attempt⟩]) := by
  have hxm : x ∈ probing := List.mem_of_getElem? hx
  set seg := x.call.state.segment
  set key := (cfg.hash x.call.comm).value
  set idx := probeIdx key x.attempt
  have hkey : key ≠ 0 := (cfg.hash x.call.comm).pos.ne'
  -- a word that was not zero stays
  have hstay (g j : ℕ) (hj : (words g).hash j ≠ 0) :
      (Function.update words seg w g).hash j = (words g).hash j := by
    by_cases hg : g = seg
    · subst hg
      rw [Function.update_self, hw]
      by_cases hji : j = idx
      · subst hji
        rw [Function.update_self, hfree.resolve_left hj]
      · exact Function.update_of_ne hji _ _
    · rw [Function.update_of_ne hg]
  have hother (g j : ℕ) (hne : ¬(g = seg ∧ j = idx)) :
      (Function.update words seg w g).hash j = (words g).hash j := by
    by_cases hg : g = seg
    · subst hg
      rw [Function.update_self, hw, Function.update_of_ne (fun hji => hne ⟨rfl, hji⟩)]
    · rw [Function.update_of_ne hg]
  have hnew : (Function.update words seg w seg).hash idx = key := by
    rw [Function.update_self, hw, Function.update_self]
  have hpassed (y : Probe) (hy : y ∈ probing) (a : ℕ) (ha : a < y.attempt) :
      (Function.update words seg w y.call.state.segment).hash
          (probeIdx (cfg.hash y.call.comm).value a) ≠ 0 ∧
        (Function.update words seg w y.call.state.segment).hash
          (probeIdx (cfg.hash y.call.comm).value a) ≠ (cfg.hash y.call.comm).value := by
    obtain ⟨h1, h2⟩ := h.passed y hy a ha
    rw [hstay _ _ h1]
    exact ⟨h1, h2⟩
  refine ⟨?_, ?_, fun y hy => hpassed y (List.mem_of_mem_eraseIdx hy)⟩
  · intro y hy hm
    rcases List.mem_append.1 hy with hy | hy
    · have hold := h.stored y hy hm
      rw [hstay _ _ (by rw [hold]; exact (cfg.hash y.call.comm).pos.ne'), hold]
    · rw [List.mem_singleton.1 hy]
      exact hnew
  · intro g j hj
    by_cases hnew' : g = seg ∧ j = idx
    · obtain ⟨rfl, rfl⟩ := hnew'
      rw [hnew]
      exact ⟨x.attempt, rfl, fun a ha => hpassed x hxm a ha⟩
    · rw [hother g j hnew'] at hj ⊢
      obtain ⟨k, hk, hbefore⟩ := h.placed g j hj
      refine ⟨k, hk, fun a ha => ?_⟩
      obtain ⟨h1, h2⟩ := hbefore a ha
      rw [hstay _ _ h1]
      exact ⟨h1, h2⟩

/-! ## The invariant -/

/-- The process of a rank. -/
def Config.process (cfg : Config) (x : Call) : ℕ := (cfg.comm x.comm).place x.rank

structure Inv (cfg : Config) (s : World) : Prop where
  states : s.stateNames.Ok cfg s.sharedState
  pools : s.poolNames.Ok cfg s.hostPool
  calls : ∀ x ∈ s.active, s.sharedState (cfg.process x) = some (x.state.segment, x.state.first) ∧
    s.hostPool (cfg.process x) = some (x.state.pool, x.state.first)
  same : ∀ p o f, s.hostPool p = some (o, f) → ∃ segment, s.sharedState p = some (segment, f)
  fit : ∀ x ∈ s.active, ∀ y ∈ s.active, Fit cfg x y
  probes : ∀ x ∈ s.probing, cfg.multi x.call.state.first = true
  single : ∀ x ∈ s.holders, cfg.multi x.call.state.first = false → x.slot = 0
  sound : cfg.backend = .ascend → ∀ segment,
    Sound ⟨s.words segment, [], holdersOf cfg s.holders segment⟩
  placed : cfg.backend = .cuda → Placed cfg s.words s.probing s.holders

variable {s s' : World}

theorem mem_active {x : Call} : x ∈ s.active ↔
    (∃ y ∈ s.probing, y.call = x) ∨ ∃ y ∈ s.holders, y.call = x := by
  simp [World.active]

/-- The slot of a rank in multi-process mode has its key. -/
theorem Inv.stored (hI : Inv cfg s) {x : Holder} (hx : x ∈ s.holders)
    (hm : cfg.multi x.call.state.first = true) :
    (s.words x.call.state.segment).hash x.slot = (cfg.hash x.call.comm).value := by
  cases hb : cfg.backend with
  | ascend =>
    exact (hI.sound hb x.call.state.segment).stored ⟨cfg.hash x.call.comm, x.slot⟩
      (mem_holdersOf.2 ⟨x, hx, rfl, hm, rfl⟩)
  | cuda => exact (hI.placed hb).stored x hx hm

theorem Inv.unique (hI : Inv cfg s) {segment i j : ℕ} (hi : (s.words segment).hash i ≠ 0)
    (hij : (s.words segment).hash i = (s.words segment).hash j) : i = j := by
  cases hb : cfg.backend with
  | ascend => exact (hI.sound hb segment).unique i j hi hij
  | cuda => exact (hI.placed hb).unique hi hij

/-- What is promised follows from the invariant. -/
theorem Inv.promised (hI : Inv cfg s) : OneSlot s ∧ Apart s := by
  have hact (x : Holder) (hx : x ∈ s.holders) : x.call ∈ s.active :=
    mem_active.2 (.inr ⟨x, hx, rfl⟩)
  constructor
  · intro x hx y hy hcomm
    obtain ⟨hxs, hxp⟩ := hI.calls x.call (hact x hx)
    obtain ⟨hys, hyp⟩ := hI.calls y.call (hact y hy)
    have hstate : x.call.state.segment = y.call.state.segment ∧
        x.call.state.pool = y.call.state.pool ∧ x.call.state.first = y.call.state.first := by
      rcases (hI.fit x.call (hact x hx) y.call (hact y hy)).1 hcomm with hplace | ⟨hm, hfirst⟩
      · have hproc : cfg.process x.call = cfg.process y.call := hplace
        rw [hproc, hys] at hxs
        rw [hproc, hyp] at hxp
        simp only [Option.some.injEq, Prod.mk.injEq] at hxs hxp
        exact ⟨hxs.1.symm, hxp.1.symm, hxs.2.symm⟩
      · have h1 := hI.states.named _ _ _ hxs hm
        have h2 := hI.states.named _ _ _ hys (hfirst ▸ hm)
        have h3 := hI.pools.named _ _ _ hxp hm
        have h4 := hI.pools.named _ _ _ hyp (hfirst ▸ hm)
        rw [hfirst] at h1 h3
        exact ⟨Option.some.inj (h1.symm.trans h2), Option.some.inj (h3.symm.trans h4), hfirst⟩
    obtain ⟨hseg, hpool, hfirst⟩ := hstate
    refine ⟨hseg, hpool, ?_⟩
    cases hm : cfg.multi x.call.state.first with
    | true =>
      have h1 := hI.stored hx hm
      have h2 := hI.stored hy (hfirst ▸ hm)
      have hne : (s.words y.call.state.segment).hash x.slot ≠ 0 := by
        rw [← hseg, h1]
        exact (cfg.hash x.call.comm).pos.ne'
      exact hI.unique hne (by rw [h2, ← hseg, h1, hcomm])
    | false => rw [hI.single x hx hm, hI.single y hy (hfirst ▸ hm)]
  · intro x hx y hy hcomm hseg hslot
    obtain ⟨hxs, -⟩ := hI.calls x.call (hact x hx)
    obtain ⟨hys, -⟩ := hI.calls y.call (hact y hy)
    have hfit := (hI.fit x.call (hact x hx) y.call (hact y hy)).2 hcomm
    have hapart := hI.states.apart _ _ _ _ _ hxs (hseg ▸ hys)
    cases hm : cfg.multi x.call.state.first with
    | true =>
      have hfirst : x.call.state.first = y.call.state.first := by
        rcases hapart with hproc | ⟨hfirst, -⟩
        · rw [hproc, hys] at hxs
          simp only [Option.some.injEq, Prod.mk.injEq] at hxs
          exact hxs.2.symm
        · exact hfirst
      refine hfit.2 hm hfirst ?_
      rw [← hI.stored hx hm, ← hI.stored hy (hfirst ▸ hm), hseg, hslot]
    | false =>
      rcases hapart with hproc | ⟨-, hm'⟩
      · exact hfit.1 hm hproc
      · rw [hm] at hm'
        cases hm'

/-! ## The steps -/

theorem Inv.openState (hI : Inv cfg s) {c r : ℕ} (h : openState cfg s c r = some s') :
    Inv cfg s' := by
  unfold CommSegment.openState at h
  obtain ⟨⟨-, hnone⟩, h⟩ := Option.ite_none_right_eq_some.1 h
  obtain ⟨⟨o, n⟩, hacq, rfl⟩ := Option.map_eq_some_iff.1 h
  have hkeep (p) (hp : s.sharedState p ≠ none) :
      Function.update s.sharedState ((cfg.comm c).place r) (some (o, c)) p = s.sharedState p := by
    refine Function.update_of_ne ?_ _ _
    rintro rfl
    exact hp hnone
  exact
    { hI with
      states := hI.states.acquire hnone rfl hacq
      calls := fun x hx => by
        obtain ⟨h1, h2⟩ := hI.calls x hx
        exact ⟨(hkeep _ (by rw [h1]; simp)).trans h1, h2⟩
      same := fun p o f hp => by
        obtain ⟨segment, hs⟩ := hI.same p o f hp
        exact ⟨segment, (hkeep _ (by rw [hs]; simp)).trans hs⟩ }

theorem Inv.openPool (hI : Inv cfg s) {c r : ℕ} (h : openPool cfg s c r = some s') :
    Inv cfg s' := by
  unfold CommSegment.openPool at h
  obtain ⟨⟨-, hstate, hnone⟩, h⟩ := Option.ite_none_right_eq_some.1 h
  obtain ⟨⟨o, n⟩, hacq, rfl⟩ := Option.map_eq_some_iff.1 h
  exact
    { hI with
      pools := hI.pools.acquire hnone rfl hacq
      calls := fun x hx => by
        obtain ⟨h1, h2⟩ := hI.calls x hx
        refine ⟨h1, (Function.update_of_ne ?_ _ _).trans h2⟩
        intro hp
        rw [hp, hnone] at h2
        cases h2
      same := fun p o' f hp => by
        by_cases hpp : p = (cfg.comm c).place r
        · subst hpp
          simp only [Function.update_self, Option.some.injEq, Prod.mk.injEq] at hp
          obtain ⟨⟨segment, g⟩, hs, hg⟩ := Option.map_eq_some_iff.1 hstate
          exact ⟨segment, by rw [hs, ← hp.2, ← hg]⟩
        · exact hI.same p o' f (by simpa [Function.update_of_ne hpp] using hp) }

theorem Inv.barrier (hI : Inv cfg s) {c r : ℕ} (h : passBarrier cfg s c r = some s') :
    Inv cfg s' := by
  unfold passBarrier at h
  obtain ⟨-, h⟩ := Option.ite_none_right_eq_some.1 h
  cases h
  exact { hI with }

/-- Two calls that fit together do so in the other order. -/
theorem Fit.symm {x y : Call} (h : Fit cfg x y)
    (hsame : cfg.process x = cfg.process y → x.state.first = y.state.first) : Fit cfg y x := by
  refine ⟨fun hc => ?_, fun hc => ⟨fun hm hp => ?_, fun hm hf => ?_⟩⟩
  · rcases h.1 hc.symm with hp | ⟨hm, hf⟩
    · exact .inl hp.symm
    · exact .inr ⟨hf ▸ hm, hf.symm⟩
  · refine (h.2 (Ne.symm hc)).1 ?_ hp.symm
    rw [hsame hp.symm]
    exact hm
  · exact ((h.2 (Ne.symm hc)).2 (hf ▸ hm) hf.symm).symm

theorem Fit.self (cfg : Config) (x : Call) : Fit cfg x x :=
  ⟨fun _ => .inl rfl, fun h => absurd rfl h⟩

theorem Inv.claim (hI : Inv cfg s) {c r : ℕ} (hk : kept cfg s (.claim c r) = true)
    (h : claim cfg s c r = some s') : Inv cfg s' := by
  unfold CommSegment.claim at h
  obtain ⟨-, h⟩ := Option.ite_none_right_eq_some.1 h
  split at h
  case h_2 => cases h
  case h_1 segment first pool g hstate hpool =>
    obtain ⟨segment', hs⟩ := hI.same _ _ _ hpool
    obtain rfl : first = g := by
      rw [hstate] at hs
      simp only [Option.some.injEq, Prod.mk.injEq] at hs
      exact hs.2
    simp only [kept, hstate, hpool, decide_eq_true_eq] at hk
    set x : Call := ⟨c, r, segment, pool, first⟩
    have hsame (y : Call) (hy : y ∈ s.active) (hp : cfg.process x = cfg.process y) :
        x.state.first = y.state.first := by
      have hys := (hI.calls y hy).1
      rw [← hp] at hys
      change s.sharedState ((cfg.comm c).place r) = _ at hys
      rw [hstate] at hys
      simp only [Option.some.injEq, Prod.mk.injEq] at hys
      exact hys.2
    -- the new call is the only one that is not an old one
    have hgrow (t : World) (hact : ∀ y ∈ t.active, y ∈ s.active ∨ y = x)
        (hst : t.sharedState = s.sharedState) (hpl : t.hostPool = s.hostPool) :
        (∀ y ∈ t.active, t.sharedState (cfg.process y) = some (y.state.segment, y.state.first) ∧
          t.hostPool (cfg.process y) = some (y.state.pool, y.state.first)) ∧
        ∀ y ∈ t.active, ∀ z ∈ t.active, Fit cfg y z := by
      rw [hst, hpl]
      refine ⟨fun y hy => ?_, fun y hy z hz => ?_⟩
      · rcases hact y hy with hy | rfl
        · exact hI.calls y hy
        · exact ⟨hstate, hpool⟩
      · rcases hact y hy with hy | rfl <;> rcases hact z hz with hz | rfl
        · exact hI.fit y hy z hz
        · exact (hk y hy).symm (hsame y hy)
        · exact hk z hz
        · exact Fit.self cfg _
    split at h
    case isTrue hm =>
      cases h
      have hact : ∀ y ∈ World.active { s with probing := s.probing ++ [⟨x, 0⟩] },
          y ∈ s.active ∨ y = x := by
        intro y hy
        simp only [World.active, List.map_append, List.mem_append, List.map_cons, List.map_nil,
          List.mem_singleton] at hy ⊢
        tauto
      obtain ⟨hcalls, hfit⟩ := hgrow _ hact rfl rfl
      exact
        { hI with
          calls := hcalls
          fit := hfit
          probes := fun y hy => by
            rcases List.mem_append.1 hy with hy | hy
            · exact hI.probes y hy
            · rw [List.mem_singleton.1 hy]
              exact hm
          placed := fun hb => by
            have hold := hI.placed hb
            refine ⟨hold.stored, hold.placed, fun y hy a ha => ?_⟩
            rcases List.mem_append.1 hy with hy | hy
            · exact hold.passed y hy a ha
            · rw [List.mem_singleton.1 hy] at ha
              exact absurd ha (Nat.not_lt_zero a) }
    case isFalse hm =>
      cases h
      have hact : ∀ y ∈ World.active { s with holders := s.holders ++ [⟨x, 0⟩] },
          y ∈ s.active ∨ y = x := by
        intro y hy
        simp only [World.active, List.map_append, List.mem_append, List.map_cons, List.map_nil,
          List.mem_singleton] at hy ⊢
        tauto
      obtain ⟨hcalls, hfit⟩ := hgrow _ hact rfl rfl
      exact
        { hI with
          calls := hcalls
          fit := hfit
          single := fun y hy hym => by
            rcases List.mem_append.1 hy with hy | hy
            · exact hI.single y hy hym
            · rw [List.mem_singleton.1 hy]
          sound := fun hb seg => by
            show Sound ⟨s.words seg, [], holdersOf cfg (s.holders ++ [⟨x, 0⟩]) seg⟩
            rw [holdersOf_append, if_neg fun hx => hm hx.2, List.append_nil]
            exact hI.sound hb seg
          placed := fun hb => by
            have hold := hI.placed hb
            refine ⟨fun y hy hym => ?_, hold.placed, hold.passed⟩
            rcases List.mem_append.1 hy with hy | hy
            · exact hold.stored y hy hym
            · rw [List.mem_singleton.1 hy] at hym
              exact absurd hym hm }

/-- Calls that end, or go on, are calls that were there. -/
theorem Inv.remaining (hI : Inv cfg s) {t : World} (hact : ∀ y ∈ t.active, y ∈ s.active)
    (hst : t.sharedState = s.sharedState) (hpl : t.hostPool = s.hostPool) :
    (∀ y ∈ t.active, t.sharedState (cfg.process y) = some (y.state.segment, y.state.first) ∧
      t.hostPool (cfg.process y) = some (y.state.pool, y.state.first)) ∧
    ∀ y ∈ t.active, ∀ z ∈ t.active, Fit cfg y z := by
  rw [hst, hpl]
  exact ⟨fun y hy => hI.calls y (hact y hy),
    fun y hy z hz => hI.fit y (hact y hy) z (hact z hz)⟩

theorem take_spec {w w' : Words} {commHash idx : ℕ} (h : take cfg w commHash idx = some w') :
    (w.hash idx = 0 ∨ w.hash idx = commHash) ∧ w'.hash = Function.update w.hash idx commHash := by
  unfold take at h
  split at h
  · obtain ⟨h1, h2, -⟩ := Ascend.CommSlots.Words.take_spec h
    exact ⟨h1, h2⟩
  · obtain ⟨h1, h⟩ := Option.ite_none_right_eq_some.1 h
    cases h
    exact ⟨h1, rfl⟩

theorem take_none {w : Words} {commHash idx : ℕ} (h : take cfg w commHash idx = none) :
    w.hash idx ≠ 0 ∧ w.hash idx ≠ commHash := by
  unfold take at h
  split at h
  · simp only [Ascend.CommSlots.Words.take, ite_eq_right_iff, reduceCtorEq, imp_false] at h
    tauto
  · split at h
    · cases h
    · tauto

theorem Inv.probe (hI : Inv cfg s) {i : ℕ} (hk : kept cfg s (.probe i) = true)
    (h : probe cfg s i = some s') : Inv cfg s' := by
  unfold CommSegment.probe at h
  obtain ⟨x, hx, h⟩ := Option.map_eq_some_iff.1 h
  have hxm : x ∈ s.probing := List.mem_of_getElem? hx
  have hxmulti := hI.probes x hxm
  simp only [kept, hx, decide_eq_true_eq] at hk
  split at h
  case isTrue =>
    subst h
    obtain ⟨hcalls, hfit⟩ := hI.remaining (t := { s with probing := s.probing.eraseIdx i })
      (fun y hy => by
        rcases mem_active.1 hy with ⟨z, hz, rfl⟩ | hy
        · exact mem_active.2 (.inl ⟨z, List.mem_of_mem_eraseIdx hz, rfl⟩)
        · exact mem_active.2 (.inr hy)) rfl rfl
    exact
      { hI with
        calls := hcalls
        fit := hfit
        probes := fun y hy => hI.probes y (List.mem_of_mem_eraseIdx hy)
        placed := fun hb =>
          have hold := hI.placed hb
          ⟨hold.stored, hold.placed, fun y hy => hold.passed y (List.mem_of_mem_eraseIdx hy)⟩ }
  case isFalse =>
    dsimp only at h
    set segment := x.call.state.segment
    set key := (cfg.hash x.call.comm).value
    set idx := probeIdx key x.attempt
    split at h
    case h_1 words htake =>
      subst h
      obtain ⟨hfree, hhash⟩ := take_spec htake
      obtain ⟨hcalls, hfit⟩ := hI.remaining (t := { s with
          words := Function.update s.words segment words
          probing := s.probing.eraseIdx i
          holders := s.holders ++ [⟨x.call, idx⟩] })
        (fun y hy => by
          rcases mem_active.1 hy with ⟨z, hz, rfl⟩ | ⟨z, hz, rfl⟩
          · exact mem_active.2 (.inl ⟨z, List.mem_of_mem_eraseIdx hz, rfl⟩)
          · rcases List.mem_append.1 hz with hz | hz
            · exact mem_active.2 (.inr ⟨z, hz, rfl⟩)
            · rw [List.mem_singleton.1 hz]
              exact mem_active.2 (.inl ⟨x, hxm, rfl⟩)) rfl rfl
      exact
        { hI with
          calls := hcalls
          fit := hfit
          probes := fun y hy => hI.probes y (List.mem_of_mem_eraseIdx hy)
          single := fun y hy hm => by
            rcases List.mem_append.1 hy with hy | hy
            · exact hI.single y hy hm
            · rw [List.mem_singleton.1 hy, hxmulti] at hm
              cases hm
          sound := fun hb seg => by
            have hold := hI.sound hb seg
            show Sound ⟨Function.update s.words segment words seg, [],
              holdersOf cfg (s.holders ++ [⟨x.call, idx⟩]) seg⟩
            rw [holdersOf_append]
            by_cases hseg : segment = seg
            · subst hseg
              rw [if_pos ⟨rfl, hxmulti⟩, Function.update_self]
              obtain ⟨hcount, hfirst⟩ := hk hb
              have htake' : (s.words segment).take key idx = some words := by
                unfold take at htake
                rw [hb] at htake
                exact htake
              refine hold.take (Ascend.CommSlots.probeIdx_lt _ _) htake' ?_ ?_
              · have hle : (holdersOf cfg s.holders segment).length ≤ s.holders.length := by
                  rw [holdersOf, List.length_map]
                  exact List.length_filter_le _ _
                show (holdersOf cfg s.holders segment).length + 1 < 2 ^ 31
                omega
              · intro h0 j heq
                have hne : (s.words segment).hash j ≠ 0 := by
                  rw [heq]
                  exact (cfg.hash x.call.comm).pos.ne'
                exact hfirst h0 j (hold.lt_of_hash hne) heq
            · rw [if_neg fun hx => hseg hx.1, List.append_nil,
                Function.update_of_ne (Ne.symm hseg)]
              exact hold
          placed := fun hb => (hI.placed hb).take hx hfree hhash }
    case h_2 htake =>
      subst h
      obtain ⟨h0, hkey⟩ := take_none htake
      obtain ⟨hcalls, hfit⟩ := hI.remaining
        (t := { s with probing := s.probing.set i { x with attempt := x.attempt + 1 } })
        (fun y hy => by
          rcases mem_active.1 hy with ⟨z, hz, rfl⟩ | hy
          · rcases List.mem_or_eq_of_mem_set hz with hz | rfl
            · exact mem_active.2 (.inl ⟨z, hz, rfl⟩)
            · exact mem_active.2 (.inl ⟨x, hxm, rfl⟩)
          · exact mem_active.2 (.inr hy)) rfl rfl
      exact
        { hI with
          calls := hcalls
          fit := hfit
          probes := fun y hy => by
            rcases List.mem_or_eq_of_mem_set hy with hy | rfl
            · exact hI.probes y hy
            · exact hxmulti
          placed := fun hb => by
            have hold := hI.placed hb
            refine ⟨hold.stored, hold.placed, fun y hy a ha => ?_⟩
            rcases List.mem_or_eq_of_mem_set hy with hy | rfl
            · exact hold.passed y hy a ha
            · rcases Nat.lt_succ_iff_lt_or_eq.1 ha with ha | rfl
              · exact hold.passed x hxm a ha
              · exact ⟨h0, hkey⟩ }

theorem holdersOf_eraseIdx {l : List Holder} {i : ℕ} {x : Holder} (hx : l[i]? = some x)
    (segment : ℕ) :
    List.Perm ((if x.call.state.segment = segment ∧ cfg.multi x.call.state.first = true then
        ([⟨cfg.hash x.call.comm, x.slot⟩] : List Ascend.CommSlots.Holder) else []) ++
      holdersOf cfg (l.eraseIdx i) segment) (holdersOf cfg l segment) := by
  obtain ⟨hi, rfl⟩ := List.getElem?_eq_some_iff.1 hx
  have hperm := (List.getElem_cons_eraseIdx_perm hi).filter fun x =>
    decide (x.call.state.segment = segment ∧ cfg.multi x.call.state.first = true)
  have := hperm.map fun x : Holder =>
    (⟨cfg.hash x.call.comm, x.slot⟩ : Ascend.CommSlots.Holder)
  rw [List.filter_cons] at this
  unfold holdersOf
  split
  case isTrue h => simpa [h] using this
  case isFalse h => simpa [h] using this

theorem Inv.destroy (hI : Inv cfg s) {i : ℕ} (h : destroy cfg s i = some s') : Inv cfg s' := by
  unfold CommSegment.destroy at h
  obtain ⟨x, hx, h⟩ := Option.map_eq_some_iff.1 h
  have hxm : x ∈ s.holders := List.mem_of_getElem? hx
  have hactive (words : ℕ → Words) := hI.remaining
    (t := { s with words := words, holders := s.holders.eraseIdx i })
    (fun y hy => by
      rcases mem_active.1 hy with hy | ⟨z, hz, rfl⟩
      · exact mem_active.2 (.inl hy)
      · exact mem_active.2 (.inr ⟨z, List.mem_of_mem_eraseIdx hz, rfl⟩)) rfl rfl
  split at h
  case isTrue hb =>
    -- the slot is given back
    have hold := hI.sound hb.1 x.call.state.segment
    have hmem : (⟨cfg.hash x.call.comm, x.slot⟩ : Ascend.CommSlots.Holder) ∈
        holdersOf cfg s.holders x.call.state.segment :=
      mem_holdersOf.2 ⟨x, hxm, rfl, hb.2, rfl⟩
    obtain ⟨words, hwords⟩ := Sound.release_some hold hmem
    have hrel : (s.words x.call.state.segment).release x.slot (cfg.hash x.call.comm).value =
        some words := hwords
    dsimp only at h
    rw [hrel] at h
    subst h
    obtain ⟨hcalls, hfit⟩ := hactive (Function.update s.words x.call.state.segment words)
    exact
      { hI with
        calls := hcalls
        fit := hfit
        single := fun y hy => hI.single y (List.mem_of_mem_eraseIdx hy)
        sound := fun hb' seg => by
          have hperm := @holdersOf_eraseIdx cfg _ _ _ hx seg
          show Sound ⟨Function.update s.words x.call.state.segment words seg, [],
            holdersOf cfg (s.holders.eraseIdx i) seg⟩
          by_cases hseg : x.call.state.segment = seg
          · subst hseg
            rw [if_pos ⟨rfl, hb.2⟩] at hperm
            rw [Function.update_self]
            refine Sound.perm (hold.release hrel) ?_
            simpa using (hperm.symm.erase ⟨cfg.hash x.call.comm, x.slot⟩)
          · rw [if_neg fun h => hseg h.1, List.nil_append] at hperm
            rw [Function.update_of_ne (Ne.symm hseg)]
            exact Sound.perm (hI.sound hb' seg) hperm.symm
        placed := fun hb' => by
          rw [hb.1] at hb'
          cases hb' }
  case isFalse hb =>
    subst h
    obtain ⟨hcalls, hfit⟩ := hactive s.words
    exact
      { hI with
        calls := hcalls
        fit := hfit
        single := fun y hy => hI.single y (List.mem_of_mem_eraseIdx hy)
        sound := fun hb' seg => by
          have hperm := @holdersOf_eraseIdx cfg _ _ _ hx seg
          rw [if_neg fun h => hb ⟨hb', h.2⟩, List.nil_append] at hperm
          exact Sound.perm (hI.sound hb' seg) hperm.symm
        placed := fun hb' =>
          have hold := hI.placed hb'
          ⟨fun y hy => hold.stored y (List.mem_of_mem_eraseIdx hy), hold.placed, hold.passed⟩ }

/-- Every step that meets the condition keeps the invariant. -/
theorem Inv.step {l : Label} (hI : Inv cfg s) (hk : kept cfg s l = true)
    (h : step cfg s l = some s') : Inv cfg s' := by
  cases l with
  | openState c r => exact hI.openState h
  | openPool c r => exact hI.openPool h
  | barrier c r => exact hI.barrier h
  | claim c r => exact hI.claim hk h
  | probe i => exact hI.probe hk h
  | destroy i => exact hI.destroy h

theorem Names.Ok.start (cfg : Config) :
    Names.Ok cfg ⟨0, fun _ => none⟩ fun _ => none where
  lt _ _ _ h := by cases h
  name_lt _ _ h := by cases h
  named _ _ _ h := by cases h
  owner _ _ h := by cases h
  users _ _ _ _ h := by cases h
  name_inj _ _ _ h := by cases h
  apart _ _ _ _ _ h := by cases h

theorem Inv.start (cfg : Config) : Inv cfg initial where
  states := .start cfg
  pools := .start cfg
  calls x hx := by cases hx
  same _ _ _ h := by cases h
  fit x hx := by cases hx
  probes x hx := by cases hx
  single x hx := by cases hx
  sound _ _ := Sound.initial
  placed _ :=
    { stored := fun x hx => by cases hx
      placed := fun _ _ h => absurd rfl h
      passed := fun x hx => by cases hx }

/-- **The ranks of a communicator are in one slot of one segment, and those of two communicators
are not,** as long as all processes of a communicator began with one communicator, a process on its
own has one communicator at a time, the keys of communicators that began with one communicator
differ, and in the Ascend library no slot is freed between the attempts of two ranks. -/
theorem segments_kept (cfg : Config) {labels : List Label} {s : World}
    (hrun : (machine cfg).runFrom (kept cfg) initial labels = some s) : OneSlot s ∧ Apart s :=
  ((machine cfg).invariant (fun _ _ _ hI hk hst => Inv.step hI hk hst) (Inv.start cfg)
    hrun).promised

/-- Two communicators over the same two processes. -/
def twoComms : Config where
  backend := .ascend
  comm c := ⟨if c < 2 then [(c + 1).toUInt8] else [], 2, id⟩
  distinct c d h hz := by
    have hc : c < 2 := by
      by_contra hc
      simp [hc, isUniqueIdZero] at hz
    have hd : d < 2 := by
      by_contra hd
      simp [hc, hd] at h
    interval_cases c <;> interval_cases d <;> simp_all

/-- Both are created, and one is destroyed. -/
theorem segments_kept_two :
    ∃ s, (machine twoComms).runFrom (kept twoComms) initial
        [.openState 0 0, .openPool 0 0, .openState 0 1, .openPool 0 1, .barrier 0 0, .barrier 0 1,
          .claim 0 0, .claim 0 1, .probe 0, .claim 1 1, .probe 0, .probe 0, .claim 1 0, .probe 0,
          .destroy 0] = some s ∧ OneSlot s ∧ Apart s := by
  have hsome : ((machine twoComms).runFrom (kept twoComms) initial
      [.openState 0 0, .openPool 0 0, .openState 0 1, .openPool 0 1, .barrier 0 0, .barrier 0 1,
        .claim 0 0, .claim 0 1, .probe 0, .claim 1 1, .probe 0, .probe 0, .claim 1 0, .probe 0,
        .destroy 0]).isSome = true := by decide +kernel
  obtain ⟨s, hrun⟩ := Option.isSome_iff_exists.1 hsome
  exact ⟨s, hrun, segments_kept twoComms hrun⟩

/-- Communicators without a unique id in one process. -/
def oneProcess : Config where
  backend := .cuda
  comm _ := ⟨List.replicate 128 0, 2, fun _ => 0⟩
  distinct _ _ _ h := by
    have hz : isUniqueIdZero (List.replicate 128 0) = true := by decide
    rw [hz] at h
    cases h

/-- **Two communicators of a process on its own have slot 0 of its one segment.** -/
theorem single_slot_shared :
    ¬ ∀ cfg labels s, (machine cfg).runFrom Machine.anyStep initial labels = some s →
      OneSlot s ∧ Apart s := by
  intro h
  have hobs : ((machine oneProcess).runFrom Machine.anyStep initial
      [.openState 0 0, .openPool 0 0, .barrier 0 0, .claim 0 0, .claim 0 1, .claim 1 0,
        .claim 1 1]).map World.holders =
      some [⟨⟨0, 0, 0, 0, 0⟩, 0⟩, ⟨⟨0, 1, 0, 0, 0⟩, 0⟩, ⟨⟨1, 0, 0, 0, 0⟩, 0⟩,
        ⟨⟨1, 1, 0, 0, 0⟩, 0⟩] := by decide +kernel
  obtain ⟨s, hrun, hs⟩ := Option.map_eq_some_iff.1 hobs
  refine (h oneProcess _ s hrun).2 ⟨⟨0, 0, 0, 0, 0⟩, 0⟩ ?_ ⟨⟨1, 0, 0, 0, 0⟩, 0⟩ ?_ ?_ rfl rfl
  · simp [hs]
  · simp [hs]
  · decide

/-- Communicator 2 joins a process that began with communicator 0 and one that began with 1. -/
def threeComms : Config where
  backend := .cuda
  comm c := ⟨if c < 3 then [(c + 1).toUInt8] else [], 2,
    fun r => if c = 2 then r + 1 else 2 * c + r⟩
  distinct c d h hz := by
    have hc : c < 3 := by
      by_contra hc
      simp [hc, isUniqueIdZero] at hz
    have hd : d < 3 := by
      by_contra hd
      simp [hc, hd] at h
    interval_cases c <;> interval_cases d <;> simp_all

/-- **The ranks of a communicator are in two segments**, so that they wait for each other in vain at
the barrier that ends its creation. -/
theorem segments_differ :
    ¬ ∀ cfg labels s, (machine cfg).runFrom Machine.anyStep initial labels = some s →
      OneSlot s := by
  intro h
  have hobs : ((machine threeComms).runFrom Machine.anyStep initial
      [.openState 0 0, .openPool 0 0, .openState 0 1, .openPool 0 1, .barrier 0 0, .barrier 0 1,
        .openState 1 0, .openPool 1 0, .openState 1 1, .openPool 1 1, .barrier 1 0, .barrier 1 1,
        .claim 2 0, .probe 0, .claim 2 1, .probe 0]).map
          (fun s => s.holders.map fun x => (x.call.comm, x.call.state.segment)) =
      some [(2, 0), (2, 1)] := by decide +kernel
  obtain ⟨s, hrun, hs⟩ := Option.map_eq_some_iff.1 hobs
  obtain ⟨x, hx, hxs⟩ := List.mem_map.1 (hs ▸ List.mem_cons_self : (2, 0) ∈ _)
  obtain ⟨y, hy, hys⟩ := List.mem_map.1
    (hs ▸ List.mem_cons_of_mem _ List.mem_cons_self : (2, 1) ∈ _)
  simp only [Prod.mk.injEq] at hxs hys
  have := (h threeComms _ s hrun x hx y hy (hxs.1.trans hys.1.symm)).1
  omega

end CommSegment
end Api
end HyLink
