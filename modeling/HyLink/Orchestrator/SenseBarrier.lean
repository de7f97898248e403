import Mathlib.Algebra.BigOperators.Group.Finset.Basic
import Mathlib.Algebra.Order.BigOperators.Group.Finset
import HyLink.Theory.Fairness
import HyLink.Theory.Gate

/-!
# The barrier of the shared store

`BarrierSync` is a barrier by a count and a sense in shared memory.  A rank loads the sense and is
to wait for the other one; it raises the count, and the last rank resets the count, flips the sense
and wakes the sleepers.  The others look at the sense a hundred times and then sleep on it, for a
millisecond at most.

* `SenseBarrier.step` — one access of a rank to the shared words or to the futex.
* `toGate` — the state as a gate whose generation is the number of flips.
* `Inv` — the gate is sound, and the senses are the generations modulo two.
* `sense_barrier` — no rank leaves before all have entered, and in a fair run every rank leaves once
  all have entered.
-/

namespace HyLink
namespace Orchestrator
namespace SenseBarrier

open Theory

/-! ## The machine -/

/-- The values of `uint32_t`. -/
def wordMod : ℕ := 2 ^ 32

/-- `kSpinIterations`. -/
def kSpinIterations : ℕ := 100

/-- Where a rank is in `AdaptiveWait`. -/
inductive Spot
  /-- The predicate is evaluated, after so many times. -/
  | spinning (spin : ℕ)
  /-- The predicate of the `while`. -/
  | testing
  /-- `current` is loaded. -/
  | loading
  /-- The predicate after that. -/
  | retesting (current : ℕ)
  /-- `futex_wait` compares the word. -/
  | futex (current : ℕ)
  | sleeping
  deriving DecidableEq, Repr

inductive Place
  | outside
  /-- It has called `BarrierSync`. -/
  | called
  /-- It has loaded the sense. -/
  | loaded (mySense : ℕ)
  /-- It is the last rank. -/
  | resetting (mySense : ℕ)
  | flipping (mySense : ℕ)
  /-- `futex_wake` is next. -/
  | waking
  | waiting (mySense : ℕ) (spot : Spot)
  deriving DecidableEq, Repr

structure State where
  /-- `barrier_count` and `barrier_sense`. -/
  count : ℕ
  sense : ℕ
  place : ℕ → Place
  /-- The calls that a rank has entered and those that it has left. -/
  entered : ℕ → ℕ
  left : ℕ → ℕ
  /-- How often the sense was flipped. -/
  flips : ℕ

def start : State := ⟨0, 0, fun _ => .outside, fun _ => 0, fun _ => 0, 0⟩

inductive Label
  | enter (r : ℕ)
  /-- The next access of a rank that is inside; a sleeping rank wakes by the timeout. -/
  | go (r : ℕ)
  deriving DecidableEq, Repr

namespace State

def goto (st : State) (r : ℕ) (p : Place) : State :=
  { st with place := Function.update st.place r p }

/-- The rank returns from `BarrierSync`. -/
def leave (st : State) (r : ℕ) : State :=
  { st.goto r .outside with left := Function.update st.left r (st.left r + 1) }

end State

/-- What `futex_wake` does to a rank. -/
def Place.wake : Place → Place
  | .waiting mySense .sleeping => .waiting mySense .testing
  | p => p

/-- The next access in `AdaptiveWait`, or the end of the wait. -/
def Spot.next (sense mySense : ℕ) : Spot → Option Spot
  | .spinning spin =>
    if sense = mySense then none
    else if spin + 1 < kSpinIterations then some (.spinning (spin + 1))
    else some .testing
  | .testing => if sense = mySense then none else some .loading
  | .loading => some (.retesting sense)
  | .retesting current => if sense = mySense then none else some (.futex current)
  | .futex current => if sense = current then some .sleeping else some .testing
  | .sleeping => some .testing

variable (nranks : ℕ)

def enter (st : State) (r : ℕ) : State :=
  let st := { st with entered := Function.update st.entered r (st.entered r + 1) }
  if nranks ≤ 1 then st.leave r else st.goto r .called

def go (st : State) (r : ℕ) : Option State :=
  match st.place r with
  | .outside => none
  | .called => some (st.goto r (.loaded ((wordMod + 1 - st.sense) % wordMod)))
  | .loaded mySense =>
    let count := (st.count + 1) % wordMod
    some { st.goto r
      (if count = nranks then .resetting mySense else .waiting mySense (.spinning 0)) with
        count := count }
  | .resetting mySense => some { st.goto r (.flipping mySense) with count := 0 }
  | .flipping mySense => some { st.goto r .waking with sense := mySense, flips := st.flips + 1 }
  | .waking => some ({ st with place := fun q => (st.place q).wake }.leave r)
  | .waiting mySense spot =>
    match spot.next st.sense mySense with
    | some spot => some (st.goto r (.waiting mySense spot))
    | none => some (st.leave r)

def step (st : State) : Label → Option State
  | .enter r => if r < nranks ∧ st.place r = .outside then some (enter nranks st r) else none
  | .go r => if r < nranks then go nranks st r else none

def machine : Machine State Label := ⟨step nranks⟩

/-! ## The barrier as a gate -/

/-- The rank is through with its wait, or about to wake the others. -/
def Place.released (sense : ℕ) : Place → Bool
  | .waking => true
  | .waiting mySense _ => decide (sense = mySense)
  | _ => false

/-- The place of the rank in the gate. -/
def Place.toGate (sense flips : ℕ) : Place → Gate.Place
  | .outside | .called | .waking => .outside
  | .loaded _ => .loaded flips
  | .resetting _ => .resetting flips
  | .flipping _ => .raising flips
  | .waiting mySense _ => .waiting (if sense = mySense then flips - 1 else flips)

def toGate (st : State) : Gate.State where
  generation := st.flips
  count := st.count
  place r := (st.place r).toGate st.sense st.flips
  passed r := st.left r + if st.place r = .waking then 1 else 0

/-- The senses a rank has loaded. -/
def Place.Senses (flips : ℕ) : Place → Prop
  | .loaded mySense | .resetting mySense | .flipping mySense => mySense = (flips + 1) % 2
  | .waiting mySense _ => mySense = (flips + 1) % 2 ∨ mySense = flips % 2 ∧ 1 ≤ flips
  | _ => True

/-- What holds in every state, where there are ranks to wait for. -/
structure Inv (st : State) : Prop where
  sound : Gate.Sound nranks 0 (toGate st)
  sense : st.sense = st.flips % 2
  senses : ∀ r < nranks, (st.place r).Senses st.flips
  beyond : ∀ r, nranks ≤ r → st.place r = .outside
  entered : ∀ r, st.entered r = st.left r + if st.place r = .outside then 0 else 1

variable {nranks} {st st' : State} {r q : ℕ}

theorem Place.wake_toGate (p : Place) (sense flips : ℕ) :
    p.wake.toGate sense flips = p.toGate sense flips := by
  unfold Place.wake
  split <;> rfl

theorem Place.wake_eq_iff (p : Place) : p.wake = .outside ↔ p = .outside := by
  unfold Place.wake
  split <;> simp

theorem Place.wake_eq_waking (p : Place) : p.wake = .waking ↔ p = .waking := by
  unfold Place.wake
  split <;> simp

theorem Place.wake_senses {p : Place} {flips : ℕ} (h : p.Senses flips) : p.wake.Senses flips := by
  unfold Place.wake
  split
  · exact h
  · exact h

theorem State.goto_self (st : State) (r : ℕ) (p : Place) : (st.goto r p).place r = p :=
  Function.update_self ..

theorem State.goto_ne (st : State) {r q : ℕ} (p : Place) (h : q ≠ r) :
    (st.goto r p).place q = st.place q := Function.update_of_ne h ..

theorem toGate_eq {g : Gate.State} (hgeneration : st.flips = g.generation)
    (hcount : st.count = g.count)
    (hplace : ∀ q, (st.place q).toGate st.sense st.flips = g.place q)
    (hpassed : ∀ q, st.left q + (if st.place q = .waking then 1 else 0) = g.passed q) :
    toGate st = g := by
  obtain ⟨generation, count, place, passed⟩ := g
  obtain rfl : st.flips = generation := hgeneration
  obtain rfl : st.count = count := hcount
  obtain rfl : (fun q => (st.place q).toGate st.sense st.flips) = place := funext hplace
  obtain rfl : (fun q => st.left q + if st.place q = .waking then 1 else 0) = passed :=
    funext hpassed
  rfl

/-- One rank changes its place, and is not about to wake the others before or after. -/
theorem toGate_goto {p : Place} (count : ℕ) (hold : st.place r ≠ .waking) (hnew : p ≠ .waking) :
    toGate { st.goto r p with count := count } =
      { (toGate st).goto r (p.toGate st.sense st.flips) with count := count } := by
  refine toGate_eq rfl rfl (fun q => ?_) fun q => ?_
  · show ((st.goto r p).place q).toGate st.sense st.flips =
      ((toGate st).goto r (p.toGate st.sense st.flips)).place q
    by_cases hq : q = r
    · subst hq
      rw [st.goto_self, Gate.State.goto_self]
    · rw [st.goto_ne p hq, Gate.State.goto_ne _ _ hq]
      rfl
  · show st.left q + (if (st.goto r p).place q = .waking then 1 else 0) = (toGate st).passed q
    by_cases hq : q = r
    · subst hq
      rw [st.goto_self, if_neg hnew]
      show _ = st.left q + if st.place q = .waking then 1 else 0
      rw [if_neg hold]
    · rw [st.goto_ne p hq]
      rfl

/-! ## The steps of the gate -/

section Steps

variable {mySense : ℕ}

/-- A step that only moves a rank within the same place of the gate. -/
theorem Inv.within {p : Place} (h : Inv nranks st) (hr : r < nranks) (hold : st.place r ≠ .waking)
    (hnew : p ≠ .waking)
    (hgate : p.toGate st.sense st.flips = (st.place r).toGate st.sense st.flips)
    (hsenses : p.Senses st.flips)
    (hentered : p = .outside ↔ st.place r = .outside) : Inv nranks (st.goto r p) := by
  have hsame : toGate (st.goto r p) = toGate st := by
    refine (toGate_goto st.count hold hnew).trans ?_
    rw [hgate]
    show (toGate st).goto r ((toGate st).place r) = toGate st
    unfold Gate.State.goto
    rw [Function.update_eq_self]
  refine ⟨hsame ▸ h.sound, h.sense, fun q hq => ?_, fun q hq => ?_, fun q => ?_⟩
  · by_cases hqr : q = r
    · subst hqr
      rw [st.goto_self]
      exact hsenses
    · rw [st.goto_ne p hqr]
      exact h.senses q hq
  · rw [st.goto_ne p (by omega)]
    exact h.beyond q hq
  · show st.entered q = st.left q + if (st.goto r p).place q = .outside then 0 else 1
    by_cases hqr : q = r
    · subst hqr
      rw [st.goto_self, h.entered q]
      simp only [hentered]
    · rw [st.goto_ne p hqr]
      exact h.entered q

/-- A step of the gate that leaves the sense. -/
theorem Inv.move {p : Place} (count : ℕ) (h : Inv nranks st) (hr : r < nranks)
    (hold : st.place r ≠ .waking) (hnew : p ≠ .waking) (hin : st.place r ≠ .outside)
    (hin' : p ≠ .outside)
    (hgate : Gate.step nranks (toGate st) r =
      some { (toGate st).goto r (p.toGate st.sense st.flips) with count := count })
    (hsenses : p.Senses st.flips) : Inv nranks { st.goto r p with count := count } := by
  refine ⟨?_, h.sense, fun q hq => ?_, fun q hq => ?_, fun q => ?_⟩
  · rw [toGate_goto count hold hnew]
    exact h.sound.step hr hgate
  · show ((st.goto r p).place q).Senses st.flips
    by_cases hqr : q = r
    · subst hqr
      rw [st.goto_self]
      exact hsenses
    · rw [st.goto_ne p hqr]
      exact h.senses q hq
  · show (st.goto r p).place q = .outside
    rw [st.goto_ne p (by omega)]
    exact h.beyond q hq
  · show st.entered q = st.left q + if (st.goto r p).place q = .outside then 0 else 1
    by_cases hqr : q = r
    · subst hqr
      rw [st.goto_self, h.entered q, if_neg hin, if_neg hin']
    · rw [st.goto_ne p hqr]
      exact h.entered q

/-- A rank returns; the others may be woken. -/
theorem Inv.leave (place : ℕ → Place) (h : Inv nranks st) (hin : st.place r ≠ .outside)
    (hsound : Gate.Sound nranks 0 (toGate ({ st with place := place }.leave r)))
    (hother : ∀ q, q ≠ r → place q = st.place q ∨ place q = (st.place q).wake) :
    Inv nranks ({ st with place := place }.leave r) := by
  have hplace : ∀ q, q ≠ r → ({ st with place := place }.leave r).place q = place q :=
    fun q hq => Function.update_of_ne hq ..
  have hself : ({ st with place := place }.leave r).place r = .outside := Function.update_self ..
  refine ⟨hsound, h.sense, fun q hq => ?_, fun q hq => ?_, fun q => ?_⟩
  · by_cases hqr : q = r
    · subst hqr
      rw [hself]
      exact trivial
    · rw [hplace q hqr]
      rcases hother q hqr with heq | heq <;> rw [heq]
      · exact h.senses q hq
      · exact Place.wake_senses (h.senses q hq)
  · have hout := h.beyond q hq
    have hqr : q ≠ r := by
      rintro rfl
      exact hin hout
    rw [hplace q hqr]
    rcases hother q hqr with heq | heq <;> rw [heq]
    · exact hout
    · exact (Place.wake_eq_iff _).2 hout
  · show st.entered q = Function.update st.left r (st.left r + 1) q + _
    by_cases hqr : q = r
    · subst hqr
      rw [hself, Function.update_self, if_pos rfl, h.entered q, if_neg hin]
    · rw [hplace q hqr, Function.update_of_ne hqr, h.entered q]
      rcases hother q hqr with heq | heq <;> rw [heq]
      simp only [Place.wake_eq_iff]

theorem Inv.called (h : Inv nranks st) (hr : r < nranks) (hp : st.place r = .called) :
    Inv nranks (st.goto r (.loaded ((wordMod + 1 - st.sense) % wordMod))) := by
  have hsense : (wordMod + 1 - st.sense) % wordMod = (st.flips + 1) % 2 := by
    rw [h.sense]
    unfold wordMod
    omega
  refine h.move st.count hr (by simp [hp]) (by simp) (by simp [hp]) (by simp) ?_ hsense
  unfold Gate.step
  rw [show (toGate st).place r = .outside by simp [toGate, hp, Place.toGate]]
  rfl

theorem Inv.loaded (h : Inv nranks st) (hn : nranks < 2 ^ 31) (hr : r < nranks)
    (hp : st.place r = .loaded mySense) :
    Inv nranks { st.goto r (if (st.count + 1) % wordMod = nranks then .resetting mySense
      else .waiting mySense (.spinning 0)) with count := (st.count + 1) % wordMod } := by
  have hgate : (toGate st).place r = .loaded st.flips := by simp [toGate, hp, Place.toGate]
  have hlt : st.count < nranks := (h.sound.counting hr (by simp [hgate]) (by rw [hgate]; rfl)).2
  have hcount : (st.count + 1) % wordMod = st.count + 1 :=
    Nat.mod_eq_of_lt (by unfold wordMod; omega)
  have hmine : mySense = (st.flips + 1) % 2 := by
    have hsenses := h.senses r hr
    rw [hp] at hsenses
    exact hsenses
  have hne : st.sense ≠ mySense := by
    rw [h.sense, hmine]
    omega
  have hplace : Place.toGate st.sense st.flips
      (if st.count + 1 = nranks then .resetting mySense else .waiting mySense (.spinning 0)) =
        if st.count + 1 = nranks then .resetting st.flips else .waiting st.flips := by
    split
    · rfl
    · simp [Place.toGate, hne]
  rw [hcount]
  refine h.move _ hr (by simp [hp]) (by split <;> simp) (by simp [hp]) (by split <;> simp) ?_ ?_
  · unfold Gate.step
    rw [hgate, hplace]
    rfl
  · split
    · exact hmine
    · exact .inl hmine

theorem Inv.resetting (h : Inv nranks st) (hr : r < nranks) (hp : st.place r = .resetting mySense) :
    Inv nranks { st.goto r (.flipping mySense) with count := 0 } := by
  refine h.move _ hr (by simp [hp]) (by simp) (by simp [hp]) (by simp) ?_ ?_
  · unfold Gate.step
    rw [show (toGate st).place r = .resetting st.flips by simp [toGate, hp, Place.toGate]]
    rfl
  · have hsenses := h.senses r hr
    rw [hp] at hsenses
    exact hsenses

/-- A rank that waits for the last one has not been released. -/
theorem Inv.unreleased (h : Inv nranks st) (hq : q < nranks)
    (hgate : (toGate st).place q = .waiting st.flips) :
    ∃ mySense spot, st.place q = .waiting mySense spot ∧ mySense = (st.flips + 1) % 2 := by
  have hsenses := h.senses q hq
  change (st.place q).toGate st.sense st.flips = _ at hgate
  cases hp : st.place q with
  | waiting mySense spot =>
    rw [hp] at hsenses hgate
    refine ⟨mySense, spot, rfl, ?_⟩
    rcases hsenses with heq | ⟨heq, hpos⟩
    · exact heq
    · have hsense : st.sense = mySense := h.sense.trans heq.symm
      simp only [Place.toGate, if_pos hsense, Gate.Place.waiting.injEq] at hgate
      omega
  | outside => rw [hp] at hgate; cases hgate
  | called => rw [hp] at hgate; cases hgate
  | loaded _ => rw [hp] at hgate; cases hgate
  | resetting _ => rw [hp] at hgate; cases hgate
  | flipping _ => rw [hp] at hgate; cases hgate
  | waking => rw [hp] at hgate; cases hgate

/-- **The last rank flips the sense:** all the others wait for that. -/
theorem Inv.flipping (h : Inv nranks st) (hr : r < nranks) (hp : st.place r = .flipping mySense) :
    Inv nranks { st.goto r .waking with sense := mySense, flips := st.flips + 1 } := by
  have hgate : (toGate st).place r = .raising st.flips := by simp [toGate, hp, Place.toGate]
  have hmine : mySense = (st.flips + 1) % 2 := by
    have hsenses := h.senses r hr
    rw [hp] at hsenses
    exact hsenses
  have hothers : ∀ q < nranks, q ≠ r →
      ∃ spot, st.place q = .waiting mySense spot ∧ (toGate st).place q = .waiting st.flips := by
    intro q hq hqr
    have hwait := h.sound.last r hr (by rw [hgate]; rfl) q hq hqr
    obtain ⟨sense, spot, hplace, hsense⟩ := h.unreleased hq hwait
    exact ⟨spot, by rw [hplace, hsense, hmine], hwait⟩
  have hstep : Gate.step nranks (toGate st) r =
      some { (toGate st).pass r with generation := st.flips + 1 } := by
    unfold Gate.step
    rw [hgate]
  have hsame : toGate { st.goto r .waking with sense := mySense, flips := st.flips + 1 } =
      { (toGate st).pass r with generation := st.flips + 1 } := by
    refine toGate_eq rfl rfl (fun q => ?_) fun q => ?_
    · show ((st.goto r .waking).place q).toGate mySense (st.flips + 1) =
        ((toGate st).pass r).place q
      by_cases hqr : q = r
      · subst hqr
        rw [st.goto_self, Gate.State.pass_self]
        rfl
      · rw [st.goto_ne _ hqr, Gate.State.pass_ne _ hqr]
        by_cases hq : q < nranks
        · obtain ⟨spot, hplace, hwait⟩ := hothers q hq hqr
          rw [hplace, hwait]
          simp [Place.toGate]
        · have hout := h.beyond q (Nat.le_of_not_lt hq)
          simp [toGate, hout, Place.toGate]
    · show st.left q + (if (st.goto r .waking).place q = .waking then 1 else 0) =
        ((toGate st).pass r).passed q
      by_cases hqr : q = r
      · subst hqr
        rw [st.goto_self, Gate.State.pass_passed_self]
        simp [toGate, hp]
      · rw [st.goto_ne _ hqr, Gate.State.pass_passed_ne _ hqr]
        rfl
  refine ⟨hsame ▸ h.sound.step hr hstep, hmine, fun q hq => ?_, fun q hq => ?_, fun q => ?_⟩
  · show ((st.goto r .waking).place q).Senses (st.flips + 1)
    by_cases hqr : q = r
    · subst hqr
      rw [st.goto_self]
      exact trivial
    · obtain ⟨spot, hplace, -⟩ := hothers q hq hqr
      rw [st.goto_ne _ hqr, hplace]
      exact .inr ⟨hmine, Nat.le_add_left 1 _⟩
  · show (st.goto r .waking).place q = .outside
    rw [st.goto_ne _ (by omega)]
    exact h.beyond q hq
  · show st.entered q = st.left q + if (st.goto r .waking).place q = .outside then 0 else 1
    by_cases hqr : q = r
    · subst hqr
      rw [st.goto_self, h.entered q, hp]
      rfl
    · rw [st.goto_ne _ hqr]
      exact h.entered q

theorem Inv.waking (h : Inv nranks st) (hp : st.place r = .waking) :
    Inv nranks ({ st with place := fun q => (st.place q).wake }.leave r) := by
  have hsame : toGate ({ st with place := fun q => (st.place q).wake }.leave r) = toGate st := by
    refine toGate_eq rfl rfl (fun q => ?_) fun q => ?_
    · show (Function.update (fun q => (st.place q).wake) r .outside q).toGate st.sense st.flips =
        (st.place q).toGate st.sense st.flips
      by_cases hqr : q = r
      · subst hqr
        rw [Function.update_self, hp]
        rfl
      · rw [Function.update_of_ne hqr]
        exact Place.wake_toGate _ _ _
    · show Function.update st.left r (st.left r + 1) q +
          (if Function.update (fun q => (st.place q).wake) r .outside q = .waking then 1 else 0) =
        st.left q + if st.place q = .waking then 1 else 0
      by_cases hqr : q = r
      · subst hqr
        rw [Function.update_self, Function.update_self, hp]
        simp
      · rw [Function.update_of_ne hqr, Function.update_of_ne hqr]
        simp only [Place.wake_eq_waking]
  exact h.leave _ (by simp [hp]) (hsame ▸ h.sound) fun q _ => .inr rfl

/-- **A released rank leaves.** -/
theorem Inv.released {spot : Spot} (h : Inv nranks st) (hr : r < nranks)
    (hp : st.place r = .waiting mySense spot) (hsense : st.sense = mySense) :
    Inv nranks (st.leave r) := by
  have hpos : 1 ≤ st.flips := by
    have hsenses := h.senses r hr
    rw [hp] at hsenses
    rcases hsenses with heq | ⟨-, hpos⟩
    · have hs := h.sense
      omega
    · exact hpos
  have hgate : (toGate st).place r = .waiting (st.flips - 1) := by
    simp [toGate, hp, Place.toGate, hsense]
  have hstep : Gate.step nranks (toGate st) r = some ((toGate st).pass r) := by
    unfold Gate.step
    rw [hgate]
    exact if_pos (show st.flips - 1 < st.flips by omega)
  have hsame : toGate (st.leave r) = (toGate st).pass r := by
    refine toGate_eq rfl rfl (fun q => ?_) fun q => ?_
    · show (Function.update st.place r .outside q).toGate st.sense st.flips =
        ((toGate st).pass r).place q
      by_cases hqr : q = r
      · subst hqr
        rw [Function.update_self, Gate.State.pass_self]
        rfl
      · rw [Function.update_of_ne hqr, Gate.State.pass_ne _ hqr]
        rfl
    · show Function.update st.left r (st.left r + 1) q +
          (if Function.update st.place r .outside q = .waking then 1 else 0) =
        ((toGate st).pass r).passed q
      by_cases hqr : q = r
      · subst hqr
        rw [Function.update_self, Function.update_self, Gate.State.pass_passed_self]
        simp [toGate, hp]
      · rw [Function.update_of_ne hqr, Function.update_of_ne hqr, Gate.State.pass_passed_ne _ hqr]
        rfl
  have hnew : Gate.Sound nranks 0 (toGate (st.leave r)) := hsame ▸ h.sound.step hr hstep
  exact h.leave st.place (by simp [hp]) hnew fun q _ => .inl rfl

end Steps

/-! ## What a rank does next -/

/-- The accesses of a rank inside the barrier. -/
inductive Goes (nranks : ℕ) (st : State) (r : ℕ) : State → Prop
  | called (hp : st.place r = .called) :
    Goes nranks st r (st.goto r (.loaded ((wordMod + 1 - st.sense) % wordMod)))
  | loaded (mySense : ℕ) (hp : st.place r = .loaded mySense) :
    Goes nranks st r { st.goto r (if (st.count + 1) % wordMod = nranks then .resetting mySense
      else .waiting mySense (.spinning 0)) with count := (st.count + 1) % wordMod }
  | resetting (mySense : ℕ) (hp : st.place r = .resetting mySense) :
    Goes nranks st r { st.goto r (.flipping mySense) with count := 0 }
  | flipping (mySense : ℕ) (hp : st.place r = .flipping mySense) :
    Goes nranks st r { st.goto r .waking with sense := mySense, flips := st.flips + 1 }
  | waking (hp : st.place r = .waking) :
    Goes nranks st r ({ st with place := fun q => (st.place q).wake }.leave r)
  | waiting (mySense : ℕ) (spot spot' : Spot) (hp : st.place r = .waiting mySense spot)
      (hnext : spot.next st.sense mySense = some spot') :
    Goes nranks st r (st.goto r (.waiting mySense spot'))
  | leaves (mySense : ℕ) (spot : Spot) (hp : st.place r = .waiting mySense spot)
      (hnext : spot.next st.sense mySense = none) :
    Goes nranks st r (st.leave r)

theorem go_iff : go nranks st r = some st' ↔ Goes nranks st r st' := by
  constructor
  · intro h
    unfold go at h
    cases hp : st.place r with
    | outside => rw [hp] at h; cases h
    | called => rw [hp] at h; cases h; exact .called hp
    | loaded mySense => rw [hp] at h; cases h; exact .loaded mySense hp
    | resetting mySense => rw [hp] at h; cases h; exact .resetting mySense hp
    | flipping mySense => rw [hp] at h; cases h; exact .flipping mySense hp
    | waking => rw [hp] at h; cases h; exact .waking hp
    | waiting mySense spot =>
      rw [hp] at h
      cases hnext : spot.next st.sense mySense with
      | none =>
        simp only [hnext] at h
        cases h
        exact .leaves mySense spot hp hnext
      | some spot' =>
        simp only [hnext] at h
        cases h
        exact .waiting mySense spot spot' hp hnext
  · intro h
    unfold go
    cases h with
    | called hp => rw [hp]
    | loaded mySense hp => rw [hp]
    | resetting mySense hp => rw [hp]
    | flipping mySense hp => rw [hp]
    | waking hp => rw [hp]
    | waiting mySense spot spot' hp hnext => simp only [hp, hnext]
    | leaves mySense spot hp hnext => simp only [hp, hnext]

theorem sense_of_next {spot : Spot} {sense mySense : ℕ} (h : spot.next sense mySense = none) :
    sense = mySense := by
  cases spot with
  | spinning spin =>
    by_contra hne
    simp only [Spot.next, if_neg hne] at h
    split at h <;> cases h
  | testing =>
    by_contra hne
    simp only [Spot.next, if_neg hne] at h
    cases h
  | loading => cases h
  | retesting current =>
    by_contra hne
    simp only [Spot.next, if_neg hne] at h
    cases h
  | futex current =>
    simp only [Spot.next] at h
    split at h <;> cases h
  | sleeping => cases h

theorem Inv.go (h : Inv nranks st) (hn : nranks < 2 ^ 31) (hr : r < nranks)
    (hgoes : Goes nranks st r st') : Inv nranks st' := by
  cases hgoes with
  | called hp => exact h.called hr hp
  | loaded mySense hp => exact h.loaded hn hr hp
  | resetting mySense hp => exact h.resetting hr hp
  | flipping mySense hp => exact h.flipping hr hp
  | waking hp => exact h.waking hp
  | waiting mySense spot spot' hp hnext =>
    have hsenses := h.senses r hr
    rw [hp] at hsenses
    exact h.within hr (by simp [hp]) (by simp) (by rw [hp]; rfl) hsenses (by simp [hp])
  | leaves mySense spot hp hnext => exact h.released hr hp (sense_of_next hnext)

theorem Inv.enter (h : Inv nranks st) (hr : r < nranks) (hp : st.place r = .outside) :
    Inv nranks ({ st with entered := Function.update st.entered r (st.entered r + 1) }.goto r
      .called) := by
  have hsame : toGate ({ st with entered := Function.update st.entered r (st.entered r + 1) }.goto r
      .called) = toGate st := by
    refine toGate_eq rfl rfl (fun q => ?_) fun q => ?_
    · show (Function.update st.place r .called q).toGate st.sense st.flips =
        (st.place q).toGate st.sense st.flips
      by_cases hqr : q = r
      · subst hqr
        rw [Function.update_self, hp]
        rfl
      · rw [Function.update_of_ne hqr]
    · show st.left q + (if Function.update st.place r .called q = .waking then 1 else 0) =
        st.left q + if st.place q = .waking then 1 else 0
      by_cases hqr : q = r
      · subst hqr
        rw [Function.update_self, hp]
        rfl
      · rw [Function.update_of_ne hqr]
  refine ⟨hsame ▸ h.sound, h.sense, fun q hq => ?_, fun q hq => ?_, fun q => ?_⟩
  · show (Function.update st.place r .called q).Senses st.flips
    by_cases hqr : q = r
    · subst hqr
      rw [Function.update_self]
      exact trivial
    · rw [Function.update_of_ne hqr]
      exact h.senses q hq
  · show Function.update st.place r .called q = .outside
    rw [Function.update_of_ne (by omega)]
    exact h.beyond q hq
  · show Function.update st.entered r (st.entered r + 1) q =
      st.left q + if Function.update st.place r .called q = .outside then 0 else 1
    by_cases hqr : q = r
    · subst hqr
      rw [Function.update_self, Function.update_self, h.entered q, hp]
      rfl
    · rw [Function.update_of_ne hqr, Function.update_of_ne hqr]
      exact h.entered q

/-- The steps of the barrier, where there are ranks to wait for. -/
theorem step_cases (hranks : 1 < nranks) {l : Label} (hst : step nranks st l = some st') :
    (∃ r < nranks, l = .enter r ∧ st.place r = .outside ∧
      st' = { st with entered := Function.update st.entered r (st.entered r + 1) }.goto r .called) ∨
    ∃ r < nranks, l = .go r ∧ Goes nranks st r st' := by
  cases l with
  | enter r =>
    simp only [step] at hst
    split at hst
    · rename_i hcond
      refine .inl ⟨r, hcond.1, rfl, hcond.2, ?_⟩
      unfold SenseBarrier.enter at hst
      rw [if_neg (by omega)] at hst
      exact (Option.some.inj hst).symm
    · cases hst
  | go r =>
    simp only [step] at hst
    split at hst
    · rename_i hr
      exact .inr ⟨r, hr, rfl, go_iff.1 hst⟩
    · cases hst

theorem Inv.step {l : Label} (h : Inv nranks st) (hn : nranks < 2 ^ 31) (hranks : 1 < nranks)
    (hst : step nranks st l = some st') : Inv nranks st' := by
  rcases step_cases hranks hst with ⟨r, hr, -, hp, rfl⟩ | ⟨r, hr, -, hgoes⟩
  · exact h.enter hr hp
  · exact h.go hn hr hgoes

theorem start_inv (hranks : 1 < nranks) : Inv nranks start := by
  have hgate : toGate start = Gate.State.init 0 := rfl
  exact ⟨hgate ▸ Gate.Sound.init (by omega) 0, rfl, fun _ _ => trivial, fun _ _ => rfl,
    fun _ => rfl⟩

/-! ## Who has entered and who has left -/

/-- The round of a rank: it has left as often as the sense was flipped, or it is released. -/
theorem Inv.flips_eq (h : Inv nranks st) (hr : r < nranks) :
    st.flips = st.left r + if (st.place r).released st.sense then 1 else 0 := by
  have hlevel := h.sound.level r hr
  have hsenses := h.senses r hr
  change 0 + (st.left r + if st.place r = .waking then 1 else 0) +
    (if ((st.place r).toGate st.sense st.flips).past st.flips then 1 else 0) = st.flips at hlevel
  cases hp : st.place r with
  | waiting mySense spot =>
    rw [hp] at hlevel hsenses
    by_cases hsense : st.sense = mySense
    · have hpos : 1 ≤ st.flips := by
        rcases hsenses with heq | ⟨-, hpos⟩
        · have hs := h.sense
          omega
        · exact hpos
      have hlt : st.flips - 1 < st.flips := by omega
      simp [Place.toGate, hsense, Gate.Place.past, hlt] at hlevel
      simp [Place.released, hsense, hlevel]
    · simp [Place.toGate, hsense, Gate.Place.past] at hlevel
      simp [Place.released, hsense, hlevel]
  | outside | called | loaded | resetting | flipping | waking =>
    rw [hp] at hlevel
    simpa [Place.toGate, Gate.Place.past, Place.released] using hlevel.symm

/-- **No rank leaves before all have entered.** -/
theorem Inv.left_le_entered (h : Inv nranks st) (hr : r < nranks) (hq : q < nranks) :
    st.left r ≤ st.entered q := by
  have hle := h.sound.passed_le_arrived hr hq
  have hentered := h.entered q
  change st.left r + (if st.place r = .waking then 1 else 0) ≤
    st.left q + (if st.place q = .waking then 1 else 0) +
      (if ((st.place q).toGate st.sense st.flips).entered then 1 else 0) at hle
  have hbound : (if st.place q = .waking then 1 else 0) +
      (if ((st.place q).toGate st.sense st.flips).entered then 1 else 0) ≤
        if st.place q = .outside then 0 else 1 := by
    cases hp : st.place q <;> simp [Place.toGate, Gate.Place.entered]
  omega

/-! ## Every rank gets on -/

section Frame

/-- A step is about one rank, but for the sleepers that wake. -/
theorem Goes.other (h : Goes nranks st r st') (hqr : q ≠ r) :
    (st'.place q = st.place q ∨ st'.place q = (st.place q).wake) ∧ st'.left q = st.left q ∧
      st'.entered q = st.entered q := by
  cases h with
  | waking hp =>
    exact ⟨.inr (Function.update_of_ne hqr ..), Function.update_of_ne hqr .., rfl⟩
  | leaves => exact ⟨.inl (Function.update_of_ne hqr ..), Function.update_of_ne hqr .., rfl⟩
  | called | loaded | resetting | flipping | waiting => exact ⟨.inl (st.goto_ne _ hqr), rfl, rfl⟩

theorem Goes.entered (h : Goes nranks st r st') : st'.entered = st.entered := by
  cases h <;> rfl

theorem Goes.flips_le (h : Goes nranks st r st') : st.flips ≤ st'.flips := by
  cases h with
  | flipping => exact Nat.le_succ _
  | called | loaded | resetting | waking | waiting | leaves => exact le_rfl

end Frame

/-- What a rank has left to do until the sense is flipped, whoever flips it. -/
def Place.work : Place → ℕ
  | .called => 4
  | .loaded _ => 3
  | .resetting _ => 2
  | .flipping _ => 1
  | _ => 0

/-- What a released rank has left to do until it leaves. -/
def Place.rest : Place → ℕ
  | .waking => 1
  | .waiting _ (.futex _) => 3
  | .waiting _ .loading | .waiting _ .sleeping => 2
  | .waiting _ _ => 1
  | _ => 0

theorem Place.wake_work (p : Place) : p.wake.work = p.work := by
  unfold Place.wake
  split <;> rfl

theorem Place.wake_rest (p : Place) : p.wake.rest ≤ p.rest := by
  unfold Place.wake
  split
  · exact Nat.le_succ 1
  · exact le_rfl

/-- All have entered round `n`, and the sense is not yet flipped for it. -/
structure Gathering (nranks n : ℕ) (st : State) : Prop where
  inv : Inv nranks st
  entered : ∀ q < nranks, n ≤ st.entered q
  closed : st.flips < n

/-- No rank is outside or released. -/
theorem Gathering.inside {n : ℕ} (h : Gathering nranks n st) (hr : r < nranks) :
    st.place r ≠ .outside ∧ (st.place r).released st.sense = false := by
  have hflips := h.inv.flips_eq hr
  have hentered := h.inv.entered r
  have hall := h.entered r hr
  have hclosed := h.closed
  refine ⟨fun hp => ?_, ?_⟩
  · rw [if_pos hp] at hentered
    omega
  · by_contra hrel
    rw [if_pos (by simpa using hrel)] at hflips
    split at hentered <;> omega

/-- Not all can be waiting for the last one. -/
theorem Gathering.exists_work {n : ℕ} (h : Gathering nranks n st) :
    ∃ r < nranks, 0 < (st.place r).work := by
  by_contra hnone
  push Not at hnone
  have hwaiting : ∀ r < nranks, (toGate st).place r = .waiting st.flips := by
    intro r hr
    obtain ⟨hin, hrel⟩ := h.inside hr
    have hwork := hnone r hr
    show (st.place r).toGate st.sense st.flips = _
    cases hp : st.place r with
    | waiting mySense spot =>
      rw [hp] at hrel
      have hne : st.sense ≠ mySense := of_decide_eq_false hrel
      simp [Place.toGate, hne]
    | outside => exact absurd hp hin
    | waking => rw [hp] at hrel; cases hrel
    | called | loaded | resetting | flipping => simp [hp, Place.work] at hwork
  have hmissing := h.inv.sound.missing fun r hr => by rw [hwaiting r hr]; rfl
  have hcount := h.inv.sound.count fun r hr g heq => by rw [hwaiting r hr] at heq; cases heq
  rw [Theory.countP_range_eq.2] at hcount
  · exact absurd hcount hmissing.ne
  · intro r hr
    rw [hwaiting r hr]
    exact decide_eq_true le_rfl

/-- A step either flips the sense or adds no work; the work of the rank that makes it is less. -/
theorem Gathering.go {n : ℕ} (h : Gathering nranks n st) (hn : nranks < 2 ^ 31) (hr : r < nranks)
    (hgoes : Goes nranks st r st') :
    n ≤ st'.flips ∨ Gathering nranks n st' ∧
      (∀ q < nranks, (st'.place q).work ≤ (st.place q).work) ∧
      (0 < (st.place r).work → (st'.place r).work < (st.place r).work) := by
  by_cases hopen : n ≤ st'.flips
  · exact .inl hopen
  obtain ⟨-, hrel⟩ := h.inside hr
  have hself : (st'.place r).work ≤ (st.place r).work ∧
      (0 < (st.place r).work → (st'.place r).work < (st.place r).work) := by
    cases hgoes with
    | called hp => rw [st.goto_self, hp]; simp [Place.work]
    | loaded mySense hp =>
      show ((st.goto r _).place r).work ≤ _ ∧ _
      rw [st.goto_self, hp]
      split <;> simp [Place.work]
    | resetting mySense hp =>
      show ((st.goto r _).place r).work ≤ _ ∧ (_ → ((st.goto r _).place r).work < _)
      rw [st.goto_self, hp]
      simp [Place.work]
    | flipping mySense hp =>
      show ((st.goto r _).place r).work ≤ _ ∧ (_ → ((st.goto r _).place r).work < _)
      rw [st.goto_self, hp]
      simp [Place.work]
    | waking hp => rw [hp] at hrel; cases hrel
    | waiting mySense spot spot' hp hnext => rw [st.goto_self, hp]; simp [Place.work]
    | leaves mySense spot hp hnext =>
      rw [hp] at hrel
      exact absurd (sense_of_next hnext) (of_decide_eq_false hrel)
  refine .inr ⟨⟨h.inv.go hn hr hgoes, ?_, Nat.lt_of_not_le hopen⟩, fun q _ => ?_, hself.2⟩
  · rw [hgoes.entered]
    exact h.entered
  · by_cases hqr : q = r
    · rw [hqr]
      exact hself.1
    · rcases (hgoes.other hqr).1 with heq | heq <;> rw [heq]
      rw [Place.wake_work]

/-- Rank `r` is released in round `n`. -/
structure Leaving (nranks n r : ℕ) (st : State) : Prop where
  inv : Inv nranks st
  left : st.left r + 1 = n
  opened : st.flips = n

theorem Leaving.released {n : ℕ} (h : Leaving nranks n r st) (hr : r < nranks) :
    (st.place r).released st.sense = true := by
  have hflips := h.inv.flips_eq hr
  have hleft := h.left
  have hopened := h.opened
  by_contra hrel
  rw [if_neg hrel] at hflips
  omega

theorem Leaving.rest_pos {n : ℕ} (h : Leaving nranks n r st) (hr : r < nranks) :
    0 < (st.place r).rest := by
  have hrel := h.released hr
  cases hp : st.place r with
  | waking => decide
  | waiting mySense spot => cases spot <;> simp [Place.rest]
  | outside | called | loaded | resetting | flipping => rw [hp] at hrel; cases hrel

/-- The round of a rank does not end before the rank has left it. -/
theorem Leaving.keep {n : ℕ} (h : Leaving nranks n r st) (hr : r < nranks)
    (hinv : Inv nranks st') (hleft : st'.left r = st.left r) (hflips : st.flips ≤ st'.flips) :
    Leaving nranks n r st' := by
  refine ⟨hinv, by rw [hleft]; exact h.left, ?_⟩
  have hround := hinv.flips_eq hr
  have hold := h.left
  have hopened := h.opened
  split at hround <;> omega

/-- A released rank needs three more accesses at most. -/
theorem Leaving.go {n : ℕ} (h : Leaving nranks n r st) (hn : nranks < 2 ^ 31) (hr : r < nranks)
    (hgoes : Goes nranks st r st') :
    n ≤ st'.left r ∨ Leaving nranks n r st' ∧ (st'.place r).rest < (st.place r).rest := by
  have hrel := h.released hr
  have hround := h.left
  have hinv := h.inv.go hn hr hgoes
  have hflips := hgoes.flips_le
  cases hgoes with
  | waking hp | leaves mySense spot hp hnext =>
    refine .inl ?_
    show n ≤ Function.update st.left r (st.left r + 1) r
    rw [Function.update_self]
    exact hround.ge
  | waiting mySense spot spot' hp hnext =>
    refine .inr ⟨h.keep hr hinv rfl hflips, ?_⟩
    rw [hp] at hrel
    have hsense : st.sense = mySense := of_decide_eq_true hrel
    rw [st.goto_self, hp]
    cases spot with
    | spinning spin => simp [Spot.next, hsense] at hnext
    | testing => simp [Spot.next, hsense] at hnext
    | loading => cases hnext; simp [Place.rest]
    | retesting current => simp [Spot.next, hsense] at hnext
    | futex current =>
      simp only [Spot.next] at hnext
      split at hnext <;> cases hnext <;> simp [Place.rest]
    | sleeping => cases hnext; simp [Place.rest]
  | called hp | loaded mySense hp | resetting mySense hp | flipping mySense hp =>
    rw [hp] at hrel
    cases hrel

theorem Leaving.other {n : ℕ} (h : Leaving nranks n r st) (hn : nranks < 2 ^ 31) (hr : r < nranks)
    (hq : q < nranks) (hrq : r ≠ q) (hgoes : Goes nranks st q st') :
    Leaving nranks n r st' ∧ (st'.place r).rest ≤ (st.place r).rest := by
  obtain ⟨hplace, hleft, -⟩ := hgoes.other hrq
  refine ⟨h.keep hr (h.inv.go hn hq hgoes) hleft hgoes.flips_le, ?_⟩
  rcases hplace with heq | heq <;> rw [heq]
  exact Place.wake_rest _

section Live

variable {b : Behaviour (machine nranks)} {n : ℕ}

/-- A rank that is inside goes on in the end. -/
def Fair (b : Behaviour (machine nranks)) : Prop :=
  ∀ i, ∀ r < nranks, (b.state i).place r ≠ .outside → ∃ j, i ≤ j ∧ b.label j = .go r

theorem behaviour_inv (hn : nranks < 2 ^ 31) (hranks : 1 < nranks) (h0 : b.state 0 = start) :
    ∀ i, Inv nranks (b.state i) :=
  Behaviour.invariant (fun _ _ _ h hst => h.step hn hranks hst) (h0 ▸ start_inv hranks)

/-- **The sense is flipped** once all have entered. -/
theorem flips_of_entered (hn : nranks < 2 ^ 31) (hranks : 1 < nranks) (hfair : Fair b) :
    b.LeadsTo (Gathering nranks n) fun st => n ≤ st.flips := by
  refine Behaviour.leadsTo_of_work nranks (fun st r => (st.place r).work)
    Label.go (fun st l st' hP hst => ?_) (fun st r st' hP hr hpos hst => ?_)
    (fun st hP => hP.exists_work) fun i hP r hr hpos => hfair i r hr (hP.inside hr).1
  · rcases step_cases hranks hst with ⟨r, hr, -, hp, -⟩ | ⟨r, hr, -, hgoes⟩
    · exact absurd hp (hP.inside hr).1
    · rcases hP.go hn hr hgoes with hQ | ⟨hP', hwork, -⟩
      · exact .inl hQ
      · exact .inr ⟨hP', hwork⟩
  · change step nranks st (.go r) = some st' at hst
    rcases step_cases hranks hst with ⟨q, -, heq, -⟩ | ⟨q, -, heq, hgoes⟩
    · cases heq
    · cases heq
      rcases hP.go hn hr hgoes with hQ | ⟨-, -, hlt⟩
      · exact .inl hQ
      · exact .inr (hlt hpos)

/-- **A released rank leaves.** -/
theorem left_of_leaving {r : ℕ} (hn : nranks < 2 ^ 31) (hranks : 1 < nranks) (hr : r < nranks)
    (hfair : Fair b) : b.LeadsTo (Leaving nranks n r) fun st => n ≤ st.left r := by
  refine Behaviour.leadsTo_of_work 1 (fun st _ => (st.place r).rest)
    (fun _ => Label.go r) (fun st l st' hP hst => ?_) (fun st _ st' hP _ _ hst => ?_)
    (fun st hP => ⟨0, Nat.one_pos, hP.rest_pos hr⟩) fun i hP _ _ _ => hfair i r hr ?_
  · rcases step_cases hranks hst with ⟨q, hq, -, hp, rfl⟩ | ⟨q, hq, -, hgoes⟩
    · have hrq : r ≠ q := by
        rintro rfl
        have hrel := hP.released hr
        rw [hp] at hrel
        cases hrel
      refine .inr ⟨hP.keep hr (hP.inv.enter hq hp) rfl le_rfl, fun _ _ => ?_⟩
      show (Function.update st.place q .called r).rest ≤ _
      rw [Function.update_of_ne hrq]
    · by_cases hrq : r = q
      · subst hrq
        rcases hP.go hn hr hgoes with hQ | ⟨hP', hlt⟩
        · exact .inl hQ
        · exact .inr ⟨hP', fun _ _ => hlt.le⟩
      · obtain ⟨hP', hle⟩ := hP.other hn hr hq hrq hgoes
        exact .inr ⟨hP', fun _ _ => hle⟩
  · change step nranks st (.go r) = some st' at hst
    rcases step_cases hranks hst with ⟨q, -, heq, -⟩ | ⟨q, -, heq, hgoes⟩
    · cases heq
    · cases heq
      rcases hP.go hn hr hgoes with hQ | ⟨-, hlt⟩
      · exact .inl hQ
      · exact .inr hlt
  · intro hp
    have hrel := hP.released hr
    rw [hp] at hrel
    cases hrel

theorem entered_mono (hranks : 1 < nranks) {i j : ℕ} (hij : i ≤ j) (q : ℕ) :
    (b.state i).entered q ≤ (b.state j).entered q := by
  refine Behaviour.stable (I := fun st : State => (b.state i).entered q ≤ st.entered q) hij
    (fun k _ hk => hk.trans ?_) le_rfl
  rcases step_cases hranks (b.step k) with ⟨r, -, -, -, heq⟩ | ⟨r, -, -, hgoes⟩
  · rw [heq]
    show _ ≤ Function.update (b.state k).entered r ((b.state k).entered r + 1) q
    by_cases hqr : q = r
    · subst hqr
      rw [Function.update_self]
      exact Nat.le_succ _
    · rw [Function.update_of_ne hqr]
  · rw [hgoes.entered]

/-- A rank leaves the round that all have entered. -/
theorem exists_left (hn : nranks < 2 ^ 31) (hranks : 1 < nranks) (h0 : b.state 0 = start)
    (hfair : Fair b) {i : ℕ} (hentered : ∀ q < nranks, n ≤ (b.state i).entered q) {r : ℕ}
    (hr : r < nranks) : ∃ j, i ≤ j ∧ n ≤ (b.state j).left r := by
  have hinv := behaviour_inv hn hranks h0
  -- at some time the sense is flipped for the round
  have hopen : ∃ j, i ≤ j ∧ n ≤ (b.state j).flips := by
    by_cases hflips : n ≤ (b.state i).flips
    · exact ⟨i, le_rfl, hflips⟩
    · exact flips_of_entered hn hranks hfair i ⟨hinv i, hentered, Nat.lt_of_not_le hflips⟩
  obtain ⟨j, hij, hflips⟩ := hopen
  by_cases hleft : n ≤ (b.state j).left r
  · exact ⟨j, hij, hleft⟩
  · have hin := (hinv j).entered r
    have hround := (hinv j).flips_eq hr
    have hmono := entered_mono hranks hij r (b := b)
    have hall := hentered r hr
    have hleaving : Leaving nranks n r (b.state j) := by
      refine ⟨hinv j, ?_, ?_⟩
      · split at hin <;> omega
      · split at hround <;> omega
    obtain ⟨k, hjk, hk⟩ := left_of_leaving hn hranks hr hfair j hleaving
    exact ⟨k, hij.trans hjk, hk⟩

end Live

/-! ## The barrier works -/

/-- A rank that is alone leaves when it enters. -/
theorem alone_step (hranks : nranks ≤ 1) {l : Label}
    (h : ∀ r, st.place r = .outside ∧ st.left r = st.entered r)
    (hst : step nranks st l = some st') :
    ∀ r, st'.place r = .outside ∧ st'.left r = st'.entered r := by
  cases l with
  | enter r =>
    simp only [step] at hst
    split at hst <;> cases hst
    intro q
    unfold enter
    rw [if_pos hranks]
    show Function.update st.place r .outside q = .outside ∧
      Function.update st.left r (st.left r + 1) q =
        Function.update st.entered r (st.entered r + 1) q
    by_cases hqr : q = r
    · subst hqr
      rw [Function.update_self, Function.update_self, Function.update_self, (h q).2]
      exact ⟨rfl, rfl⟩
    · rw [Function.update_of_ne hqr, Function.update_of_ne hqr, Function.update_of_ne hqr]
      exact h q
  | go r =>
    simp only [step, go, (h r).1] at hst
    split at hst <;> cases hst

/-- **The barrier is safe and live.**  For any number of ranks, any number of rounds and any order
of their steps, no rank has left more calls than another has entered; and in a run in which a rank
inside goes on in the end, every rank leaves its `n`-th call once all have entered theirs. -/
theorem sense_barrier (hn : nranks < 2 ^ 31) :
    (∀ ls st, (machine nranks).runFrom Machine.anyStep start ls = some st →
      ∀ n, ∀ r < nranks, n ≤ st.left r → ∀ q < nranks, n ≤ st.entered q) ∧
    ∀ b : Behaviour (machine nranks), b.state 0 = start → Fair b →
      ∀ i n, (∀ q < nranks, n ≤ (b.state i).entered q) →
        ∀ r < nranks, ∃ j, i ≤ j ∧ n ≤ (b.state j).left r := by
  by_cases hranks : 1 < nranks
  · refine ⟨fun ls st hrun n r hr hleft q hq => ?_, fun b h0 hfair i n hentered r hr => ?_⟩
    · have hinv : Inv nranks st := (machine nranks).invariant
        (fun _ _ _ h _ hst => h.step hn hranks hst) (start_inv hranks) hrun
      exact hleft.trans (hinv.left_le_entered hr hq)
    · exact exists_left hn hranks h0 hfair hentered hr
  · have hone : nranks ≤ 1 := Nat.le_of_not_lt hranks
    have hstart : ∀ r, start.place r = .outside ∧ start.left r = start.entered r :=
      fun _ => ⟨rfl, rfl⟩
    refine ⟨fun ls st hrun n r hr hleft q hq => ?_, fun b h0 _ i n hentered r hr => ?_⟩
    · have hinv : ∀ r, st.place r = .outside ∧ st.left r = st.entered r :=
        (machine nranks).invariant (fun _ _ _ h _ hst => alone_step hone h hst) hstart hrun
      obtain rfl : q = r := by omega
      exact hleft.trans_eq (hinv q).2
    · have hinv : ∀ r, (b.state i).place r = .outside ∧
          (b.state i).left r = (b.state i).entered r :=
        Behaviour.invariant
          (I := fun st : State => ∀ r, st.place r = .outside ∧ st.left r = st.entered r)
          (fun _ _ _ h hst => alone_step hone h hst) (h0 ▸ hstart) i
      exact ⟨i, le_rfl, (hentered r hr).trans_eq (hinv r).2.symm⟩

/-! ## Taking turns -/

/-- The rank at hand enters, or goes on. -/
def turn (st : State) (r : ℕ) : Label := if st.place r = .outside then .enter r else .go r

theorem turn_isSome (hr : r < nranks) : (step nranks st (turn st r)).isSome := by
  unfold turn
  by_cases hp : st.place r = .outside
  · simp [step, hp, hr]
  · simp only [if_neg hp, step, if_pos hr]
    unfold go
    split
    · exact absurd (by assumption) hp
    all_goals first | rfl | (split <;> rfl)

/-- Two ranks take turns for ever. -/
def turns : ℕ → State
  | 0 => start
  | i + 1 =>
    (step 2 (turns i) (turn (turns i) (i % 2))).get (turn_isSome (Nat.mod_lt i Nat.two_pos))

def inTurns : Behaviour (machine 2) where
  state := turns
  label i := turn (turns i) (i % 2)
  step _ := (Option.some_get _).symm

theorem inTurns_fair : Fair inTurns := by
  intro i r hr hp
  by_cases hi : i % 2 = r
  · refine ⟨i, le_rfl, ?_⟩
    show turn (turns i) (i % 2) = _
    rw [hi]
    exact if_neg hp
  · refine ⟨i + 1, Nat.le_succ i, ?_⟩
    have hi' : (i + 1) % 2 = r := by omega
    show turn (turns (i + 1)) ((i + 1) % 2) = _
    rw [hi']
    refine if_neg ?_
    -- the other rank's turn leaves this one inside
    have hlabel : turn (turns i) (i % 2) = .enter (i % 2) ∨
        turn (turns i) (i % 2) = .go (i % 2) := by
      unfold turn
      split
      · exact .inl rfl
      · exact .inr rfl
    rcases step_cases (by decide : 1 < 2) (inTurns.step i) with
      ⟨q, -, hl, -, heq⟩ | ⟨q, -, hl, hgoes⟩
    · have hq : q = i % 2 := by
        change turn (turns i) (i % 2) = _ at hl
        rcases hlabel with h | h <;> rw [h] at hl <;> cases hl
        rfl
      change turns (i + 1) = _ at heq
      rw [heq]
      show Function.update (turns i).place q .called r ≠ _
      rw [Function.update_of_ne (by omega)]
      exact hp
    · have hq : q = i % 2 := by
        change turn (turns i) (i % 2) = _ at hl
        rcases hlabel with h | h <;> rw [h] at hl <;> cases hl
        rfl
      rcases (hgoes.other (q := r) (by omega)).1 with heq | heq
      · exact fun hout => hp (heq.symm.trans hout)
      · exact fun hout => hp ((Place.wake_eq_iff _).1 (heq.symm.trans hout))

/-- One round of two ranks: rank 1 arrives last and flips the sense. -/
def roundRun : List Label :=
  [.enter 0, .go 0, .go 0, .enter 1, .go 1, .go 1, .go 0, .go 1, .go 1, .go 0]

theorem sense_barrier_turns :
    (∃ st, (machine 2).runFrom Machine.anyStep start roundRun = some st ∧ st.left 0 = 1 ∧
      1 ≤ st.entered 1) ∧
    ∀ i n, (∀ q < 2, n ≤ (inTurns.state i).entered q) →
      ∀ r < 2, ∃ j, i ≤ j ∧ n ≤ (inTurns.state j).left r := by
  obtain ⟨hsafe, hlive⟩ := @sense_barrier 2 (by decide)
  have hseen : ((machine 2).runFrom Machine.anyStep start roundRun).map
      (fun st => st.left 0) = some 1 := by decide +kernel
  obtain ⟨st, hrun, hleft⟩ := Option.map_eq_some_iff.1 hseen
  exact ⟨⟨st, hrun, hleft, hsafe roundRun st hrun 1 0 (by decide) hleft.ge 1 (by decide)⟩,
    hlive inTurns rfl inTurns_fair⟩

end SenseBarrier
end Orchestrator
end HyLink
