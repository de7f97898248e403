import Mathlib.Logic.Function.Basic
import HyLink.Theory.Counting

/-!
# A gate that all parties pass together

The parties `0, …, parties - 1` meet again and again at a gate with a generation and a count.  Who
comes loads the generation and adds itself to the count; the last one resets the count and raises
the generation, and the others wait until it is past the one they loaded.  No wait gives up.

* `Gate.step` — one access to one of the two words.
* `Gate.Sound` — what holds at every moment: nobody is a round ahead, and the count counts.
* `Gate.Sound.step` — every step keeps it.
* `Gate.Sound.passed_le_arrived` — who has passed the gate `k` times has met everybody `k` times.
-/

namespace HyLink
namespace Theory
namespace Gate

/-- Where a party stands in a round; the number is the generation it loaded. -/
inductive Place where
  | outside
  | loaded (gen : ℕ)
  /-- The party is the last to arrive. -/
  | resetting (gen : ℕ)
  /-- The count is reset. -/
  | raising (gen : ℕ)
  | waiting (gen : ℕ)
  deriving DecidableEq, Repr

structure State where
  generation : ℕ
  count : ℕ
  place : ℕ → Place
  /-- How often a party has passed. -/
  passed : ℕ → ℕ

/-- Nobody is in a round; the generation is left from before. -/
def State.init (generation : ℕ) : State := ⟨generation, 0, fun _ => .outside, fun _ => 0⟩

namespace State

def goto (s : State) (r : ℕ) (p : Place) : State :=
  { s with place := Function.update s.place r p }

/-- The party is past the gate. -/
def pass (s : State) (r : ℕ) : State :=
  { s.goto r .outside with passed := Function.update s.passed r (s.passed r + 1) }

@[simp] theorem goto_self (s : State) (r : ℕ) (p : Place) : (s.goto r p).place r = p :=
  Function.update_self _ _ _

theorem goto_ne (s : State) {r q : ℕ} (p : Place) (h : q ≠ r) :
    (s.goto r p).place q = s.place q := Function.update_of_ne h _ _

@[simp] theorem goto_generation (s : State) (r : ℕ) (p : Place) :
    (s.goto r p).generation = s.generation := rfl
@[simp] theorem goto_count (s : State) (r : ℕ) (p : Place) : (s.goto r p).count = s.count := rfl
@[simp] theorem goto_passed (s : State) (r : ℕ) (p : Place) : (s.goto r p).passed = s.passed := rfl

@[simp] theorem pass_self (s : State) (r : ℕ) : (s.pass r).place r = .outside :=
  Function.update_self _ _ _

theorem pass_ne (s : State) {r q : ℕ} (h : q ≠ r) : (s.pass r).place q = s.place q :=
  Function.update_of_ne h _ _

@[simp] theorem pass_passed_self (s : State) (r : ℕ) : (s.pass r).passed r = s.passed r + 1 :=
  Function.update_self _ _ _

theorem pass_passed_ne (s : State) {r q : ℕ} (h : q ≠ r) : (s.pass r).passed q = s.passed q :=
  Function.update_of_ne h _ _

end State

/-- The next access of a party, if it does not have to wait. -/
def step (parties : ℕ) (s : State) (r : ℕ) : Option State :=
  match s.place r with
  | .outside => some (s.goto r (.loaded s.generation))
  | .loaded g =>
    some { s.goto r (if s.count + 1 = parties then .resetting g else .waiting g) with
      count := s.count + 1 }
  | .resetting g => some { s.goto r (.raising g) with count := 0 }
  | .raising g => some { s.pass r with generation := g + 1 }
  | .waiting g => if g < s.generation then some (s.pass r) else none

/-! ## What holds at every moment -/

/-- The gate is open for the party. -/
def Place.past (gen : ℕ) : Place → Bool
  | .waiting g => g < gen
  | _ => false

/-- The party is counted in its round, or has been. -/
def Place.entered : Place → Bool
  | .outside | .loaded _ => false
  | .resetting _ | .raising _ | .waiting _ => true

/-- The count counts the party. -/
def Place.counted (gen : ℕ) : Place → Bool
  | .resetting _ => true
  | .waiting g => decide (gen ≤ g)
  | _ => false

/-- The party is the last one. -/
def Place.closes : Place → Bool
  | .resetting _ | .raising _ => true
  | _ => false

/-- How often a party has arrived at the gate. -/
def State.arrived (s : State) (r : ℕ) : ℕ := s.passed r + if (s.place r).entered then 1 else 0

/-- **Sound states;** `start` is the generation before the first round. -/
structure Sound (parties start : ℕ) (s : State) : Prop where
  /-- A party for which the gate is open is one round behind the gate, the others are level. -/
  level : ∀ r < parties,
    start + s.passed r + (if (s.place r).past s.generation then 1 else 0) = s.generation
  own : ∀ r < parties, ∀ g,
    s.place r = .loaded g ∨ s.place r = .resetting g ∨ s.place r = .raising g → g = s.generation
  waiting : ∀ r < parties, ∀ g, s.place r = .waiting g → g ≤ s.generation
  last : ∀ r < parties, (s.place r).closes → ∀ q < parties, q ≠ r →
    s.place q = .waiting s.generation
  /-- The count counts, until the last party resets it. -/
  count : (∀ r < parties, ∀ g, s.place r ≠ .raising g) →
    s.count = (List.range parties).countP fun r => (s.place r).counted s.generation
  cleared : ∀ r < parties, ∀ g, s.place r = .raising g → s.count = 0
  /-- Someone is missing, or there is a last one. -/
  missing : (∀ r < parties, (s.place r).closes = false) → s.count < parties

variable {parties start : ℕ} {s s' : State} {r q : ℕ}

theorem Sound.init (hpos : 0 < parties) (start : ℕ) : Sound parties start (State.init start) := by
  refine ⟨fun _ _ => rfl, ?_, ?_, ?_, ?_, ?_, fun _ => hpos⟩
  · intro r _ g h
    rcases h with h | h | h <;> cases h
  · intro r _ g h
    cases h
  · intro r _ h
    cases h
  · intro _
    show 0 = _
    simp [State.init, Place.counted]
  · intro r _ g h
    cases h

/-- **Who has passed the gate has met everybody there.** -/
theorem Sound.passed_le_arrived (h : Sound parties start s) (hr : r < parties) (hq : q < parties) :
    s.passed r ≤ s.arrived q := by
  have hlevel := h.level r hr
  have hlevel' := h.level q hq
  unfold State.arrived
  have hentered : (s.place q).past s.generation = true → (s.place q).entered = true := by
    cases s.place q <;> simp [Place.past, Place.entered]
  by_cases hpast : (s.place q).past s.generation = true
  · rw [if_pos (hentered hpast)]
    rw [if_pos hpast] at hlevel'
    omega
  · rw [if_neg hpast] at hlevel'
    split <;> omega

/-- While a party does not wait, no other is the last one. -/
theorem Sound.not_last (h : Sound parties start s) (hr : r < parties)
    (hw : s.place r ≠ .waiting s.generation) (hq : q < parties) (hqr : q ≠ r) :
    (s.place q).closes = false := by
  rw [← Bool.not_eq_true]
  intro hl
  exact hw (h.last q hq hl r hr hqr.symm)

theorem countP_goto_same {f : Place → Bool} {p : Place} (hf : f (s.place r) = f p) :
    ((List.range parties).countP fun q => f ((s.goto r p).place q)) =
      (List.range parties).countP fun q => f (s.place q) := by
  apply countP_range_congr
  intro q _
  by_cases hq : q = r
  · rw [hq, State.goto_self, hf]
  · rw [s.goto_ne p hq]

/-! ## Every step keeps it -/

/-- What is left to check when a party that does not wait changes its place. -/
theorem Sound.change (h : Sound parties start s) (hr : r < parties)
    (hw : s.place r ≠ .waiting s.generation) (hgen : s'.generation = s.generation)
    (hplace : ∀ q, q ≠ r → s'.place q = s.place q) (hpassed : ∀ q, q ≠ r → s'.passed q = s.passed q)
    (level : start + s'.passed r + (if (s'.place r).past s.generation then 1 else 0) = s.generation)
    (own : ∀ g, s'.place r = .loaded g ∨ s'.place r = .resetting g ∨ s'.place r = .raising g →
      g = s.generation)
    (waiting : ∀ g, s'.place r = .waiting g → g ≤ s.generation)
    (last : (s'.place r).closes → ∀ q < parties, q ≠ r → s.place q = .waiting s.generation)
    (count : (∀ g, s'.place r ≠ .raising g) →
      s'.count = (List.range parties).countP fun q => (s'.place q).counted s.generation)
    (cleared : ∀ g, s'.place r = .raising g → s'.count = 0)
    (missing : (s'.place r).closes = false → s'.count < parties) : Sound parties start s' := by
  refine ⟨?_, ?_, ?_, ?_, ?_, ?_, fun hno => missing (hno r hr)⟩
  · intro q hq
    rw [hgen]
    by_cases hqr : q = r
    · exact hqr ▸ level
    · rw [hplace q hqr, hpassed q hqr]
      exact h.level q hq
  · intro q hq g hg
    rw [hgen]
    by_cases hqr : q = r
    · exact own g (hqr ▸ hg)
    · exact h.own q hq g (hplace q hqr ▸ hg)
  · intro q hq g hg
    rw [hgen]
    by_cases hqr : q = r
    · exact waiting g (hqr ▸ hg)
    · exact h.waiting q hq g (hplace q hqr ▸ hg)
  · intro q hq hl p hp hpq
    rw [hgen]
    by_cases hqr : q = r
    · rw [hplace p (hqr ▸ hpq)]
      exact last (hqr ▸ hl) p hp (hqr ▸ hpq)
    · rw [hplace q hqr, h.not_last hr hw hq hqr] at hl
      exact absurd hl Bool.false_ne_true
  · intro hno
    rw [hgen]
    exact count (hno r hr)
  · intro q hq g hg
    by_cases hqr : q = r
    · exact cleared g (hqr ▸ hg)
    · have hl := h.not_last hr hw hq hqr
      rw [← hplace q hqr, hg] at hl
      cases hl

/-- While nobody is last the count counts, and someone is missing. -/
theorem Sound.counting (h : Sound parties start s) (hr : r < parties)
    (hw : s.place r ≠ .waiting s.generation) (hl : (s.place r).closes = false) :
    s.count = ((List.range parties).countP fun q => (s.place q).counted s.generation) ∧
      s.count < parties := by
  have hall : ∀ q < parties, (s.place q).closes = false := by
    intro q hq
    by_cases hqr : q = r
    · exact hqr ▸ hl
    · exact h.not_last hr hw hq hqr
  refine ⟨h.count ?_, h.missing hall⟩
  intro q hq g hg
  have hclosed := hall q hq
  rw [hg] at hclosed
  cases hclosed

theorem Sound.load (h : Sound parties start s) (hr : r < parties) (hst : s.place r = .outside) :
    Sound parties start (s.goto r (.loaded s.generation)) := by
  have hw : s.place r ≠ .waiting s.generation := by simp [hst]
  obtain ⟨hcount, hlt⟩ := h.counting hr hw (by rw [hst]; rfl)
  refine h.change hr hw rfl (fun q hq => s.goto_ne _ hq) (fun _ _ => rfl) ?_ ?_ ?_ ?_ ?_ ?_
    (fun _ => hlt)
  · have hlevel := h.level r hr
    rw [hst] at hlevel
    rw [s.goto_self]
    exact hlevel
  · intro g hg
    rw [s.goto_self] at hg
    rcases hg with hg | hg | hg <;> cases hg
    rfl
  · intro g hg
    rw [s.goto_self] at hg
    cases hg
  · intro hl
    rw [s.goto_self] at hl
    cases hl
  · intro _
    rw [s.goto_count, hcount]
    exact (countP_goto_same (f := fun p => p.counted s.generation) (by rw [hst]; rfl)).symm
  · intro g hg
    rw [s.goto_self] at hg
    cases hg

/-- **A party arrives.** -/
theorem Sound.arrive (h : Sound parties start s) (hr : r < parties) {g : ℕ}
    (hst : s.place r = .loaded g) :
    Sound parties start { s.goto r (if s.count + 1 = parties then .resetting g else .waiting g) with
      count := s.count + 1 } := by
  obtain rfl : g = s.generation := h.own r hr g (.inl hst)
  have hw : s.place r ≠ .waiting s.generation := by simp [hst]
  obtain ⟨hcount, hlt⟩ := h.counting hr hw (by rw [hst]; rfl)
  generalize hp : (if s.count + 1 = parties then Place.resetting s.generation
    else .waiting s.generation) = p
  have hcases : p = .resetting s.generation ∧ s.count + 1 = parties ∨
      p = .waiting s.generation ∧ s.count + 1 ≠ parties := by
    by_cases hfull : s.count + 1 = parties
    · rw [if_pos hfull] at hp
      exact .inl ⟨hp.symm, hfull⟩
    · rw [if_neg hfull] at hp
      exact .inr ⟨hp.symm, hfull⟩
  have hmore : s.count + 1 =
      (List.range parties).countP fun q => ((s.goto r p).place q).counted s.generation := by
    rw [hcount]
    refine (countP_range_set (f := fun q => (s.place q).counted s.generation) hr
      (by rw [hst]; rfl) ?_ ?_).symm
    · rw [s.goto_self]
      rcases hcases with ⟨rfl, -⟩ | ⟨rfl, -⟩ <;> simp [Place.counted]
    · intro q hq
      rw [s.goto_ne p hq]
  refine h.change hr hw rfl (fun q hq => s.goto_ne _ hq) (fun _ _ => rfl) ?_ ?_ ?_ ?_
    (fun _ => hmore) ?_ ?_
  · have hlevel := h.level r hr
    rw [hst] at hlevel
    show start + s.passed r + (if ((s.goto r p).place r).past _ then 1 else 0) = _
    rw [s.goto_self]
    rcases hcases with ⟨rfl, -⟩ | ⟨rfl, -⟩ <;> simpa [Place.past] using hlevel
  · intro g' hg
    change (s.goto r p).place r = _ ∨ (s.goto r p).place r = _ ∨ (s.goto r p).place r = _ at hg
    rw [s.goto_self] at hg
    rcases hcases with ⟨rfl, -⟩ | ⟨rfl, -⟩ <;> rcases hg with hg | hg | hg <;> cases hg
    rfl
  · intro g' hg
    change (s.goto r p).place r = _ at hg
    rw [s.goto_self] at hg
    rcases hcases with ⟨rfl, -⟩ | ⟨rfl, -⟩ <;> cases hg
    exact le_refl _
  · -- everybody else is counted, and none of them is the last one
    intro hl q hq hqr
    change ((s.goto r p).place r).closes = true at hl
    rw [s.goto_self] at hl
    rcases hcases with ⟨-, hfull⟩ | ⟨rfl, -⟩
    · rw [hmore] at hfull
      have hin := countP_range_eq.1 hfull q hq
      rw [s.goto_ne p hqr] at hin
      have hopen := h.not_last hr hw hq hqr
      cases hpq : s.place q with
      | waiting g' =>
        rw [hpq] at hin
        have hle := h.waiting q hq g' hpq
        have hge : s.generation ≤ g' := of_decide_eq_true hin
        rw [le_antisymm hle hge]
      | resetting g' =>
        rw [hpq] at hopen
        cases hopen
      | outside =>
        rw [hpq] at hin
        cases hin
      | loaded g' =>
        rw [hpq] at hin
        cases hin
      | raising g' =>
        rw [hpq] at hin
        cases hin
    · cases hl
  · intro g' hg
    change (s.goto r p).place r = _ at hg
    rw [s.goto_self] at hg
    rcases hcases with ⟨rfl, -⟩ | ⟨rfl, -⟩ <;> cases hg
  · intro hl
    change ((s.goto r p).place r).closes = false at hl
    rw [s.goto_self] at hl
    rcases hcases with ⟨rfl, -⟩ | ⟨-, hne⟩
    · cases hl
    · show s.count + 1 < parties
      omega

theorem Sound.reset (h : Sound parties start s) (hr : r < parties) {g : ℕ}
    (hst : s.place r = .resetting g) :
    Sound parties start { s.goto r (.raising g) with count := 0 } := by
  have hw : s.place r ≠ .waiting s.generation := by simp [hst]
  have hg := h.own r hr g (.inr (.inl hst))
  refine h.change hr hw rfl (fun q hq => s.goto_ne _ hq) (fun _ _ => rfl) ?_ ?_ ?_ ?_ ?_
    (fun _ _ => rfl) ?_
  · have hlevel := h.level r hr
    rw [hst] at hlevel
    show start + s.passed r + (if ((s.goto r (.raising g)).place r).past _ then 1 else 0) = _
    rw [s.goto_self]
    exact hlevel
  · intro g' hg'
    change (s.goto r (.raising g)).place r = _ ∨ (s.goto r (.raising g)).place r = _ ∨
      (s.goto r (.raising g)).place r = _ at hg'
    rw [s.goto_self] at hg'
    rcases hg' with hg' | hg' | hg' <;> cases hg'
    exact hg
  · intro g' hg'
    change (s.goto r (.raising g)).place r = _ at hg'
    rw [s.goto_self] at hg'
    cases hg'
  · exact fun _ => h.last r hr (by rw [hst]; rfl)
  · intro hno
    exact absurd (s.goto_self r (.raising g)) (hno g)
  · intro hl
    change ((s.goto r (.raising g)).place r).closes = false at hl
    rw [s.goto_self] at hl
    cases hl

/-- **The last party opens the gate:** the others are waiting, and it is open for them all. -/
theorem Sound.raise (h : Sound parties start s) (hr : r < parties) {g : ℕ}
    (hst : s.place r = .raising g) :
    Sound parties start { s.pass r with generation := g + 1 } := by
  obtain rfl : g = s.generation := h.own r hr g (.inr (.inr hst))
  have hothers := h.last r hr (by rw [hst]; rfl)
  have hplace : ∀ q < parties, (s.pass r).place q = .outside ∨
      q ≠ r ∧ (s.pass r).place q = .waiting s.generation := by
    intro q hq
    by_cases hqr : q = r
    · exact .inl (hqr ▸ s.pass_self r)
    · exact .inr ⟨hqr, (s.pass_ne hqr).trans (hothers q hq hqr)⟩
  have hcount : s.count = 0 := h.cleared r hr _ hst
  refine ⟨?_, ?_, ?_, ?_, ?_, fun _ _ _ _ => hcount, fun _ => ?_⟩
  · intro q hq
    have hlevel := h.level q hq
    show start + (s.pass r).passed q + (if ((s.pass r).place q).past (s.generation + 1) then 1 else 0)
      = s.generation + 1
    by_cases hqr : q = r
    · subst hqr
      rw [hst] at hlevel
      rw [s.pass_self, s.pass_passed_self]
      simp only [Place.past, Bool.false_eq_true, if_false] at hlevel ⊢
      omega
    · rw [hothers q hq hqr] at hlevel
      rw [s.pass_ne hqr, s.pass_passed_ne hqr, hothers q hq hqr]
      simp only [Place.past, lt_irrefl, decide_false, Bool.false_eq_true, if_false,
        Nat.lt_succ_self, decide_true, if_true] at hlevel ⊢
      omega
  · intro q hq g' hg'
    change (s.pass r).place q = _ ∨ (s.pass r).place q = _ ∨ (s.pass r).place q = _ at hg'
    rcases hplace q hq with hp | ⟨-, hp⟩ <;> rw [hp] at hg' <;>
      rcases hg' with hg' | hg' | hg' <;> cases hg'
  · intro q hq g' hg'
    change (s.pass r).place q = _ at hg'
    rcases hplace q hq with hp | ⟨-, hp⟩ <;> rw [hp] at hg' <;> cases hg'
    exact Nat.le_succ _
  · intro q hq hl
    change ((s.pass r).place q).closes = true at hl
    rcases hplace q hq with hp | ⟨-, hp⟩ <;> rw [hp] at hl <;> cases hl
  · intro _
    show s.count = _
    rw [hcount]
    refine (List.countP_eq_zero.2 ?_).symm
    intro q hq
    change ¬ ((s.pass r).place q).counted (s.generation + 1) = true
    rcases hplace q (List.mem_range.1 hq) with hp | ⟨-, hp⟩ <;> rw [hp] <;> simp [Place.counted]
  · show s.count < parties
    omega

theorem Sound.leave (h : Sound parties start s) (hr : r < parties) {g : ℕ}
    (hst : s.place r = .waiting g) (hg : g < s.generation) : Sound parties start (s.pass r) := by
  have hw : s.place r ≠ .waiting s.generation := by
    rw [hst]
    intro heq
    cases heq
    exact lt_irrefl _ hg
  obtain ⟨hcount, hlt⟩ := h.counting hr hw (by rw [hst]; rfl)
  refine h.change hr hw rfl (fun q hq => s.pass_ne hq) (fun q hq => s.pass_passed_ne hq)
    ?_ ?_ ?_ ?_ ?_ ?_ (fun _ => hlt)
  · have hlevel := h.level r hr
    rw [hst] at hlevel
    rw [s.pass_self, s.pass_passed_self]
    simp only [Place.past, hg, decide_true, if_true, Bool.false_eq_true, if_false] at hlevel ⊢
    omega
  · intro g' hg'
    rw [s.pass_self] at hg'
    rcases hg' with hg' | hg' | hg' <;> cases hg'
  · intro g' hg'
    rw [s.pass_self] at hg'
    cases hg'
  · intro hl
    rw [s.pass_self] at hl
    cases hl
  · intro _
    show s.count = _
    rw [hcount]
    refine (countP_goto_same (f := fun p => p.counted s.generation) ?_).symm
    rw [hst]
    simp [Place.counted, hg]
  · intro g' hg'
    rw [s.pass_self] at hg'
    cases hg'

/-- **Every step keeps it.** -/
theorem Sound.step (h : Sound parties start s) (hr : r < parties)
    (hstep : step parties s r = some s') : Sound parties start s' := by
  unfold Gate.step at hstep
  cases hst : s.place r with
  | outside =>
    rw [hst] at hstep
    cases hstep
    exact h.load hr hst
  | loaded g =>
    rw [hst] at hstep
    cases hstep
    exact h.arrive hr hst
  | resetting g =>
    rw [hst] at hstep
    cases hstep
    exact h.reset hr hst
  | raising g =>
    rw [hst] at hstep
    cases hstep
    exact h.raise hr hst
  | waiting g =>
    rw [hst] at hstep
    by_cases hg : g < s.generation
    · simp only [hg, if_true, Option.some.injEq] at hstep
      subst hstep
      exact h.leave hr hst hg
    · simp only [hg, if_false] at hstep
      cases hstep

/-- **What a step changes:** the party goes on in the gate, or it is past. -/
theorem step_cases (hstep : step parties s r = some s') :
    (∀ q, q ≠ r → s'.place q = s.place q ∧ s'.passed q = s.passed q) ∧
      (s'.place r ≠ .outside ∧ s'.passed r = s.passed r ∨
        s'.place r = .outside ∧ s'.passed r = s.passed r + 1 ∧ s.place r ≠ .outside) := by
  unfold Gate.step at hstep
  cases hst : s.place r with
  | outside =>
    rw [hst] at hstep
    cases hstep
    exact ⟨fun q hq => ⟨s.goto_ne _ hq, rfl⟩, .inl ⟨by simp, rfl⟩⟩
  | loaded g =>
    rw [hst] at hstep
    cases hstep
    refine ⟨fun q hq => ⟨s.goto_ne _ hq, rfl⟩, .inl ⟨?_, rfl⟩⟩
    show (s.goto r _).place r ≠ _
    rw [s.goto_self]
    split <;> exact fun h => Place.noConfusion h
  | resetting g =>
    rw [hst] at hstep
    cases hstep
    refine ⟨fun q hq => ⟨s.goto_ne _ hq, rfl⟩, .inl ⟨?_, rfl⟩⟩
    show (s.goto r _).place r ≠ _
    rw [s.goto_self]
    exact fun h => Place.noConfusion h
  | raising g =>
    rw [hst] at hstep
    cases hstep
    exact ⟨fun q hq => ⟨s.pass_ne hq, s.pass_passed_ne hq⟩,
      .inr ⟨s.pass_self r, s.pass_passed_self r, fun h => Place.noConfusion h⟩⟩
  | waiting g =>
    rw [hst] at hstep
    by_cases hg : g < s.generation
    · simp only [hg, if_true, Option.some.injEq] at hstep
      subst hstep
      exact ⟨fun q hq => ⟨s.pass_ne hq, s.pass_passed_ne hq⟩,
        .inr ⟨s.pass_self r, s.pass_passed_self r, fun h => Place.noConfusion h⟩⟩
    · simp only [hg, if_false] at hstep
      cases hstep

theorem Sound.generation_le (h : Sound parties start s) (hr : r < parties)
    (hstep : Gate.step parties s r = some s') : s.generation ≤ s'.generation := by
  unfold Gate.step at hstep
  cases hst : s.place r with
  | outside | loaded | resetting =>
    rw [hst] at hstep
    cases hstep
    exact le_refl _
  | raising g =>
    rw [hst] at hstep
    cases hstep
    rw [← h.own r hr g (.inr (.inr hst))]
    exact Nat.le_succ _
  | waiting g =>
    rw [hst] at hstep
    by_cases hg : g < s.generation
    · simp only [hg, if_true, Option.some.injEq] at hstep
      subst hstep
      exact le_refl _
    · simp only [hg, if_false] at hstep
      cases hstep

/-- **The gate opens when the last party raises the generation;** all the others are waiting. -/
theorem Sound.opens (h : Sound parties start s) (hr : r < parties)
    (hstep : Gate.step parties s r = some s') (hne : s'.generation ≠ s.generation) :
    s'.generation = s.generation + 1 ∧ ∀ q < parties, s.place q ≠ .outside ∧
      start + s.passed q = s.generation := by
  unfold Gate.step at hstep
  cases hst : s.place r with
  | outside | loaded | resetting =>
    rw [hst] at hstep
    cases hstep
    exact absurd rfl hne
  | raising g =>
    rw [hst] at hstep
    cases hstep
    refine ⟨by rw [← h.own r hr g (.inr (.inr hst))], ?_⟩
    intro q hq
    have hlevel := h.level q hq
    by_cases hqr : q = r
    · subst hqr
      rw [hst] at hlevel ⊢
      exact ⟨fun hp => Place.noConfusion hp, hlevel⟩
    · have hw := h.last r hr (by rw [hst]; rfl) q hq hqr
      rw [hw] at hlevel ⊢
      refine ⟨fun hp => Place.noConfusion hp, ?_⟩
      simpa [Place.past] using hlevel
  | waiting g =>
    rw [hst] at hstep
    by_cases hg : g < s.generation
    · simp only [hg, if_true, Option.some.injEq] at hstep
      subst hstep
      exact absurd rfl hne
    · simp only [hg, if_false] at hstep
      cases hstep

/-- A party outside the gate is level with it. -/
theorem Sound.level_outside (h : Sound parties start s) (hr : r < parties)
    (hst : s.place r = .outside) : start + s.passed r = s.generation := by
  have hlevel := h.level r hr
  rw [hst] at hlevel
  exact hlevel

theorem Sound.passed_le_generation (h : Sound parties start s) (hr : r < parties) :
    start + s.passed r ≤ s.generation := by
  have hlevel := h.level r hr
  omega

theorem State.arrived_outside {s : State} (h : s.place r = .outside) :
    s.arrived r = s.passed r := by
  unfold State.arrived
  rw [h]
  rfl

theorem State.arrived_le (s : State) (r : ℕ) : s.arrived r ≤ s.passed r + 1 := by
  unfold State.arrived
  split <;> omega

end Gate
end Theory
end HyLink
