import Mathlib.Logic.Function.Basic
import HyLink.Theory.Counting
import HyLink.Theory.Machine

/-!
# The barrier in shared memory

`SharedStateManager::barrier`, one atomic access a step: a party loads the
generation, adds itself to the count, and either closes the round (it was the
last: reset the count, raise the generation) or polls the generation until it
is past or its patience is over.

A wait that times out returns `false` and leaves the arrival in the count.
Where the party calls again in the same round it is counted a second time, and
the round closes without somebody.

* `Barrier.rejoinsLater` — a party whose wait timed out calls again only once
  that round has closed.
* `Barrier.round_complete` — then whoever returns `true` returns after every
  party entered the round, and nobody is counted twice in a round.
* `Barrier.counted_twice` — two parties, one of which times out and calls
  again: both of its calls together close the round.
-/

namespace HyLink
namespace Memory
namespace Barrier

/-- Where a party stands in its call; the number is the `my_gen` of the call. -/
inductive Phase where
  /-- Not in a call.  `timedOut` is `my_gen` of the last call if it returned `false`. -/
  | outside (timedOut : Option ℕ)
  /-- The generation is loaded. -/
  | loaded (gen : ℕ)
  /-- The party is the last to arrive. -/
  | resetting (gen : ℕ)
  /-- The count is reset. -/
  | raising (gen : ℕ)
  /-- The party has arrived and is about to load the generation. -/
  | waiting (gen : ℕ)
  /-- The generation was not past when it was loaded. -/
  | spun (gen : ℕ)
  deriving DecidableEq, Repr

/-- The two words of one barrier slot, and where the parties stand. -/
structure State where
  generation : ℕ
  count : ℕ
  phase : ℕ → Phase

/-- The steps of a party. -/
inductive Label where
  /-- Load the generation. -/
  | call (party : ℕ)
  /-- Add one to the count. -/
  | arrive (party : ℕ)
  /-- Store zero to the count. -/
  | reset (party : ℕ)
  /-- Store the next generation and return `true`. -/
  | raise (party : ℕ)
  /-- Load the generation in the wait; return `true` if it is past. -/
  | poll (party : ℕ)
  /-- Go on waiting. -/
  | spin (party : ℕ)
  /-- Return `false`. -/
  | timeout (party : ℕ)
  deriving DecidableEq, Repr

/-- What a step shows of a call. -/
inductive Event where
  /-- The party is counted in a round. -/
  | entered (party gen : ℕ)
  | returned (party gen : ℕ) (ok : Bool)
  deriving DecidableEq, Repr

variable (parties : ℕ)

def step (s : State) : Label → Option State
  | .call p =>
    match s.phase p with
    | .outside _ =>
      if p < parties then
        some { s with phase := Function.update s.phase p (.loaded s.generation) }
      else none
    | _ => none
  | .arrive p =>
    match s.phase p with
    | .loaded g =>
      some { s with
        count := s.count + 1
        phase := Function.update s.phase p
          (if s.count + 1 = parties then .resetting g else .waiting g) }
    | _ => none
  | .reset p =>
    match s.phase p with
    | .resetting g => some { s with count := 0, phase := Function.update s.phase p (.raising g) }
    | _ => none
  | .raise p =>
    match s.phase p with
    | .raising g =>
      some { s with
        generation := g + 1
        phase := Function.update s.phase p (.outside none) }
    | _ => none
  | .poll p =>
    match s.phase p with
    | .waiting g =>
      some { s with
        phase := Function.update s.phase p
          (if s.generation ≤ g then .spun g else .outside none) }
    | _ => none
  | .spin p =>
    match s.phase p with
    | .spun g => some { s with phase := Function.update s.phase p (.waiting g) }
    | _ => none
  | .timeout p =>
    match s.phase p with
    | .spun g => some { s with phase := Function.update s.phase p (.outside (some g)) }
    | _ => none

def machine : Theory.Machine State Label := ⟨step parties⟩

/-- What a step shows. -/
def events (s : State) : Label → List Event
  | .arrive p =>
    match s.phase p with
    | .loaded g => [.entered p g]
    | _ => []
  | .raise p =>
    match s.phase p with
    | .raising g => [.returned p g true]
    | _ => []
  | .poll p =>
    match s.phase p with
    | .waiting g => if s.generation ≤ g then [] else [.returned p g true]
    | _ => []
  | .timeout p =>
    match s.phase p with
    | .spun g => [.returned p g false]
    | _ => []
  | _ => []

/-- Nobody is in a call; the generation is whatever earlier rounds left. -/
def State.init (generation : ℕ) : State where
  generation := generation
  count := 0
  phase := fun _ => .outside none

/-- A party whose last wait timed out calls again only once the generation is past the one
it waited for. -/
def rejoinsLater (s : State) : Label → Bool
  | .call p =>
    match s.phase p with
    | .outside (some g) => g < s.generation
    | _ => true
  | _ => true

/-! ## The round in progress -/

/-- The party is counted in round `gen`, or was when its last wait timed out. -/
def Phase.inRound (gen : ℕ) : Phase → Bool
  | .resetting g | .raising g | .waiting g | .spun g | .outside (some g) => g = gen
  | .loaded _ | .outside none => false

/-- The party closes the round. -/
def Phase.closes : Phase → Bool
  | .resetting _ | .raising _ => true
  | _ => false

/-- The generation of a call is not ahead, and a party that has not yet waited is in the
present round. -/
def Phase.Fits (gen : ℕ) : Phase → Prop
  | .loaded g | .resetting g | .raising g => g = gen
  | .waiting g | .spun g | .outside (some g) => g ≤ gen
  | .outside none => True

/-- What holds at every moment of a run: `start` is the first generation, `tr` what the run
has shown. -/
structure Inv (start : ℕ) (tr : List Event) (s : State) : Prop where
  start_le : start ≤ s.generation
  fits : ∀ p, (s.phase p).Fits s.generation
  /-- The rounds before the present one are complete. -/
  past : ∀ g, start ≤ g → g < s.generation → ∀ q < parties, Event.entered q g ∈ tr
  /-- Nobody has entered a later round. -/
  bounded : ∀ q g, Event.entered q g ∈ tr → start ≤ g ∧ g ≤ s.generation
  present : ∀ p, Event.entered p s.generation ∈ tr ↔ (s.phase p).inRound s.generation = true
  party : ∀ p, s.phase p ≠ .outside none → p < parties
  waiting : ∀ p g, s.phase p = .waiting g → start ≤ g
  spun : ∀ p g, s.phase p = .spun g → start ≤ g
  once : ∀ q g, tr.count (.entered q g) ≤ 1
  count : (∀ p, (s.phase p).closes = false) → s.count < parties ∧
    s.count = (List.range parties).countP fun p => (s.phase p).inRound s.generation
  closed : ∀ p, (s.phase p).closes = true →
    (∀ q < parties, (s.phase q).inRound s.generation = true) ∧
    ∀ q, (s.phase q).closes = true → q = p
  raising : ∀ p g, s.phase p = .raising g → s.count = 0
  /-- Whoever has returned `true` did so after every party had entered. -/
  returned : ∀ pre p g post, tr = pre ++ .returned p g true :: post →
    ∀ q < parties, Event.entered q g ∈ pre

variable {parties} {start : ℕ} {tr : List Event} {s : State}

theorem Inv.init (hpos : 0 < parties) (start : ℕ) : Inv parties start [] (State.init start) where
  start_le := le_rfl
  fits := fun _ => trivial
  past := fun g hle hlt => absurd (lt_of_le_of_lt hle hlt) (lt_irrefl _)
  bounded := fun q g h => absurd h List.not_mem_nil
  present := fun p => by simp [State.init, Phase.inRound]
  party := fun p h => absurd rfl h
  waiting := fun p g h => by simp [State.init] at h
  spun := fun p g h => by simp [State.init] at h
  once := fun q g => by simp
  count := fun _ => ⟨hpos, by simp [State.init, Phase.inRound]⟩
  closed := fun p h => by simp [State.init, Phase.closes] at h
  raising := fun p g h => by simp [State.init] at h
  returned := fun pre p g post h => by simp at h

/-- Where the run before has the property, only the last event is to be looked at. -/
theorem returned_append {e : Event}
    (h : ∀ pre p g post, tr = pre ++ .returned p g true :: post →
      ∀ q < parties, Event.entered q g ∈ pre)
    (hlast : ∀ p g, e = .returned p g true → ∀ q < parties, Event.entered q g ∈ tr) :
    ∀ pre p g post, tr ++ [e] = pre ++ .returned p g true :: post →
      ∀ q < parties, Event.entered q g ∈ pre := by
  intro pre p g post heq q hq
  rcases List.eq_nil_or_concat post with rfl | ⟨init, last, rfl⟩
  · obtain ⟨rfl, he⟩ := List.append_inj' heq rfl
    exact hlast p g (List.singleton_inj.1 he) q hq
  · have hsplit : tr ++ [e] = (pre ++ .returned p g true :: init) ++ [last] := by
      simpa using heq
    exact h pre p g init (List.append_inj' hsplit rfl).1 q hq

/-- A step of a party that does not change whether it is counted, outside the closing of a
round. -/
theorem Inv.quiet (h : Inv parties start tr s) {p : ℕ} {ph : Phase} {evs : List Event}
    (hp : p < parties) (hfits : ph.Fits s.generation)
    (hround : ph.inRound s.generation = (s.phase p).inRound s.generation)
    (hopen : (s.phase p).closes = false) (hopen' : ph.closes = false)
    (hwait : ∀ g, ph = .waiting g ∨ ph = .spun g → start ≤ g)
    (hevs : evs = [] ∨ ∃ g ok, evs = [.returned p g ok] ∧
      (ok = true → ∀ q < parties, Event.entered q g ∈ tr)) :
    Inv parties start (tr ++ evs) { s with phase := Function.update s.phase p ph } := by
  have hentered : ∀ q g, Event.entered q g ∈ tr ++ evs ↔ Event.entered q g ∈ tr := fun q g => by
    rcases hevs with rfl | ⟨_, _, rfl, -⟩ <;> simp
  have hcount : ∀ q g, (tr ++ evs).count (.entered q g) = tr.count (.entered q g) := fun q g => by
    rcases hevs with rfl | ⟨_, _, rfl, -⟩ <;> simp [List.count_append]
  have hinRound : ∀ q, (Function.update s.phase p ph q).inRound s.generation =
      (s.phase q).inRound s.generation := fun q => by
    by_cases hq : q = p
    · subst hq; rw [Function.update_self, hround]
    · rw [Function.update_of_ne hq]
  have hcloses : ∀ q, (Function.update s.phase p ph q).closes = (s.phase q).closes := fun q => by
    by_cases hq : q = p
    · subst hq; rw [Function.update_self, hopen, hopen']
    · rw [Function.update_of_ne hq]
  refine ⟨h.start_le, fun q => ?_, fun g hle hlt q hq => (hentered q g).2 (h.past g hle hlt q hq),
    fun q g hq => h.bounded q g ((hentered q g).1 hq), fun q => ?_, fun q hq => ?_,
    fun q g hq => ?_, fun q g hq => ?_, fun q g => ?_, fun hall => ?_, fun q hq => ?_,
    fun q g hq => ?_, ?_⟩
  · by_cases hq : q = p
    · subst hq; simpa using hfits
    · simpa [hq] using h.fits q
  · rw [hentered, hinRound]
    exact h.present q
  · by_cases hqp : q = p
    · exact hqp ▸ hp
    · exact h.party q (by simpa [hqp] using hq)
  · by_cases hqp : q = p
    · subst hqp; exact hwait g (Or.inl (by simpa using hq))
    · exact h.waiting q g (by simpa [hqp] using hq)
  · by_cases hqp : q = p
    · subst hqp; exact hwait g (Or.inr (by simpa using hq))
    · exact h.spun q g (by simpa [hqp] using hq)
  · rw [hcount]
    exact h.once q g
  · obtain ⟨hlt, hcountP⟩ := h.count fun q => by rw [← hcloses q]; exact hall q
    exact ⟨hlt, hcountP.trans (Theory.countP_range_congr fun q _ => (hinRound q).symm)⟩
  · rw [hcloses] at hq
    obtain ⟨hall, hunique⟩ := h.closed q hq
    exact ⟨fun t ht => by rw [hinRound]; exact hall t ht,
      fun t ht => hunique t (by rw [← hcloses]; exact ht)⟩
  · by_cases hqp : q = p
    · subst hqp
      have hph : ph = .raising g := by simpa using hq
      rw [hph] at hopen'
      cases hopen'
    · exact h.raising q g (by simpa [hqp] using hq)
  · rcases hevs with rfl | ⟨g, ok, rfl, hok⟩
    · simpa using h.returned
    · exact returned_append h.returned fun p' g' he => by cases he; exact hok rfl

/-- A party is counted. -/
theorem Inv.arrive (h : Inv parties start tr s) {p g : ℕ} (hphase : s.phase p = .loaded g) :
    Inv parties start (tr ++ [.entered p g])
      { s with
        count := s.count + 1
        phase := Function.update s.phase p
          (if s.count + 1 = parties then .resetting g else .waiting g) } := by
  have hp : p < parties := h.party p (by rw [hphase]; simp)
  have hg : g = s.generation := by have hf := h.fits p; rw [hphase] at hf; exact hf
  subst hg
  have hout : (s.phase p).inRound s.generation = false := by rw [hphase]; rfl
  have hopen : ∀ q, (s.phase q).closes = false := fun q => by
    by_contra hc
    have hin := (h.closed q (by simpa using hc)).1 p hp
    rw [hout] at hin
    cases hin
  obtain ⟨hlt, hcountP⟩ := h.count hopen
  let ph : Phase := if s.count + 1 = parties then .resetting s.generation else .waiting s.generation
  have hin : ph.inRound s.generation = true := by
    unfold ph; split <;> simp [Phase.inRound]
  have hcountP' : s.count + 1 = (List.range parties).countP
      fun q => (Function.update s.phase p ph q).inRound s.generation := by
    rw [Theory.countP_range_set (f := fun q => (s.phase q).inRound s.generation) hp hout
      (by simpa using hin) fun q hq => by rw [Function.update_of_ne hq], ← hcountP]
  have hnotin : Event.entered p s.generation ∉ tr := fun hm => by
    rw [(h.present p).1 hm] at hout; cases hout
  refine ⟨h.start_le, fun q => ?_, fun g' hle hlt' q hq => List.mem_append_left _
      (h.past g' hle hlt' q hq), fun q g' hq => ?_, fun q => ?_, fun q hq => ?_, fun q g' hq => ?_,
    fun q g' hq => ?_, fun q g' => ?_, fun hall => ?_, fun q hq => ?_, fun q g' hq => ?_,
    returned_append h.returned fun p' g' he => by cases he⟩
  · by_cases hq : q = p
    · subst hq
      simp only [Function.update_self]
      split
      · rfl
      · exact le_rfl
    · simpa [hq] using h.fits q
  · rcases List.mem_append.1 hq with hm | hm
    · exact h.bounded q g' hm
    · cases List.mem_singleton.1 hm
      exact ⟨h.start_le, le_rfl⟩
  · by_cases hq : q = p
    · subst hq
      simpa [ph] using hin
    · simpa [hq] using h.present q
  · by_cases hqp : q = p
    · exact hqp ▸ hp
    · exact h.party q (by simpa [hqp] using hq)
  · by_cases hqp : q = p
    · subst hqp
      simp only [Function.update_self] at hq
      split at hq <;> cases hq
      exact h.start_le
    · exact h.waiting q g' (by simpa [hqp] using hq)
  · by_cases hqp : q = p
    · subst hqp
      simp only [Function.update_self] at hq
      split at hq <;> cases hq
    · exact h.spun q g' (by simpa [hqp] using hq)
  · rw [List.count_append]
    by_cases hqg : Event.entered q g' = .entered p s.generation
    · rw [hqg, List.count_eq_zero_of_not_mem hnotin]
      simp
    · rw [List.count_singleton, if_neg (by simpa using Ne.symm hqg)]
      exact h.once q g'
  · -- nobody closes the round: this party was not the last
    have hne : s.count + 1 ≠ parties := fun heq => by
      have hc := hall p
      simp [heq, Phase.closes] at hc
    exact ⟨lt_of_le_of_ne hlt hne, hcountP'⟩
  · by_cases hqp : q = p
    · subst hqp
      have heq : s.count + 1 = parties := by
        by_contra hne
        simp [hne, Phase.closes] at hq
      refine ⟨?_, fun t ht => ?_⟩
      · rw [heq] at hcountP'
        exact Theory.countP_range_eq.1 hcountP'.symm
      · by_contra htq
        have hc : (s.phase t).closes = true := by simpa [htq] using ht
        rw [hopen t] at hc
        cases hc
    · have hc : (s.phase q).closes = true := by simpa [hqp] using hq
      rw [hopen q] at hc
      cases hc
  · by_cases hqp : q = p
    · subst hqp
      simp only [Function.update_self] at hq
      split at hq <;> cases hq
    · have hc := hopen q
      rw [(by simpa [hqp] using hq : s.phase q = .raising g')] at hc
      cases hc

/-- The last party resets the count. -/
theorem Inv.reset (h : Inv parties start tr s) {p g : ℕ} (hphase : s.phase p = .resetting g) :
    Inv parties start tr
      { s with count := 0, phase := Function.update s.phase p (.raising g) } := by
  have hp : p < parties := h.party p (by rw [hphase]; simp)
  have hcloses : (s.phase p).closes = true := by rw [hphase]; rfl
  obtain ⟨hall, hunique⟩ := h.closed p hcloses
  have hinRound : ∀ q, (Function.update s.phase p (.raising g) q).inRound s.generation =
      (s.phase q).inRound s.generation := fun q => by
    by_cases hq : q = p
    · subst hq; rw [Function.update_self, hphase]; rfl
    · rw [Function.update_of_ne hq]
  refine ⟨h.start_le, fun q => ?_, h.past, h.bounded, fun q => ?_, fun q hq => ?_,
    fun q g' hq => ?_, fun q g' hq => ?_, h.once, fun hopen => ?_, fun q hq => ?_, fun _ _ _ => rfl,
    h.returned⟩
  · by_cases hq : q = p
    · subst hq
      have hf := h.fits q
      rw [hphase] at hf
      simpa [Phase.Fits] using hf
    · simpa [hq] using h.fits q
  · rw [hinRound]
    exact h.present q
  · by_cases hqp : q = p
    · exact hqp ▸ hp
    · exact h.party q (by simpa [hqp] using hq)
  · by_cases hqp : q = p
    · subst hqp; simp at hq
    · exact h.waiting q g' (by simpa [hqp] using hq)
  · by_cases hqp : q = p
    · subst hqp; simp at hq
    · exact h.spun q g' (by simpa [hqp] using hq)
  · have hc := hopen p
    simp [Phase.closes] at hc
  · have hqp : q = p := by
      by_contra hqp
      exact hqp (hunique q (by simpa [hqp] using hq))
    subst hqp
    refine ⟨fun t ht => by rw [hinRound]; exact hall t ht, fun t ht => ?_⟩
    by_contra htq
    exact htq (hunique t (by simpa [htq] using ht))

/-- The last party raises the generation and returns. -/
theorem Inv.raise (h : Inv parties start tr s) {p g : ℕ} (hphase : s.phase p = .raising g) :
    Inv parties start (tr ++ [.returned p g true])
      { s with
        generation := g + 1
        phase := Function.update s.phase p (.outside none) } := by
  have hp : p < parties := h.party p (by rw [hphase]; simp)
  have hg : g = s.generation := by have hf := h.fits p; rw [hphase] at hf; exact hf
  subst hg
  obtain ⟨hall, hunique⟩ := h.closed p (by rw [hphase]; rfl)
  have hentered : ∀ q < parties, Event.entered q s.generation ∈ tr :=
    fun q hq => (h.present q).2 (hall q hq)
  -- whoever is counted in the round now past is not counted in the next
  have hnext : ∀ q, (Function.update s.phase p (.outside none) q).inRound (s.generation + 1) =
      false ∧ (Function.update s.phase p (.outside none) q).Fits (s.generation + 1) ∧
      (Function.update s.phase p (.outside none) q).closes = false := fun q => by
    by_cases hq : q = p
    · subst hq; simp [Phase.inRound, Phase.Fits, Phase.closes]
    · rw [Function.update_of_ne hq]
      have hf := h.fits q
      have hopen : (s.phase q).closes = false := by
        by_contra hc
        exact hq (hunique q (by simpa using hc))
      cases hqp : s.phase q with
      | outside timedOut =>
        rw [hqp] at hf
        cases timedOut with
        | none => exact ⟨rfl, trivial, rfl⟩
        | some g' =>
          have hle : g' ≤ s.generation := hf
          exact ⟨by simp [Phase.inRound]; omega, by simp [Phase.Fits]; omega, rfl⟩
      | loaded g' =>
        have hlt : q < parties := h.party q (by rw [hqp]; simp)
        have hin := hall q hlt
        rw [hqp] at hin
        cases hin
      | resetting g' | raising g' => rw [hqp] at hopen; cases hopen
      | waiting g' | spun g' =>
        rw [hqp] at hf
        have hle : g' ≤ s.generation := hf
        exact ⟨by simp [Phase.inRound]; omega, by simp [Phase.Fits]; omega, rfl⟩
  refine ⟨Nat.le_succ_of_le h.start_le, fun q => (hnext q).2.1, fun g' hle hlt q hq => ?_,
    fun q g' hq => ?_, fun q => ?_, fun q hq => ?_, fun q g' hq => ?_, fun q g' hq => ?_,
    fun q g' => ?_, fun _ => ?_, fun q hq => ?_, fun q g' hq => ?_,
    returned_append h.returned fun p' g' he => by cases he; exact hentered⟩
  · refine List.mem_append_left _ ?_
    rcases Nat.lt_succ_iff_lt_or_eq.1 hlt with hlt | rfl
    · exact h.past g' hle hlt q hq
    · exact hentered q hq
  · have hm : Event.entered q g' ∈ tr := by simpa using hq
    obtain ⟨h1, h2⟩ := h.bounded q g' hm
    exact ⟨h1, Nat.le_succ_of_le h2⟩
  · rw [(hnext q).1]
    simp only [Bool.false_eq_true, iff_false]
    intro hm
    have hm : Event.entered q (s.generation + 1) ∈ tr := by simpa using hm
    have hle : s.generation + 1 ≤ s.generation := (h.bounded q _ hm).2
    omega
  · by_cases hqp : q = p
    · exact hqp ▸ hp
    · exact h.party q (by simpa [hqp] using hq)
  · by_cases hqp : q = p
    · subst hqp; simp at hq
    · exact h.waiting q g' (by simpa [hqp] using hq)
  · by_cases hqp : q = p
    · subst hqp; simp at hq
    · exact h.spun q g' (by simpa [hqp] using hq)
  · rw [List.count_append]
    simpa using h.once q g'
  · have hzero : s.count = 0 := h.raising p _ hphase
    refine ⟨by dsimp only; omega, ?_⟩
    dsimp only
    rw [hzero]
    symm
    apply List.countP_eq_zero.2
    intro q _
    rw [(hnext q).1]
    exact Bool.false_ne_true
  · rw [(hnext q).2.2] at hq
    cases hq
  · have hc := (hnext q).2.2
    rw [show Function.update s.phase p (.outside none) q = .raising g' from hq] at hc
    cases hc

theorem Inv.step {s' : State} {l : Label} (h : Inv parties start tr s)
    (hguard : rejoinsLater s l = true) (hstep : step parties s l = some s') :
    Inv parties start (tr ++ events s l) s' := by
  cases l with
  | call p =>
    cases hph : s.phase p with
    | outside timedOut =>
      simp only [Barrier.step, hph, Option.ite_none_right_eq_some, Option.some.injEq] at hstep
      obtain ⟨hp, rfl⟩ := hstep
      refine h.quiet hp rfl ?_ (by rw [hph]; rfl) rfl (by simp) (Or.inl rfl)
      cases timedOut with
      | none => rw [hph]; rfl
      | some g =>
        simp only [rejoinsLater, hph, decide_eq_true_eq] at hguard
        rw [hph]
        simpa [Phase.inRound] using hguard.ne
    | loaded _ | resetting _ | raising _ | waiting _ | spun _ => simp [Barrier.step, hph] at hstep
  | arrive p =>
    cases hph : s.phase p with
    | loaded g =>
      simp only [Barrier.step, hph, Option.some.injEq] at hstep
      subst hstep
      simp only [events, hph]
      exact h.arrive hph
    | outside _ | resetting _ | raising _ | waiting _ | spun _ => simp [Barrier.step, hph] at hstep
  | reset p =>
    cases hph : s.phase p with
    | resetting g =>
      simp only [Barrier.step, hph, Option.some.injEq] at hstep
      subst hstep
      simpa [events] using h.reset hph
    | outside _ | loaded _ | raising _ | waiting _ | spun _ => simp [Barrier.step, hph] at hstep
  | raise p =>
    cases hph : s.phase p with
    | raising g =>
      simp only [Barrier.step, hph, Option.some.injEq] at hstep
      subst hstep
      simp only [events, hph]
      exact h.raise hph
    | outside _ | loaded _ | resetting _ | waiting _ | spun _ => simp [Barrier.step, hph] at hstep
  | poll p =>
    cases hph : s.phase p with
    | waiting g =>
      have hp : p < parties := h.party p (by rw [hph]; simp)
      have hfits : g ≤ s.generation := by have hf := h.fits p; rw [hph] at hf; exact hf
      simp only [Barrier.step, hph, Option.some.injEq] at hstep
      subst hstep
      by_cases hle : s.generation ≤ g
      · simp only [events, hph, if_pos hle]
        exact h.quiet hp hfits (by rw [hph]; rfl) (by rw [hph]; rfl) rfl
          (fun g' hg' => by
            rcases hg' with hg' | hg' <;> cases hg'
            exact h.waiting p g hph) (Or.inl rfl)
      · simp only [events, hph, if_neg hle]
        refine h.quiet hp trivial ?_ (by rw [hph]; rfl) rfl (by simp)
          (Or.inr ⟨g, true, rfl, fun _ => h.past g (h.waiting p g hph) (not_le.1 hle)⟩)
        rw [hph]
        simp only [Phase.inRound]
        exact (decide_eq_false (by omega)).symm
    | outside _ | loaded _ | resetting _ | raising _ | spun _ => simp [Barrier.step, hph] at hstep
  | spin p =>
    cases hph : s.phase p with
    | spun g =>
      have hp : p < parties := h.party p (by rw [hph]; simp)
      have hfits : g ≤ s.generation := by have hf := h.fits p; rw [hph] at hf; exact hf
      simp only [Barrier.step, hph, Option.some.injEq] at hstep
      subst hstep
      exact h.quiet hp hfits (by rw [hph]; rfl) (by rw [hph]; rfl) rfl
        (fun g' hg' => by
          rcases hg' with hg' | hg' <;> cases hg'
          exact h.spun p g hph) (Or.inl rfl)
    | outside _ | loaded _ | resetting _ | raising _ | waiting _ => simp [Barrier.step, hph] at hstep
  | timeout p =>
    cases hph : s.phase p with
    | spun g =>
      have hp : p < parties := h.party p (by rw [hph]; simp)
      have hfits : g ≤ s.generation := by have hf := h.fits p; rw [hph] at hf; exact hf
      simp only [Barrier.step, hph, Option.some.injEq] at hstep
      subst hstep
      simp only [events, hph]
      exact h.quiet hp hfits (by rw [hph]; rfl) (by rw [hph]; rfl) rfl (by simp)
        (Or.inr ⟨g, false, rfl, fun hf => absurd hf Bool.false_ne_true⟩)
    | outside _ | loaded _ | resetting _ | raising _ | waiting _ => simp [Barrier.step, hph] at hstep

/-! ## Rounds are complete -/

/-- **The barrier.**  In a run in which a party whose wait timed out calls again only after
that round has closed, whoever returns `true` from a round returns after every party entered
it, and no party is counted twice in a round. -/
theorem round_complete (hpos : 0 < parties) {start : ℕ} {ls : List Label} {s : State}
    (hrun : (machine parties).runFrom rejoinsLater (State.init start) ls = some s) :
    (∀ pre p g post, (machine parties).trace events (State.init start) ls =
        pre ++ .returned p g true :: post → ∀ q < parties, Event.entered q g ∈ pre) ∧
    ∀ q g, ((machine parties).trace events (State.init start) ls).count (.entered q g) ≤ 1 := by
  have h := (machine parties).invariantTrace_init (I := Inv parties start)
    (fun tr s l s' h hguard hstep => h.step hguard hstep) (Inv.init hpos start) hrun
  exact ⟨h.returned, h.once⟩

/-- One party gives up and comes back in the next round; the other one never notices. -/
def lateReturn : List Label :=
  [.call 0, .arrive 0, .poll 0, .timeout 0, .call 1, .arrive 1, .reset 1, .raise 1,
   .call 0, .arrive 0]

theorem round_complete_lateReturn :
    ((machine 2).trace events (State.init 0) lateReturn)[3]? = some (.returned 1 0 true) ∧
    Event.entered 0 0 ∈ ((machine 2).trace events (State.init 0) lateReturn).take 3 := by
  have hobs : ((machine 2).runFrom rejoinsLater (State.init 0) lateReturn).isSome = true := by
    decide
  obtain ⟨s, hrun⟩ := Option.isSome_iff_exists.1 hobs
  refine ⟨by decide, ?_⟩
  exact (round_complete (by decide) hrun).1 _ 1 0 [.entered 0 1] (by decide) 0 (by decide)

/-- A party whose wait times out. -/
def givesUp : List Label := [.call 0, .arrive 0, .poll 0, .timeout 0]

/-- Party 0 gives up and calls again: its two arrivals close the round of two parties, and
it returns `true` while party 1 has not called. -/
theorem counted_twice :
    (machine 2).trace events (State.init 0) (givesUp ++ [.call 0, .arrive 0, .reset 0, .raise 0]) =
      [.entered 0 0, .returned 0 0 false, .entered 0 0, .returned 0 0 true] ∧
    ((machine 2).runFrom Theory.Machine.anyStep (State.init 0)
      (givesUp ++ [.call 0, .arrive 0, .reset 0, .raise 0])).isSome = true := by
  decide

end Barrier
end Memory
end HyLink
