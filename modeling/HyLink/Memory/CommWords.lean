import HyLink.Theory.Machine
import HyLink.Theory.Probing

/-!
# The slots of communicators that are never released

`SharedStateManager::userReadyCommSlot` probes the words `user_ready_comm_hash` from `comm_hash` on.
A compare-exchange claims the first word that is zero; a word that has the hash already is the slot
as well.

* `step` — a call begins, or makes its next attempt, in any process.
* `slots_agree` — the calls for one hash get one slot, those for two hashes two, and a word that is
  not zero stays as it is.
-/

namespace HyLink
namespace Memory
namespace CommWords

open Theory

/-- `PCCL_MAX_CONCURRENT_COMMS` -/
def maxConcurrentComms : ℕ := 16

/-- The hash that stands for `comm_hash` in the words, where zero is a free slot. -/
def normalised (commHash : ℕ) : ℕ := if commHash = 0 then 1 else commHash

/-- The slot of an attempt. -/
def probeIdx (commHash attempt : ℕ) : ℕ := (commHash + attempt) % 2 ^ 64 % maxConcurrentComms

/-- A call of `userReadyCommSlot` before its next attempt, with the hash it was given. -/
structure Call where
  hash : ℕ
  attempt : ℕ
  deriving DecidableEq

/-- A call that returned a slot. -/
structure Answer where
  hash : ℕ
  slot : ℕ
  deriving DecidableEq

structure State where
  /-- `user_ready_comm_hash` -/
  words : ℕ → ℕ
  calls : List Call
  answers : List Answer

def State.initial : State := ⟨fun _ => 0, [], []⟩

inductive Label
  | call (hash : ℕ)
  /-- The compare-exchange of a call, or its return after the last one. -/
  | attempt (i : ℕ)

/-- One pass of the loop. -/
def attempt (s : State) (i : ℕ) (c : Call) : State :=
  if maxConcurrentComms * 2 ≤ c.attempt then { s with calls := s.calls.eraseIdx i }
  else
    let commHash := normalised c.hash
    let idx := probeIdx commHash c.attempt
    if s.words idx = 0 then
      { words := Function.update s.words idx commHash
        calls := s.calls.eraseIdx i
        answers := s.answers ++ [⟨c.hash, idx⟩] }
    else if s.words idx = commHash then
      { s with calls := s.calls.eraseIdx i, answers := s.answers ++ [⟨c.hash, idx⟩] }
    else { s with calls := s.calls.set i { c with attempt := c.attempt + 1 } }

def step (s : State) : Label → Option State
  | .call hash => some { s with calls := s.calls ++ [⟨hash, 0⟩] }
  | .attempt i => s.calls[i]?.map (attempt s i)

def machine : Machine State Label := ⟨step⟩

/-- Every call that returns a slot returns the one of its hash. -/
structure Consistent (s : State) : Prop where
  slot_lt : ∀ a ∈ s.answers, a.slot < maxConcurrentComms
  agree : ∀ a ∈ s.answers, ∀ b ∈ s.answers,
    normalised a.hash = normalised b.hash ↔ a.slot = b.slot

/-! ## The words as a table -/

def State.cell (s : State) (i : ℕ) : Option ℕ := if s.words i = 0 then none else some (s.words i)

theorem normalised_pos (hash : ℕ) : 0 < normalised hash := by
  unfold normalised
  split <;> omega

theorem probeIdx_lt (hash attempt : ℕ) : probeIdx hash attempt < maxConcurrentComms :=
  Nat.mod_lt _ (by decide)

theorem cell_eq_none {s : State} {i : ℕ} : s.cell i = none ↔ s.words i = 0 := by
  unfold State.cell
  split <;> simp_all

theorem cell_eq_some {s : State} {i h : ℕ} (hpos : 0 < h) : s.cell i = some h ↔ s.words i = h := by
  unfold State.cell
  split
  · simp only [reduceCtorEq, false_iff]
    omega
  · exact Option.some_inj

/-- A word that is claimed. -/
theorem cell_update {s : State} {i h : ℕ} (hpos : 0 < h) (calls : List Call)
    (answers : List Answer) :
    State.cell ⟨Function.update s.words i h, calls, answers⟩ = Probing.put s.cell i h := by
  funext j
  unfold State.cell Probing.put
  by_cases hj : j = i
  · subst hj
    simp [hpos.ne']
  · simp [hj]

/-- The table, the calls and the answers. -/
structure Inv (s : State) : Prop where
  sound : Probing.Sound probeIdx s.cell
  calls : ∀ c ∈ s.calls, Probing.Passed probeIdx s.cell (normalised c.hash) c.attempt
  answers : ∀ a ∈ s.answers, a.slot < maxConcurrentComms ∧
    s.cell a.slot = some (normalised a.hash)

theorem Inv.initial : Inv State.initial where
  sound := by
    intro i h hi
    cases hi
  calls := by simp [State.initial]
  answers := by simp [State.initial]

variable {s s' : State}

/-- A call passes over a word, claims it, or finds its hash there. -/
theorem Inv.attempt (hI : Inv s) {i : ℕ} {c : Call} (hc : s.calls[i]? = some c) :
    Inv (CommWords.attempt s i c) ∧
      ∀ j, s.words j ≠ 0 → (CommWords.attempt s i c).words j = s.words j := by
  have hmem : c ∈ s.calls := List.mem_of_getElem? hc
  have hpassed := hI.calls c hmem
  have hpos := normalised_pos c.hash
  have hlt := probeIdx_lt (normalised c.hash) c.attempt
  have hrest (x : Call) (hx : x ∈ s.calls.eraseIdx i) := hI.calls x (List.mem_of_mem_eraseIdx hx)
  unfold CommWords.attempt
  by_cases hlast : maxConcurrentComms * 2 ≤ c.attempt
  · rw [if_pos hlast]
    exact ⟨⟨hI.sound, hrest, hI.answers⟩, fun _ _ => rfl⟩
  · rw [if_neg hlast]
    dsimp only
    by_cases hfree : s.words (probeIdx (normalised c.hash) c.attempt) = 0
    · rw [if_pos hfree]
      have hnone := cell_eq_none.2 hfree
      refine ⟨⟨?_, ?_, ?_⟩, ?_⟩
      · rw [cell_update hpos]
        exact hI.sound.put hpassed hnone
      · intro x hx
        rw [cell_update hpos]
        exact (hrest x hx).put hnone
      · intro a ha
        rw [cell_update hpos]
        rcases List.mem_append.1 ha with ha | ha
        · exact ⟨(hI.answers a ha).1, Probing.put_of_some hnone (hI.answers a ha).2⟩
        · rw [List.mem_singleton.1 ha]
          exact ⟨hlt, Function.update_self _ _ _⟩
      · intro j hj
        refine Function.update_of_ne ?_ _ _
        rintro rfl
        exact hj hfree
    · rw [if_neg hfree]
      by_cases hsame : s.words (probeIdx (normalised c.hash) c.attempt) = normalised c.hash
      · rw [if_pos hsame]
        refine ⟨⟨hI.sound, hrest, ?_⟩, fun _ _ => rfl⟩
        intro a ha
        rcases List.mem_append.1 ha with ha | ha
        · exact hI.answers a ha
        · rw [List.mem_singleton.1 ha]
          exact ⟨hlt, (cell_eq_some hpos).2 hsame⟩
      · rw [if_neg hsame]
        refine ⟨⟨hI.sound, ?_, hI.answers⟩, fun _ _ => rfl⟩
        intro x hx
        rcases List.mem_or_eq_of_mem_set hx with hx | rfl
        · exact hI.calls x hx
        · exact hpassed.succ ((cell_eq_some (Nat.pos_of_ne_zero hfree)).2 rfl) hsame

theorem Inv.step {l : Label} (hI : Inv s) (hstep : CommWords.step s l = some s') :
    Inv s' ∧ ∀ j, s.words j ≠ 0 → s'.words j = s.words j := by
  cases l with
  | call hash =>
    cases hstep
    refine ⟨⟨hI.sound, ?_, hI.answers⟩, fun _ _ => rfl⟩
    intro c hc
    rcases List.mem_append.1 hc with hc | hc
    · exact hI.calls c hc
    · rw [List.mem_singleton.1 hc]
      exact fun j hj => absurd hj (Nat.not_lt_zero j)
  | attempt i =>
    obtain ⟨c, hc, rfl⟩ := Option.map_eq_some_iff.1 hstep
    exact hI.attempt hc

theorem Inv.consistent (hI : Inv s) : Consistent s where
  slot_lt := fun a ha => (hI.answers a ha).1
  agree := by
    intro a ha b hb
    have hcellA := (hI.answers a ha).2
    have hcellB := (hI.answers b hb).2
    constructor
    · intro h
      rw [← h] at hcellB
      exact hI.sound.unique hcellA hcellB
    · intro h
      rw [← h, hcellA] at hcellB
      exact Option.some.inj hcellB

/-- What a run leaves of the words. -/
theorem Inv.run {ls : List Label} (hI : Inv s)
    (hrun : machine.runFrom Machine.anyStep s ls = some s') :
    Inv s' ∧ ∀ j, s.words j ≠ 0 → s'.words j = s.words j := by
  refine machine.invariant (I := fun t => Inv t ∧ ∀ j, s.words j ≠ 0 → t.words j = s.words j)
    ?_ ⟨hI, fun _ _ => rfl⟩ hrun
  rintro t l t' ⟨ht, hwords⟩ - hstep
  obtain ⟨ht', hkept⟩ := ht.step hstep
  refine ⟨ht', fun j hj => ?_⟩
  rw [← hwords j hj]
  exact hkept j (by rw [hwords j hj]; exact hj)

/-- **The slots of communicators.**  In every run of calls for any hashes, by any number of
processes and in any order of their attempts, the calls that return a slot agree on it just if their
hashes agree, and a slot that is bound to a hash stays bound to it. -/
theorem slots_agree (ls more : List Label) (s s' : State)
    (hrun : machine.runFrom Machine.anyStep State.initial ls = some s)
    (hmore : machine.runFrom Machine.anyStep s more = some s') :
    Consistent s' ∧ ∀ i, s.words i ≠ 0 → s'.words i = s.words i := by
  obtain ⟨hI, -⟩ := Inv.initial.run hrun
  obtain ⟨hI', hkept⟩ := hI.run hmore
  exact ⟨hI'.consistent, hkept⟩

/-- Two hashes that begin at one slot, three calls. -/
def colliding : List Label :=
  [.call 5, .call 21, .attempt 1, .attempt 0, .call 21, .attempt 0, .attempt 0]

theorem slots_agree_colliding :
    ∃ s, machine.runFrom Machine.anyStep State.initial colliding = some s ∧
      s.answers = [⟨21, 5⟩, ⟨5, 6⟩, ⟨21, 5⟩] ∧ Consistent s := by
  have hobs : (machine.runFrom Machine.anyStep State.initial colliding).map State.answers =
      some [⟨21, 5⟩, ⟨5, 6⟩, ⟨21, 5⟩] := by
    decide +kernel
  obtain ⟨s, hrun, hs⟩ := Option.map_eq_some_iff.1 hobs
  exact ⟨s, hrun, hs, (slots_agree colliding [] s s hrun rfl).1⟩

end CommWords
end Memory
end HyLink
