import Mathlib.Logic.Function.Basic
import HyLink.Theory.Counting

/-!
# Rounds of a leader and its followers

The parties `0, …, parties - 1` go through rounds.  In each one the leader, party `0`,
announces something and sets a count of the followers that have not read it; a follower
starts to read when it finds the count above zero and takes one off it afterwards.  Then
all meet at a sense-reversing barrier.

* `Move` — the steps of the protocol.
* `Sound` — what holds in every state: nobody is a round ahead, the counts count, and who
  reads is reading the announcement of its own round.
* `Sound.move` — every step keeps it.
-/

namespace HyLink
namespace Theory
namespace Rounds

/-- Where a party stands in its round. -/
inductive Place where
  | outside
  | reading
  /-- The announcement is read. -/
  | entering
  /-- The sense is loaded; `mark` is its opposite. -/
  | arriving (mark : Bool)
  /-- The party is the last to arrive. -/
  | resetting (mark : Bool)
  /-- The arrivals are reset. -/
  | raising (mark : Bool)
  | waiting (mark : Bool)
  /-- The barrier is passed. -/
  | leaving
  deriving DecidableEq, Repr

structure State where
  place : ℕ → Place
  /-- The rounds a party has finished. -/
  done : ℕ → ℕ
  /-- The announcements made. -/
  announced : ℕ
  /-- The count of followers that have not read the last announcement. -/
  unread : ℕ
  /-- The count of the barrier. -/
  arrived : ℕ
  sense : Bool
  /-- The barriers completed. -/
  released : ℕ

def State.goto (s : State) (r : ℕ) (p : Place) : State :=
  { s with place := Function.update s.place r p }

/-- The steps of the protocol. -/
inductive Move (parties : ℕ) (s : State) : State → Prop where
  | announce (h : s.place 0 = .outside) :
    Move parties s { s.goto 0 .reading with announced := s.announced + 1, unread := parties - 1 }
  | start {r : ℕ} (hr : r < parties) (hf : r ≠ 0) (h : s.place r = .outside)
      (hu : s.unread ≠ 0) : Move parties s (s.goto r .reading)
  | pass (h : s.place 0 = .reading) : Move parties s (s.goto 0 .entering)
  | consume {r : ℕ} (hr : r < parties) (hf : r ≠ 0) (h : s.place r = .reading) :
    Move parties s { s.goto r .entering with unread := s.unread - 1 }
  | enter {r : ℕ} (hr : r < parties) (h : s.place r = .entering) :
    Move parties s (s.goto r (.arriving (!s.sense)))
  | arrive {r : ℕ} {m : Bool} (hr : r < parties) (h : s.place r = .arriving m) :
    Move parties s { s.goto r (if s.arrived + 1 = parties then .resetting m else .waiting m) with
      arrived := s.arrived + 1 }
  | reset {r : ℕ} {m : Bool} (hr : r < parties) (h : s.place r = .resetting m) :
    Move parties s { s.goto r (.raising m) with arrived := 0 }
  | raise {r : ℕ} {m : Bool} (hr : r < parties) (h : s.place r = .raising m) :
    Move parties s { s.goto r .leaving with sense := m, released := s.released + 1 }
  | leave {r : ℕ} {m : Bool} (hr : r < parties) (h : s.place r = .waiting m) (hm : s.sense = m) :
    Move parties s (s.goto r .leaving)
  | finish {r : ℕ} (hr : r < parties) (h : s.place r = .leaving) :
    Move parties s { s.goto r .outside with done := Function.update s.done r (s.done r + 1) }

/-! ## What holds in every state -/

/-- The party is past the barrier of its round. -/
def Place.past (sense : Bool) : Place → Bool
  | .leaving => true
  | .waiting m => m == sense
  | _ => false

/-- The party has read the last announcement and is not past the barrier. -/
def Place.consumed (sense : Bool) : Place → Bool
  | .entering | .arriving _ | .resetting _ | .raising _ => true
  | .waiting m => m != sense
  | _ => false

/-- The party is counted at the barrier. -/
def Place.met (sense : Bool) : Place → Bool
  | .resetting _ => true
  | .waiting m => m != sense
  | _ => false

/-- The party is the last one at the barrier. -/
def Place.last : Place → Bool
  | .resetting _ | .raising _ => true
  | _ => false

/-- **Sound states.** -/
structure Sound (parties : ℕ) (s : State) : Prop where
  /-- A party past the barrier is one round behind the barrier, the others are level. -/
  level : ∀ r < parties, s.done r + (if (s.place r).past s.sense then 1 else 0) = s.released
  own : ∀ r < parties, ∀ m,
    s.place r = .arriving m ∨ s.place r = .resetting m ∨ s.place r = .raising m → m = !s.sense
  last : ∀ r < parties, (s.place r).last → ∀ q < parties, q ≠ r →
    s.place q = .waiting (!s.sense)
  /-- The barrier's count counts, until the last party resets it. -/
  arrivals : (∀ r < parties, ∀ m, s.place r ≠ .raising m) →
    s.arrived = (List.range parties).countP fun r => (s.place r).met s.sense
  cleared : ∀ r < parties, ∀ m, s.place r = .raising m → s.arrived = 0
  /-- Someone is missing at the barrier, or there is a last one. -/
  missing : (∀ r < parties, (s.place r).last = false) → s.arrived < parties
  /-- The leader's place tells whether the round is announced. -/
  leader : (s.place 0 = .outside ∨ (s.place 0).past s.sense) → s.announced = s.released
  inside : ∀ r < parties, (s.place r = .reading ∨ (s.place r).consumed s.sense) →
    s.announced = s.released + 1
  announced : s.announced = s.released ∨ s.announced = s.released + 1
  /-- The count of followers that have not read counts. -/
  unread : s.announced = s.released + 1 →
    s.unread + (List.range parties).countP (fun r => r == 0 || (s.place r).consumed s.sense) =
      parties
  settled : s.announced = s.released → s.unread = 0

@[simp] theorem goto_place_self (s : State) (r : ℕ) (p : Place) : (s.goto r p).place r = p := by
  simp [State.goto]

theorem goto_place_ne (s : State) {r q : ℕ} (p : Place) (h : q ≠ r) :
    (s.goto r p).place q = s.place q := by
  simp [State.goto, h]

@[simp] theorem goto_done (s : State) (r : ℕ) (p : Place) : (s.goto r p).done = s.done := rfl
@[simp] theorem goto_announced (s : State) (r : ℕ) (p : Place) :
    (s.goto r p).announced = s.announced := rfl
@[simp] theorem goto_unread (s : State) (r : ℕ) (p : Place) : (s.goto r p).unread = s.unread := rfl
@[simp] theorem goto_arrived (s : State) (r : ℕ) (p : Place) :
    (s.goto r p).arrived = s.arrived := rfl
@[simp] theorem goto_sense (s : State) (r : ℕ) (p : Place) : (s.goto r p).sense = s.sense := rfl
@[simp] theorem goto_released (s : State) (r : ℕ) (p : Place) :
    (s.goto r p).released = s.released := rfl

variable {parties : ℕ} {s t : State}

namespace Sound

/-- Who is not past the barrier is level with it. -/
theorem done_eq (h : Sound parties s) {r : ℕ} (hr : r < parties)
    (hp : (s.place r).past s.sense = false) : s.done r = s.released := by
  have := h.level r hr
  rwa [if_neg (by simp [hp]), Nat.add_zero] at this

/-- Who is past the barrier has one round less to its name. -/
theorem done_past (h : Sound parties s) {r : ℕ} (hr : r < parties)
    (hp : (s.place r).past s.sense = true) : s.done r + 1 = s.released := by
  have := h.level r hr
  rwa [if_pos hp] at this

/-- **Who reads, reads the announcement of its own round.** -/
theorem reading_announced (h : Sound parties s) {r : ℕ} (hr : r < parties)
    (hp : s.place r = .reading) : s.announced = s.done r + 1 := by
  rw [h.inside r hr (.inl hp), h.done_eq hr (by simp [hp, Place.past])]

/-- **The leader announces the round it is in.** -/
theorem outside_announced (h : Sound parties s) (hn : 0 < parties) (hp : s.place 0 = .outside) :
    s.announced = s.done 0 := by
  rw [h.leader (.inl hp), h.done_eq hn (by simp [hp, Place.past])]

/-- **Nobody reads while the leader is outside.** -/
theorem not_reading (h : Sound parties s) (hp : s.place 0 = .outside) {r : ℕ} (hr : r < parties) :
    s.place r ≠ .reading := by
  intro hread
  have := h.inside r hr (.inl hread)
  rw [h.leader (.inl hp)] at this
  omega

theorem done_le (h : Sound parties s) {r : ℕ} (hr : r < parties) : s.done r ≤ s.announced := by
  have hl := h.level r hr
  have hann := h.announced
  omega

end Sound

/-! ## Every step keeps it -/

theorem countP_goto_same (n : ℕ) {f : ℕ → Place → Bool} {r : ℕ} {p : Place} (hf : f r (s.place r) = f r p) :
    ((List.range n).countP fun q => f q ((s.goto r p).place q)) =
      (List.range n).countP fun q => f q (s.place q) := by
  apply countP_range_congr
  intro q _
  by_cases hq : q = r
  · rw [hq, goto_place_self, hf]
  · rw [goto_place_ne s p hq]

theorem countP_goto_on {f : ℕ → Place → Bool} {r : ℕ} {p : Place} (hr : r < parties)
    (hoff : f r (s.place r) = false) (hon : f r p = true) :
    ((List.range parties).countP fun q => f q ((s.goto r p).place q)) =
      (List.range parties).countP (fun q => f q (s.place q)) + 1 := by
  apply countP_range_set hr hoff (by rw [goto_place_self, hon])
  intro q hq
  rw [goto_place_ne s p hq]

/-- While a party is not waiting at the barrier, no other party is the last one there. -/
theorem Sound.not_last (h : Sound parties s) {r : ℕ} (hr : r < parties)
    (hw : s.place r ≠ .waiting (!s.sense)) {q : ℕ} (hq : q < parties) (hqr : q ≠ r) :
    (s.place q).last = false := by
  rw [← Bool.not_eq_true]
  intro hl
  exact hw (h.last q hq hl r hr hqr.symm)

/-- What is left to check when a party that is not waiting changes its place and neither
the sense nor the number of announcements changes. -/
theorem Sound.change (h : Sound parties s) {r : ℕ} (hr : r < parties)
    (hw : s.place r ≠ .waiting (!s.sense))
    (hplace : ∀ q, q ≠ r → t.place q = s.place q) (hdone : ∀ q, q ≠ r → t.done q = s.done q)
    (hsense : t.sense = s.sense) (hreleased : t.released = s.released)
    (hann : t.announced = s.announced)
    (level : t.done r + (if (t.place r).past s.sense then 1 else 0) = s.released)
    (own : ∀ m, t.place r = .arriving m ∨ t.place r = .resetting m ∨ t.place r = .raising m →
      m = !s.sense)
    (last : (t.place r).last → ∀ q < parties, q ≠ r → s.place q = .waiting (!s.sense))
    (arrivals : (∀ m, t.place r ≠ .raising m) →
      t.arrived = (List.range parties).countP fun q => (t.place q).met s.sense)
    (cleared : ∀ m, t.place r = .raising m → t.arrived = 0)
    (missing : (t.place r).last = false → t.arrived < parties)
    (leader : r = 0 → (t.place 0 = .outside ∨ (t.place 0).past s.sense) →
      s.announced = s.released)
    (inside : (t.place r = .reading ∨ (t.place r).consumed s.sense) →
      s.announced = s.released + 1)
    (unread : s.announced = s.released + 1 →
      t.unread + (List.range parties).countP (fun q => q == 0 || (t.place q).consumed s.sense) =
        parties)
    (settled : s.announced = s.released → t.unread = 0) : Sound parties t := by
  refine ⟨?_, ?_, ?_, ?_, ?_, ?_, ?_, ?_, ?_, ?_, ?_⟩
  · intro q hq
    rw [hsense, hreleased]
    by_cases hqr : q = r
    · exact hqr ▸ level
    · rw [hplace q hqr, hdone q hqr]
      exact h.level q hq
  · intro q hq m hm
    rw [hsense]
    by_cases hqr : q = r
    · exact own m (hqr ▸ hm)
    · exact h.own q hq m (hplace q hqr ▸ hm)
  · intro q hq hl p hp hpq
    rw [hsense]
    by_cases hqr : q = r
    · rw [hplace p (hqr ▸ hpq)]
      exact last (hqr ▸ hl) p hp (hqr ▸ hpq)
    · rw [hplace q hqr, h.not_last hr hw hq hqr] at hl
      exact absurd hl Bool.false_ne_true
  · intro hno
    rw [hsense]
    exact arrivals (hno r hr)
  · intro q hq m hm
    by_cases hqr : q = r
    · exact cleared m (hqr ▸ hm)
    · have hl := h.not_last hr hw hq hqr
      rw [← hplace q hqr, hm] at hl
      exact absurd hl (by simp [Place.last])
  · intro hno
    exact missing (hno r hr)
  · intro hl
    rw [hann, hreleased]
    rw [hsense] at hl
    by_cases hr0 : r = 0
    · exact leader hr0 hl
    · rw [hplace 0 (Ne.symm hr0)] at hl
      exact h.leader hl
  · intro q hq hin
    rw [hann, hreleased]
    rw [hsense] at hin
    by_cases hqr : q = r
    · exact inside (hqr ▸ hin)
    · rw [hplace q hqr] at hin
      exact h.inside q hq hin
  · rw [hann, hreleased]
    exact h.announced
  · rw [hann, hreleased, hsense]
    exact unread
  · rw [hann, hreleased]
    exact settled

/-- As long as no one is the last at the barrier, its count counts and someone is missing. -/
theorem Sound.counting (h : Sound parties s) {r : ℕ} (hr : r < parties)
    (hw : s.place r ≠ .waiting (!s.sense)) (hl : (s.place r).last = false) :
    s.arrived = ((List.range parties).countP fun q => (s.place q).met s.sense) ∧
      s.arrived < parties := by
  have hall : ∀ q < parties, (s.place q).last = false := by
    intro q hq
    by_cases hqr : q = r
    · exact hqr ▸ hl
    · exact h.not_last hr hw hq hqr
  refine ⟨h.arrivals ?_, h.missing hall⟩
  intro q hq m hm
  have := hall q hq
  rw [hm] at this
  exact absurd this (by simp [Place.last])

/-- A change between places that the barrier does not count, where nobody is last. -/
theorem Sound.goto (h : Sound parties s) {r : ℕ} {p : Place} (hr : r < parties)
    (hw : s.place r ≠ .waiting (!s.sense)) (hl : (s.place r).last = false)
    (hp : p.last = false) (hmet : (s.place r).met s.sense = p.met s.sense)
    (hpast : (s.place r).past s.sense = p.past s.sense)
    (own : ∀ m, p = .arriving m → m = !s.sense)
    (hout : p ≠ .outside)
    (inside : (p = .reading ∨ p.consumed s.sense) → s.announced = s.released + 1)
    {n : ℕ}
    (unread : s.announced = s.released + 1 →
      n + (List.range parties).countP
        (fun q => q == 0 || ((s.goto r p).place q).consumed s.sense) = parties)
    (settled : s.announced = s.released → n = 0) :
    Sound parties { s.goto r p with unread := n } := by
  have hcount := h.counting hr hw hl
  refine h.change hr hw (fun q hq => goto_place_ne s p hq) (fun _ _ => rfl) rfl rfl rfl ?_ ?_ ?_ ?_
    ?_ ?_ ?_ ?_ unread settled
  · show s.done r + (if ((s.goto r p).place r).past s.sense then 1 else 0) = s.released
    rw [goto_place_self, ← hpast]
    exact h.level r hr
  · intro m hm
    simp only [goto_place_self] at hm
    rcases hm with hm | hm | hm
    · exact own m hm
    · rw [hm] at hp
      exact absurd hp (by simp [Place.last])
    · rw [hm] at hp
      exact absurd hp (by simp [Place.last])
  · intro hlast
    simp only [goto_place_self, hp, Bool.false_eq_true] at hlast
  · intro _
    have := countP_goto_same parties (f := fun _ p => p.met s.sense) hmet
    rw [this]
    exact hcount.1
  · intro m hm
    simp only [goto_place_self] at hm
    rw [hm] at hp
    exact absurd hp (by simp [Place.last])
  · exact fun _ => hcount.2
  · rintro rfl hl'
    simp only [goto_place_self, hout, false_or, ← hpast] at hl'
    exact h.leader (.inr hl')
  · simp only [goto_place_self]
    exact inside

/-- A change of place that keeps who has read the announcement. -/
theorem Sound.goto_same (h : Sound parties s) {r : ℕ} {p : Place} (hr : r < parties)
    (hw : s.place r ≠ .waiting (!s.sense)) (hl : (s.place r).last = false)
    (hp : p.last = false) (hmet : (s.place r).met s.sense = p.met s.sense)
    (hpast : (s.place r).past s.sense = p.past s.sense)
    (own : ∀ m, p = .arriving m → m = !s.sense) (hout : p ≠ .outside)
    (inside : (p = .reading ∨ p.consumed s.sense) → s.announced = s.released + 1)
    (hcons : (r == 0 || (s.place r).consumed s.sense) = (r == 0 || p.consumed s.sense)) :
    Sound parties (s.goto r p) := by
  apply h.goto hr hw hl hp hmet hpast own hout inside ?_ h.settled
  intro ha
  have := countP_goto_same parties
    (f := fun q p => q == 0 || p.consumed s.sense) hcons
  rw [this]
  exact h.unread ha

theorem countP_leader (hn : 0 < parties) : (List.range parties).countP (fun q => q == 0) = 1 := by
  have hset := countP_range_set (f := fun _ => false) (g := fun q => q == 0) hn rfl rfl
    (fun q hq => beq_false_of_ne hq)
  simpa using hset

/-- **The announcement keeps it.** -/
theorem Sound.announce (h : Sound parties s) (hn : 0 < parties) (hp : s.place 0 = .outside) :
    Sound parties { s.goto 0 .reading with
      announced := s.announced + 1, unread := parties - 1 } := by
  have ha := h.leader (.inl hp)
  have hnone : ∀ q < parties, s.place q ≠ .reading ∧ (s.place q).consumed s.sense = false := by
    intro q hq
    refine ⟨h.not_reading hp hq, ?_⟩
    rw [← Bool.not_eq_true]
    intro hc
    have := h.inside q hq (.inr hc)
    omega
  have hw : s.place 0 ≠ .waiting (!s.sense) := by simp [hp]
  have hcount := h.counting hn hw (by simp [hp, Place.last])
  refine ⟨?_, ?_, ?_, ?_, ?_, ?_, ?_, ?_, ?_, ?_, ?_⟩
  · intro q hq
    by_cases hq0 : q = 0
    · subst hq0
      have := h.done_eq hn (by simp [hp, Place.past])
      simpa [Place.past] using this
    · simpa [goto_place_ne s _ hq0] using h.level q hq
  · intro q hq m hm
    by_cases hq0 : q = 0
    · subst hq0
      simp at hm
    · simp only [goto_place_ne s _ hq0] at hm
      exact h.own q hq m hm
  · intro q hq hl p hp' hpq
    by_cases hq0 : q = 0
    · subst hq0
      simp [Place.last] at hl
    · simp only [goto_place_ne s _ hq0, h.not_last hn hw hq hq0] at hl
      exact absurd hl Bool.false_ne_true
  · intro _
    have := countP_goto_same parties (s := s) (r := 0) (p := .reading)
      (f := fun _ p => p.met s.sense) (by simp [hp, Place.met])
    exact hcount.1.trans this.symm
  · intro q hq m hm
    by_cases hq0 : q = 0
    · subst hq0
      simp at hm
    · have := h.not_last hn hw hq hq0
      simp only [goto_place_ne s _ hq0] at hm
      rw [hm] at this
      exact absurd this (by simp [Place.last])
  · exact fun _ => hcount.2
  · intro hl
    simp [Place.past] at hl
  · intro q hq _
    exact congrArg (· + 1) ha
  · exact .inr (congrArg (· + 1) ha)
  · intro _
    have hcong : (List.range parties).countP
          (fun q => q == 0 || ((s.goto 0 .reading).place q).consumed s.sense) =
        (List.range parties).countP fun q => q == 0 := by
      apply countP_range_congr
      intro q hq
      by_cases hq0 : q = 0
      · simp [hq0]
      · simp [goto_place_ne s _ hq0, (hnone q hq).2]
    have hone := hcong.trans (countP_leader hn)
    exact (congrArg (parties - 1 + ·) hone).trans (Nat.sub_add_cancel hn)
  · intro he
    change s.announced + 1 = s.released at he
    omega

/-- **The last party turns the sense.** -/
theorem Sound.raise (h : Sound parties s) {r : ℕ} {m : Bool} (hr : r < parties)
    (hp : s.place r = .raising m) :
    Sound parties { s.goto r .leaving with sense := m, released := s.released + 1 } := by
  have hm : m = !s.sense := h.own r hr m (.inr (.inr hp))
  have hlast := h.last r hr (by simp [hp, Place.last])
  have ha : s.announced = s.released + 1 := h.inside r hr (.inr (by simp [hp, Place.consumed]))
  have hpast : ∀ q < parties, ((s.goto r .leaving).place q).past m = true := by
    intro q hq
    by_cases hqr : q = r
    · simp [hqr, Place.past]
    · simp [goto_place_ne s _ hqr, hlast q hq hqr, Place.past, hm]
  have hcases : ∀ q < parties, (s.goto r .leaving).place q = .leaving ∨
      (s.goto r .leaving).place q = .waiting m := by
    intro q hq
    by_cases hqr : q = r
    · exact .inl (by simp [hqr])
    · exact .inr (by simp [goto_place_ne s _ hqr, hlast q hq hqr, hm])
  have hdone : ∀ q < parties, s.done q = s.released := by
    intro q hq
    apply h.done_eq hq
    by_cases hqr : q = r
    · simp [hqr, hp, Place.past]
    · simp [hlast q hq hqr, Place.past]
  have hn : 0 < parties := Nat.zero_lt_of_lt hr
  have hunread : s.unread = 0 := by
    have hcount := h.unread ha
    have hall : (List.range parties).countP
        (fun q => q == 0 || (s.place q).consumed s.sense) = parties := by
      apply countP_range_eq.2
      intro q hq
      by_cases hqr : q = r
      · simp [hqr, hp, Place.consumed]
      · simp [hlast q hq hqr, Place.consumed]
    omega
  refine ⟨?_, ?_, ?_, ?_, ?_, ?_, ?_, ?_, ?_, ?_, ?_⟩
  · intro q hq
    show s.done q + (if ((s.goto r .leaving).place q).past m then 1 else 0) = s.released + 1
    rw [hpast q hq, hdone q hq]
    rfl
  · intro q hq m' hm'
    rcases hcases q hq with hc | hc <;> simp [hc] at hm'
  · intro q hq hl
    rcases hcases q hq with hc | hc <;> simp [hc, Place.last] at hl
  · intro _
    have hnone : (List.range parties).countP
        (fun q => ((s.goto r .leaving).place q).met m) = 0 := by
      rw [List.countP_eq_zero]
      intro q hq
      rcases hcases q (List.mem_range.1 hq) with hc | hc <;> simp [hc, Place.met]
    show s.arrived = _
    rw [hnone]
    exact h.cleared r hr m hp
  · intro q hq m' hm'
    rcases hcases q hq with hc | hc <;> simp [hc] at hm'
  · intro _
    show s.arrived < parties
    rw [h.cleared r hr m hp]
    exact hn
  · exact fun _ => ha
  · intro q hq hin
    rcases hcases q hq with hc | hc <;> simp [hc, Place.consumed] at hin
  · exact .inl ha
  · intro he
    change s.announced = s.released + 1 + 1 at he
    omega
  · exact fun _ => hunread

/-- **Arriving keeps it:** the last party finds the count full. -/
theorem Sound.arrive (h : Sound parties s) {r : ℕ} {m : Bool} (hr : r < parties)
    (hp : s.place r = .arriving m) :
    Sound parties { s.goto r (if s.arrived + 1 = parties then .resetting m else .waiting m) with
      arrived := s.arrived + 1 } := by
  have hm : m = !s.sense := h.own r hr m (.inl hp)
  have hw : s.place r ≠ .waiting (!s.sense) := by simp [hp]
  have hcount := h.counting hr hw (by simp [hp, Place.last])
  have ha : s.announced = s.released + 1 := h.inside r hr (.inr (by simp [hp, Place.consumed]))
  have hdone := h.done_eq hr (by simp [hp, Place.past])
  generalize heq : (if s.arrived + 1 = parties then Place.resetting m else .waiting m) = p
  have hp' : (p = .resetting m ∧ s.arrived + 1 = parties) ∨
      (p = .waiting m ∧ s.arrived + 1 ≠ parties) := by
    rw [← heq]
    by_cases hfull : s.arrived + 1 = parties
    · exact .inl ⟨if_pos hfull, hfull⟩
    · exact .inr ⟨if_neg hfull, hfull⟩
  have hmet : p.met s.sense = true := by
    rcases hp' with ⟨rfl, -⟩ | ⟨rfl, -⟩ <;> simp [Place.met, hm]
  have hcons : p.consumed s.sense = true := by
    rcases hp' with ⟨rfl, -⟩ | ⟨rfl, -⟩ <;> simp [Place.consumed, hm]
  have hmets := countP_goto_on (s := s) (f := fun _ p => p.met s.sense) (p := p) hr
    (by simp [hp, Place.met]) hmet
  refine h.change hr hw (fun q hq => goto_place_ne s p hq) (fun _ _ => rfl) rfl rfl rfl ?_ ?_ ?_ ?_
    ?_ ?_ ?_ ?_ ?_ h.settled
  · have hpast : p.past s.sense = false := by
      rcases hp' with ⟨rfl, -⟩ | ⟨rfl, -⟩ <;> simp [Place.past, hm]
    simpa [hpast] using hdone
  · intro m' hm'
    simp only [goto_place_self] at hm'
    rcases hp' with ⟨rfl, -⟩ | ⟨rfl, -⟩ <;> simp at hm'
    exact hm' ▸ hm
  · intro hl q hq hqr
    simp only [goto_place_self] at hl
    rcases hp' with ⟨rfl, hfull⟩ | ⟨rfl, -⟩
    · -- every party is counted, and no other one is the last
      have hall : (List.range parties).countP
          (fun q => ((s.goto r (.resetting m)).place q).met s.sense) = parties := by
        rw [hmets, ← hcount.1, hfull]
      have hmq := countP_range_eq.1 hall q hq
      have hnl := h.not_last hr hw hq hqr
      rw [goto_place_ne s _ hqr] at hmq
      revert hmq hnl
      cases s.place q <;> simp [Place.met, Place.last, Bool.eq_not]
    · exact absurd hl (by simp [Place.last])
  · intro _
    show s.arrived + 1 = _
    rw [hcount.1]
    exact hmets.symm
  · intro m' hm'
    simp only [goto_place_self] at hm'
    rcases hp' with ⟨rfl, -⟩ | ⟨rfl, -⟩ <;> simp at hm'
  · intro hl
    simp only [goto_place_self] at hl
    show s.arrived + 1 < parties
    rcases hp' with ⟨rfl, -⟩ | ⟨rfl, hfull⟩
    · exact absurd hl (by simp [Place.last])
    · exact Nat.lt_of_le_of_ne hcount.2 hfull
  · rintro rfl hl
    simp only [goto_place_self] at hl
    rcases hp' with ⟨rfl, -⟩ | ⟨rfl, -⟩ <;> simp [Place.past, hm] at hl
  · exact fun _ => ha
  · intro _
    have hsame := countP_goto_same parties
      (f := fun q p => q == 0 || p.consumed s.sense) (s := s) (r := r) (p := p)
      (by simp only [hp, hcons]; rfl)
    show s.unread + _ = parties
    exact (congrArg (s.unread + ·) hsame).trans (h.unread ha)

theorem Sound.reset (h : Sound parties s) {r : ℕ} {m : Bool} (hr : r < parties)
    (hp : s.place r = .resetting m) :
    Sound parties { s.goto r (.raising m) with arrived := 0 } := by
  have hm : m = !s.sense := h.own r hr m (.inr (.inl hp))
  have hw : s.place r ≠ .waiting (!s.sense) := by simp [hp]
  have ha : s.announced = s.released + 1 := h.inside r hr (.inr (by simp [hp, Place.consumed]))
  have hdone := h.done_eq hr (by simp [hp, Place.past])
  refine h.change hr hw (fun q hq => goto_place_ne s _ hq) (fun _ _ => rfl) rfl rfl rfl ?_ ?_ ?_ ?_
    ?_ ?_ ?_ ?_ ?_ h.settled
  · simpa [Place.past] using hdone
  · intro m' hm'
    simp only [goto_place_self, reduceCtorEq, Place.raising.injEq, false_or] at hm'
    exact hm' ▸ hm
  · exact fun _ => h.last r hr (by simp [hp, Place.last])
  · intro hno
    exact absurd (goto_place_self s r _) (hno m)
  · exact fun _ _ => rfl
  · exact fun _ => Nat.zero_lt_of_lt hr
  · rintro rfl hl
    simp [Place.past] at hl
  · exact fun _ => ha
  · intro _
    have hsame := countP_goto_same parties
      (f := fun q p => q == 0 || p.consumed s.sense) (s := s) (r := r) (p := .raising m)
      (by simp [hp, Place.consumed])
    exact (congrArg (s.unread + ·) hsame).trans (h.unread ha)

theorem Sound.finish (h : Sound parties s) {r : ℕ} (hr : r < parties) (hp : s.place r = .leaving) :
    Sound parties { s.goto r .outside with done := Function.update s.done r (s.done r + 1) } := by
  have hw : s.place r ≠ .waiting (!s.sense) := by simp [hp]
  have hcount := h.counting hr hw (by simp [hp, Place.last])
  have hdone := h.done_past hr (by simp [hp, Place.past])
  refine h.change hr hw (fun q hq => goto_place_ne s _ hq) ?_ rfl rfl rfl ?_ ?_ ?_ ?_
    ?_ ?_ ?_ ?_ ?_ h.settled
  · intro q hq
    exact Function.update_of_ne hq _ _
  · simpa [Place.past] using hdone
  · intro m hm
    simp at hm
  · intro hl
    simp [Place.last] at hl
  · intro _
    have hsame := countP_goto_same parties (f := fun _ p => p.met s.sense)
      (s := s) (r := r) (p := .outside) (by simp [hp, Place.met])
    exact hcount.1.trans hsame.symm
  · intro m hm
    simp at hm
  · exact fun _ => hcount.2
  · rintro rfl _
    exact h.leader (.inr (by simp [hp, Place.past]))
  · intro hin
    simp [Place.consumed] at hin
  · intro ha
    have hsame := countP_goto_same parties
      (f := fun q p => q == 0 || p.consumed s.sense) (s := s) (r := r) (p := .outside)
      (by simp [hp, Place.consumed])
    exact (congrArg (s.unread + ·) hsame).trans (h.unread ha)

/-- **Every step keeps it.** -/
theorem Sound.move (h : Sound parties s) (hn : 0 < parties) (hm : Move parties s t) :
    Sound parties t := by
  cases hm with
  | announce hp => exact h.announce hn hp
  | start hr hf hp hu =>
    refine h.goto_same hr (by simp [hp]) (by simp [hp, Place.last]) rfl
      (by simp [hp, Place.met]) (by simp [hp, Place.past]) nofun nofun ?_
      (by simp [hp, Place.consumed])
    intro _
    rcases h.announced with ha | ha
    · exact absurd (h.settled ha) hu
    · exact ha
  | pass hp =>
    exact h.goto_same hn (by simp [hp]) (by simp [hp, Place.last]) rfl
      (by simp [hp, Place.met]) (by simp [hp, Place.past]) nofun nofun
      (fun _ => h.inside 0 hn (.inl hp)) (by simp)
  | @consume r hr hf hp =>
    have ha := h.inside r hr (.inl hp)
    refine h.goto (p := .entering) (n := s.unread - 1) hr (by simp [hp])
      (by simp [hp, Place.last]) rfl (by simp [hp, Place.met]) (by simp [hp, Place.past])
      nofun nofun (fun _ => ha) ?_ ?_
    · intro _
      have hon := countP_goto_on (s := s) (f := fun q p => q == 0 || p.consumed s.sense)
        (p := .entering) hr (by simp [hp, hf, Place.consumed]) (by simp [Place.consumed])
      have hcount := h.unread ha
      have hle : (List.range parties).countP
          (fun q => q == 0 || ((s.goto r .entering).place q).consumed s.sense) ≤ parties :=
        countP_range_le
      rw [hon] at hle ⊢
      omega
    · intro he
      omega
  | @enter r hr hp =>
    refine h.goto_same hr (by simp [hp]) (by simp [hp, Place.last]) rfl
      (by simp [hp, Place.met]) (by simp [hp, Place.past]) ?_ nofun
      (fun _ => h.inside r hr (.inr (by simp [hp, Place.consumed]))) (by simp [hp, Place.consumed])
    intro m hm
    exact (Place.arriving.inj hm).symm
  | arrive hr hp => exact h.arrive hr hp
  | reset hr hp => exact h.reset hr hp
  | raise hr hp => exact h.raise hr hp
  | leave hr hp hs =>
    subst hs
    refine h.goto_same hr (by simp [hp]) (by simp [hp, Place.last]) rfl
      (by simp [hp, Place.met]) (by simp [hp, Place.past]) nofun nofun ?_
      (by simp [hp, Place.consumed])
    intro hin
    simp [Place.consumed] at hin
  | finish hr hp => exact h.finish hr hp

end Rounds
end Theory
end HyLink
