import HyLink.Theory.Machine
import Mathlib.Data.List.Count
import Mathlib.Logic.Function.Basic

/-!
# The slots of communicators

`SharedStateManager::userReadyCommSlot` gives every communicator hash a slot of the shared state:
it probes the slots from `comm_hash` on and takes the first one that is free or carries the hash.
`releaseUserReadyCommSlot` gives up one reference, and the last one frees the slot.  Each probe and
each release is one critical section under the lock of its slot, so one step here; between two
probes of one call anything may happen.

* `firstOrSame` — a probe finds a free slot only while its hash is in no other slot.
* `slots_consistent_iff` — the ranks of each communicator are in one slot, and those of two
  communicators in two, just if all probes meet that.
* `slot_split` — a slot freed between the claims of two ranks of one communicator.
-/

namespace HyLink
namespace Ascend
namespace CommSlots

open Theory

/-- `PCCL_MAX_CONCURRENT_COMMS` -/
def maxConcurrentComms : ℕ := 32

/-- The hash of a communicator: a `uint64_t` other than zero. -/
structure CommHash where
  value : ℕ
  pos : 0 < value
  lt : value < 2 ^ 64
  deriving DecidableEq

/-- One byte goes into the hash. -/
def hashByte (h c : ℕ) : ℕ := (h ^^^ c) * 1099511628211 % 2 ^ 64

/-- The bytes of a key go into the hash one by one. -/
def hashBytes (h : ℕ) (bytes : List ℕ) : ℕ := bytes.foldl hashByte h

theorem hashBytes_lt {h : ℕ} (hlt : h < 2 ^ 64) (bytes : List ℕ) : hashBytes h bytes < 2 ^ 64 := by
  unfold hashBytes
  induction bytes generalizing h with
  | nil => exact hlt
  | cons c bytes ih => exact ih (Nat.mod_lt _ (by decide))

/-- The four bytes of `nranks`, the lowest first. -/
def ranksBytes (nranks : ℕ) : List ℕ := [0, 8, 16, 24].map fun shift => nranks / 2 ^ shift % 256

/-- `hashCommKey`: `id` are the bytes of the unique id. -/
def hashCommKey (id : List UInt8) (nranks : ℕ) : CommHash :=
  let h := hashBytes 1469598103934665603 (id.map UInt8.toNat ++ ranksBytes nranks)
  if hz : h = 0 then ⟨1, Nat.one_pos, by decide⟩
  else ⟨h, Nat.pos_of_ne_zero hz, hashBytes_lt (by decide) _⟩

/-- `user_ready_comm_hash` and `user_ready_comm_refcount` -/
structure Words where
  hash : ℕ → ℕ
  refcount : ℕ → ℤ

/-- What `fetch_add` leaves in an `atomic<int>`. -/
def wrapInt (x : ℤ) : ℤ := Int.bmod x (2 ^ 32)

/-- The hash zero stands for a free slot. -/
def storedHash (commHash : ℕ) : ℕ := if commHash = 0 then 1 else commHash

/-- The slot of an attempt. -/
def probeIdx (commHash attempt : ℕ) : ℕ := (commHash + attempt) % 2 ^ 64 % maxConcurrentComms

/-- The critical section of an attempt: the words after it if the slot is taken. -/
def Words.take (w : Words) (commHash idx : ℕ) : Option Words :=
  let current := w.hash idx
  if current = 0 ∨ current = commHash then
    let w := if current = 0 then
      { w with
        hash := Function.update w.hash idx commHash
        refcount := Function.update w.refcount idx 0 }
      else w
    some { w with refcount := Function.update w.refcount idx (wrapInt (w.refcount idx + 1)) }
  else none

/-- `releaseUserReadyCommSlot`: the words after it if it returns `true`. -/
def Words.release (w : Words) (commId : ℤ) (commHash : ℕ) : Option Words :=
  let commHash := storedHash commHash
  if commId < 0 ∨ (maxConcurrentComms : ℤ) ≤ commId then none
  else
    let idx := commId.toNat
    if w.hash idx ≠ commHash then none
    else if w.refcount idx ≤ 0 then none
    else
      let remaining := w.refcount idx - 1
      let w := { w with refcount := Function.update w.refcount idx remaining }
      if remaining = 0 then
        some { w with
          refcount := Function.update w.refcount idx 0
          hash := Function.update w.hash idx 0 }
      else some w

/-- The slot `barrier`, `chunkState` and the ready words are addressed by. -/
def commIndex (commId : ℤ) : ℕ :=
  if 0 ≤ commId ∧ commId < maxConcurrentComms then commId.toNat else 0

/-! ## Calls by any number of ranks -/

/-- A call of `userReadyCommSlot` before its next attempt. -/
structure Claim where
  hash : CommHash
  attempt : ℕ
  deriving DecidableEq

/-- A rank whose call returned the slot. -/
structure Holder where
  hash : CommHash
  slot : ℕ
  deriving DecidableEq

structure State where
  words : Words
  claims : List Claim
  holders : List Holder

def initial : State := ⟨⟨fun _ => 0, fun _ => 0⟩, [], []⟩

/-- The calls and their steps. -/
inductive Label where
  /-- A rank calls `userReadyCommSlot`. -/
  | claim (hash : CommHash)
  /-- A call makes its next attempt, or returns `-1` after the last one. -/
  | probe (call : ℕ)
  /-- A rank calls `releaseUserReadyCommSlot`. -/
  | release (commId : ℤ) (hash : CommHash)

/-- A call makes its next attempt. -/
def probe (s : State) (call : ℕ) (c : Claim) : State :=
  if maxConcurrentComms * 2 ≤ c.attempt then { s with claims := s.claims.eraseIdx call }
  else
    let commHash := storedHash c.hash.value
    let idx := probeIdx commHash c.attempt
    match s.words.take commHash idx with
    | some words =>
      { words := words
        claims := s.claims.eraseIdx call
        holders := s.holders ++ [⟨c.hash, idx⟩] }
    | none => { s with claims := s.claims.set call { c with attempt := c.attempt + 1 } }

def step (s : State) : Label → Option State
  | .claim hash => some { s with claims := s.claims ++ [⟨hash, 0⟩] }
  | .probe call => (s.claims[call]?).map (probe s call)
  | .release commId hash =>
    match s.words.release commId hash.value with
    | some words => some { s with words := words, holders := s.holders.erase ⟨hash, commId.toNat⟩ }
    | none => some s

def machine : Machine State Label := ⟨step⟩

/-- No slot has as many holders as an `int` can count; `nranks` is one. -/
def countable (s : State) : Label → Bool
  | .probe _ => decide (s.holders.length + 1 < 2 ^ 31)
  | _ => true

/-- **The condition on a probe.**  A free slot is taken only while the hash is in no other. -/
def firstOrSame (s : State) : Label → Bool
  | .probe call =>
    match s.claims[call]? with
    | some c =>
      let commHash := storedHash c.hash.value
      decide (maxConcurrentComms * 2 ≤ c.attempt) ||
        !decide (s.words.hash (probeIdx commHash c.attempt) = 0) ||
        (List.range maxConcurrentComms).all fun i => decide (s.words.hash i ≠ commHash)
    | none => true
  | _ => true

/-- The holders of one hash are in one slot, those of two in two. -/
def Consistent (s : State) : Prop :=
  ∀ a ∈ s.holders, ∀ b ∈ s.holders, a.hash = b.hash ↔ commIndex a.slot = commIndex b.slot

/-! ## What a slot stores -/

theorem CommHash.storedHash_eq (h : CommHash) : storedHash h.value = h.value :=
  if_neg h.pos.ne'

theorem CommHash.eq_of_value {a b : CommHash} (h : a.value = b.value) : a = b := by
  cases a
  cases b
  cases h
  rfl

theorem probeIdx_lt (commHash attempt : ℕ) : probeIdx commHash attempt < maxConcurrentComms :=
  Nat.mod_lt _ (by decide)

theorem commIndex_of_lt {i : ℕ} (h : i < maxConcurrentComms) : commIndex i = i := by
  unfold commIndex
  rw [if_pos ⟨Int.natCast_nonneg i, by exact_mod_cast h⟩]
  rfl

/-- The holders of a slot. -/
def State.heldBy (s : State) (i : ℕ) : ℕ := s.holders.countP fun a => a.slot = i

/-- The words say who holds the slots, and no hash is in two of them. -/
structure Sound (s : State) : Prop where
  slot_lt : ∀ a ∈ s.holders, a.slot < maxConcurrentComms
  stored : ∀ a ∈ s.holders, s.words.hash a.slot = a.hash.value
  count : ∀ i, s.words.hash i ≠ 0 → s.words.refcount i = s.heldBy i
  held : ∀ i, s.words.hash i ≠ 0 → ∃ a ∈ s.holders, a.slot = i
  unique : ∀ i j, s.words.hash i ≠ 0 → s.words.hash i = s.words.hash j → i = j

theorem Sound.initial : Sound initial := by
  refine ⟨?_, ?_, ?_, ?_, ?_⟩
  · intro a ha
    cases ha
  · intro a ha
    cases ha
  · intro i hi
    exact absurd rfl hi
  · intro i hi
    exact absurd rfl hi
  · intro i j hi
    exact absurd rfl hi

/-- **Sound words keep communicators apart.** -/
theorem Sound.consistent {s : State} (hs : Sound s) : Consistent s := by
  intro a ha b hb
  rw [commIndex_of_lt (hs.slot_lt a ha), commIndex_of_lt (hs.slot_lt b hb)]
  constructor
  · intro hab
    refine hs.unique _ _ ?_ ?_
    · rw [hs.stored a ha]
      exact a.hash.pos.ne'
    · rw [hs.stored a ha, hs.stored b hb, hab]
  · intro hab
    apply CommHash.eq_of_value
    rw [← hs.stored a ha, ← hs.stored b hb, hab]

/-- A free slot has no holder. -/
theorem Sound.heldBy_free {s : State} (hs : Sound s) {i : ℕ} (hi : s.words.hash i = 0) :
    s.heldBy i = 0 := by
  unfold State.heldBy
  rw [List.countP_eq_zero]
  intro a ha hslot
  have hstored := hs.stored a ha
  rw [of_decide_eq_true hslot, hi] at hstored
  exact a.hash.pos.ne hstored

theorem wrapInt_of_lt {x : ℤ} (h0 : 0 ≤ x) (h : x < 2 ^ 31) : wrapInt x = x := by
  unfold wrapInt Int.bmod
  dsimp only
  split <;> omega

/-- What taking a slot leaves in its words. -/
theorem Words.take_spec {w w' : Words} {commHash idx : ℕ} (h : w.take commHash idx = some w') :
    (w.hash idx = 0 ∨ w.hash idx = commHash) ∧ w'.hash = Function.update w.hash idx commHash ∧
      w'.refcount = Function.update w.refcount idx
        (wrapInt ((if w.hash idx = 0 then 0 else w.refcount idx) + 1)) := by
  unfold Words.take at h
  by_cases h0 : w.hash idx = 0
  · simp only [h0, true_or, if_true, Option.some.injEq] at h
    subst h
    exact ⟨.inl h0, rfl, by simp [h0]⟩
  · by_cases hsame : w.hash idx = commHash
    · subst hsame
      simp only [or_true, if_true, if_neg h0, Option.some.injEq] at h
      subst h
      refine ⟨.inr rfl, ?_, ?_⟩
      · rw [Function.update_eq_self]
      · rw [if_neg h0]
    · simp [h0, hsame] at h

/-- What giving up a reference leaves in the words. -/
theorem Words.release_spec {w w' : Words} {commId : ℤ} {commHash : ℕ}
    (h : w.release commId commHash = some w') :
    w.hash commId.toNat = storedHash commHash ∧ 0 < w.refcount commId.toNat ∧
      w'.refcount = Function.update w.refcount commId.toNat (w.refcount commId.toNat - 1) ∧
      w'.hash = if w.refcount commId.toNat = 1 then Function.update w.hash commId.toNat 0
        else w.hash := by
  unfold Words.release at h
  split at h
  · cases h
  · dsimp only at h
    split at h
    · cases h
    · rename_i hhash
      split at h
      · cases h
      · rename_i href
        refine ⟨of_not_not hhash, not_le.1 href, ?_⟩
        by_cases hlast : w.refcount commId.toNat - 1 = 0
        · rw [if_pos hlast] at h
          cases h
          rw [if_pos (by omega), hlast]
          exact ⟨Function.update_idem _ _ _, rfl⟩
        · rw [if_neg hlast] at h
          cases h
          rw [if_neg (by omega)]
          exact ⟨rfl, rfl⟩

/-! ## One step -/

theorem heldBy_append (s : State) (words : Words) (claims : List Claim) (a : Holder) (i : ℕ) :
    State.heldBy ⟨words, claims, s.holders ++ [a]⟩ i =
      s.heldBy i + if a.slot = i then 1 else 0 := by
  unfold State.heldBy
  rw [List.countP_append, List.countP_singleton]
  by_cases h : a.slot = i <;> simp [h]

/-- **A rank takes a slot,** a free one only while its hash is in no other. -/
theorem Sound.take {s : State} (hs : Sound s) {hash : CommHash} {idx : ℕ} {words : Words}
    {claims : List Claim} (hidx : idx < maxConcurrentComms)
    (htake : s.words.take hash.value idx = some words)
    (hcount : s.holders.length + 1 < 2 ^ 31)
    (hfirst : s.words.hash idx = 0 → ∀ i, s.words.hash i ≠ hash.value) :
    Sound ⟨words, claims, s.holders ++ [⟨hash, idx⟩]⟩ := by
  obtain ⟨hold, hhash, href⟩ := Words.take_spec htake
  have hmem : ∀ {a : Holder}, a ∈ s.holders ++ [⟨hash, idx⟩] → a ∈ s.holders ∨ a = ⟨hash, idx⟩ := by
    intro a ha
    rcases List.mem_append.1 ha with ha | ha
    · exact .inl ha
    · exact .inr (List.mem_singleton.1 ha)
  refine ⟨?_, ?_, ?_, ?_, ?_⟩
  · intro a ha
    rcases hmem ha with ha | rfl
    · exact hs.slot_lt a ha
    · exact hidx
  · intro a ha
    show words.hash a.slot = _
    rw [hhash]
    rcases hmem ha with ha | rfl
    · by_cases hslot : a.slot = idx
      · have hstored := hs.stored a ha
        rw [hslot] at hstored ⊢
        have hne : s.words.hash idx ≠ 0 := by
          rw [hstored]
          exact a.hash.pos.ne'
        rw [Function.update_self, ← hold.resolve_left hne, hstored]
      · rw [Function.update_of_ne hslot]
        exact hs.stored a ha
    · exact Function.update_self _ _ _
  · intro i hi
    change words.hash i ≠ 0 at hi
    show words.refcount i = _
    rw [heldBy_append, href]
    by_cases hslot : i = idx
    · subst hslot
      have hheld : (if s.words.hash i = 0 then 0 else s.words.refcount i) = s.heldBy i := by
        by_cases h0 : s.words.hash i = 0
        · rw [if_pos h0, hs.heldBy_free h0]
          rfl
        · rw [if_neg h0]
          exact hs.count i h0
      have hle : s.heldBy i ≤ s.holders.length := List.countP_le_length
      rw [Function.update_self, hheld, if_pos rfl, wrapInt_of_lt (by omega) (by omega)]
      push_cast
      rfl
    · rw [hhash, Function.update_of_ne hslot] at hi
      rw [Function.update_of_ne hslot, if_neg (Ne.symm hslot)]
      exact hs.count i hi
  · intro i hi
    change words.hash i ≠ 0 at hi
    by_cases hslot : i = idx
    · exact ⟨⟨hash, idx⟩, List.mem_append_right _ List.mem_cons_self, hslot.symm⟩
    · rw [hhash, Function.update_of_ne hslot] at hi
      obtain ⟨a, ha, hai⟩ := hs.held i hi
      exact ⟨a, List.mem_append_left _ ha, hai⟩
  · -- the hash of the slot was in it already, or in none
    have honly : ∀ i, i ≠ idx → s.words.hash i ≠ hash.value := by
      intro i hne heq
      rcases hold with h0 | hsame
      · exact hfirst h0 i heq
      · refine hne (hs.unique i idx ?_ (heq.trans hsame.symm))
        rw [heq]
        exact hash.pos.ne'
    intro i j hi hij
    change words.hash i ≠ 0 at hi
    change words.hash i = words.hash j at hij
    rw [hhash] at hi hij
    by_cases hii : i = idx
    · by_cases hjj : j = idx
      · rw [hii, hjj]
      · rw [hii, Function.update_self, Function.update_of_ne hjj] at hij
        exact absurd hij.symm (honly j hjj)
    · rw [Function.update_of_ne hii] at hi hij
      by_cases hjj : j = idx
      · rw [hjj, Function.update_self] at hij
        exact absurd hij (honly i hii)
      · rw [Function.update_of_ne hjj] at hij
        exact hs.unique i j hi hij

theorem heldBy_erase {s : State} {a : Holder} (ha : a ∈ s.holders) (words : Words) (i : ℕ) :
    State.heldBy { s with words := words, holders := s.holders.erase a } i =
      s.heldBy i - if a.slot = i then 1 else 0 := by
  unfold State.heldBy
  rw [List.countP_erase]
  by_cases h : a.slot = i <;> simp [h, ha]

/-- **A rank gives up its reference.** -/
theorem Sound.release {s : State} (hs : Sound s) {commId : ℤ} {hash : CommHash} {words : Words}
    (hrelease : s.words.release commId hash.value = some words) :
    Sound { s with words := words, holders := s.holders.erase ⟨hash, commId.toNat⟩ } := by
  obtain ⟨hcur, hpos, href, hhash⟩ := Words.release_spec hrelease
  rw [hash.storedHash_eq] at hcur
  generalize commId.toNat = idx at *
  have hne : s.words.hash idx ≠ 0 := by
    rw [hcur]
    exact hash.pos.ne'
  have hcount := hs.count idx hne
  -- whoever holds the slot holds it for this hash
  have hmem : (⟨hash, idx⟩ : Holder) ∈ s.holders := by
    obtain ⟨⟨h, slot⟩, ha, rfl⟩ := hs.held idx hne
    have hstored := hs.stored _ ha
    obtain rfl : hash = h := CommHash.eq_of_value (hcur.symm.trans hstored)
    exact ha
  have hsame : ∀ i, words.hash i ≠ 0 → words.hash i = s.words.hash i := by
    intro i hi
    rw [hhash] at hi ⊢
    by_cases hlast : s.words.refcount idx = 1
    · rw [if_pos hlast] at hi ⊢
      by_cases hslot : i = idx
      · rw [hslot, Function.update_self] at hi
        exact absurd rfl hi
      · rw [Function.update_of_ne hslot]
    · rw [if_neg hlast]
  have hmore : ∀ i, words.hash i ≠ 0 → i = idx → 1 < s.heldBy idx := by
    rintro i hi rfl
    rw [hhash] at hi
    by_cases hlast : s.words.refcount i = 1
    · rw [if_pos hlast, Function.update_self] at hi
      exact absurd rfl hi
    · omega
  have hkept : ∀ i, words.hash i ≠ 0 → ∃ a ∈ s.holders.erase ⟨hash, idx⟩, a.slot = i := by
    intro i hi
    by_cases hslot : i = idx
    · have htwo := hmore i hi hslot
      have hleft := heldBy_erase hmem words idx
      rw [if_pos rfl] at hleft
      have hpos' : 0 < (s.holders.erase ⟨hash, idx⟩).countP fun a => a.slot = idx := by
        change 0 < State.heldBy { s with words := words, holders := s.holders.erase ⟨hash, idx⟩ } idx
        omega
      obtain ⟨a, ha, hai⟩ := List.countP_pos_iff.1 hpos'
      exact ⟨a, ha, (of_decide_eq_true hai).trans hslot.symm⟩
    · obtain ⟨a, ha, hai⟩ := hs.held i (hsame i hi ▸ hi)
      refine ⟨a, (List.mem_erase_of_ne ?_).2 ha, hai⟩
      rintro rfl
      exact hslot hai.symm
  refine ⟨fun a ha => hs.slot_lt a (List.mem_of_mem_erase ha), ?_, ?_, hkept, ?_⟩
  · intro a ha
    have hstored := hs.stored a (List.mem_of_mem_erase ha)
    show words.hash a.slot = _
    rw [hhash]
    by_cases hlast : s.words.refcount idx = 1
    · rw [if_pos hlast]
      have hslot : a.slot ≠ idx := by
        intro hslot
        have hleft := heldBy_erase hmem words idx
        rw [if_pos rfl] at hleft
        have hpos' : 0 < (s.holders.erase ⟨hash, idx⟩).countP fun a => a.slot = idx :=
          List.countP_pos_iff.2 ⟨a, ha, decide_eq_true hslot⟩
        change 0 < State.heldBy { s with words := words, holders := s.holders.erase ⟨hash, idx⟩ } idx
          at hpos'
        omega
      rw [Function.update_of_ne hslot]
      exact hstored
    · rw [if_neg hlast]
      exact hstored
  · intro i hi
    change words.hash i ≠ 0 at hi
    show words.refcount i = _
    rw [heldBy_erase hmem, href]
    by_cases hslot : i = idx
    · have htwo := hmore i hi hslot
      rw [hslot, Function.update_self, if_pos rfl, hcount]
      omega
    · rw [Function.update_of_ne hslot, if_neg (Ne.symm hslot)]
      exact hs.count i (hsame i hi ▸ hi)
  · intro i j hi hij
    change words.hash i ≠ 0 at hi
    change words.hash i = words.hash j at hij
    have hj : words.hash j ≠ 0 := hij ▸ hi
    exact hs.unique i j (hsame i hi ▸ hi) ((hsame i hi).symm.trans (hij.trans (hsame j hj)))

/-- A slot is in use by a hash only if it is one of the slots. -/
theorem Sound.lt_of_hash {s : State} (hs : Sound s) {i : ℕ} (hi : s.words.hash i ≠ 0) :
    i < maxConcurrentComms := by
  obtain ⟨a, ha, rfl⟩ := hs.held i hi
  exact hs.slot_lt a ha

/-- Calls in progress do not matter. -/
theorem Sound.of_claims {s : State} (hs : Sound s) (claims : List Claim) :
    Sound { s with claims := claims } :=
  ⟨hs.slot_lt, hs.stored, hs.count, hs.held, hs.unique⟩

/-- **A step that meets the condition keeps the words sound.** -/
theorem Sound.step {s s' : State} {l : Label} (hs : Sound s) (hcount : countable s l = true)
    (hguard : firstOrSame s l = true) (h : step s l = some s') : Sound s' := by
  cases l with
  | claim hash =>
    cases h
    exact hs.of_claims _
  | probe call =>
    obtain ⟨c, hc, rfl⟩ := Option.map_eq_some_iff.1 h
    simp only [firstOrSame, hc, Bool.or_eq_true, decide_eq_true_eq, Bool.not_eq_true',
      decide_eq_false_iff_not, List.all_eq_true, List.mem_range] at hguard
    unfold probe
    split
    · exact hs.of_claims _
    · rename_i hattempt
      dsimp only
      split
      · rename_i words htake
        rw [c.hash.storedHash_eq] at htake
        rw [c.hash.storedHash_eq] at hguard ⊢
        refine hs.take (probeIdx_lt _ _) htake (of_decide_eq_true hcount) ?_
        intro h0 i heq
        have hne : s.words.hash i ≠ 0 := by
          rw [heq]
          exact c.hash.pos.ne'
        rcases hguard with (hdone | hbusy) | hnone
        · exact hattempt hdone
        · exact hbusy h0
        · exact hnone i (hs.lt_of_hash hne) heq
      · exact hs.of_claims _
  | release commId hash =>
    simp only [CommSlots.step] at h
    split at h
    · rename_i words hrelease
      cases h
      exact hs.release hrelease
    · cases h
      exact hs

/-- **A step that does not meet the condition splits a communicator.** -/
theorem Sound.split {s s' : State} {l : Label} (hs : Sound s) (h : CommSlots.step s l = some s')
    (hcons : Consistent s') : firstOrSame s l = true := by
  cases l with
  | claim hash => rfl
  | release commId hash => rfl
  | probe call =>
    obtain ⟨c, hc, rfl⟩ := Option.map_eq_some_iff.1 h
    by_contra hguard
    simp only [firstOrSame, hc, Bool.or_eq_true, decide_eq_true_eq, Bool.not_eq_true',
      decide_eq_false_iff_not, List.all_eq_true, List.mem_range, not_or, not_forall,
      not_not] at hguard
    obtain ⟨⟨hattempt, hfree⟩, i, hi, heq⟩ := hguard
    rw [c.hash.storedHash_eq] at hfree heq
    have hne : s.words.hash i ≠ 0 := by
      rw [heq]
      exact c.hash.pos.ne'
    -- a holder of the hash is in another slot than the one that is free
    obtain ⟨a, ha, rfl⟩ := hs.held i hne
    have hhash : a.hash = c.hash := CommHash.eq_of_value ((hs.stored a ha).symm.trans heq)
    have hslot : a.slot ≠ probeIdx c.hash.value c.attempt := by
      intro hslot
      rw [hslot] at hne
      exact hne hfree
    unfold probe Words.take at hcons
    simp only [if_neg hattempt, c.hash.storedHash_eq, hfree, true_or, if_true] at hcons
    have hsame := (hcons a (List.mem_append_left _ ha) ⟨c.hash, probeIdx c.hash.value c.attempt⟩
      (List.mem_append_right _ List.mem_cons_self)).1 hhash
    rw [commIndex_of_lt hi, commIndex_of_lt (probeIdx_lt _ _)] at hsame
    exact hslot hsame

/-! ## Every run -/

/-- **Where a communicator stays in one slot.**  In a run of calls by any number of ranks, the
holders of one hash are in one slot and those of two in two, in every state, just if every probe
that finds a free slot is one of a hash that no slot carries. -/
theorem slots_consistent_iff {labels : List Label} {s : State}
    (hrun : machine.runFrom countable initial labels = some s) :
    (∀ pre, pre <+: labels → ∀ t, machine.runFrom countable initial pre = some t →
      Consistent t) ↔
      machine.runFrom (fun s l => countable s l && firstOrSame s l) initial labels = some s :=
  machine.throughout_iff (I := Sound)
    (fun _ _ _ hs hcount hguard h => hs.step hcount hguard h)
    (fun _ hs => hs.consistent) (fun _ _ _ hs _ h hcons => hs.split h hcons) Sound.initial hrun

/-! ## A slot freed between two claims -/

/-- A hash whose first slot is slot 5. -/
def hash5 : CommHash := ⟨5, by decide, by decide⟩

/-- Another one. -/
def hash37 : CommHash := ⟨37, by decide, by decide⟩

/-- Two ranks of one communicator claim, one releases, and another one claims. -/
theorem slots_consistent_two : ∃ s,
    machine.runFrom countable initial
      [.claim hash37, .claim hash37, .probe 0, .probe 0, .release 5 hash37, .claim hash5,
        .probe 0, .probe 0] = some s ∧
      s.holders = [⟨hash37, 5⟩, ⟨hash5, 6⟩] ∧ Consistent s := by
  have hobs : (machine.runFrom (fun s l => countable s l && firstOrSame s l) initial
      [.claim hash37, .claim hash37, .probe 0, .probe 0, .release 5 hash37, .claim hash5,
        .probe 0, .probe 0]).map State.holders = some [⟨hash37, 5⟩, ⟨hash5, 6⟩] := by decide
  obtain ⟨s, hboth, hholders⟩ := Option.map_eq_some_iff.1 hobs
  have hrun := machine.runFrom_mono (Q := countable)
    (fun s l h => (Bool.and_eq_true_iff.1 h).1) hboth
  exact ⟨s, hrun, hholders, (slots_consistent_iff hrun).2 hboth _ List.prefix_rfl _ hrun⟩

/-- The first rank of a communicator finds slot 5 taken, then slot 5 is freed. -/
def freedBetween : List Label :=
  [.claim hash5, .probe 0, .claim hash37, .probe 0, .probe 0, .release 5 hash5, .claim hash37,
    .probe 0]

/-- **Two ranks of one communicator are in two slots.** -/
theorem slot_split : ¬ ∀ labels s, machine.runFrom countable initial labels = some s →
    Consistent s := by
  intro hall
  have hobs : (machine.runFrom countable initial freedBetween).map State.holders =
      some [⟨hash37, 6⟩, ⟨hash37, 5⟩] := by decide
  obtain ⟨s, hrun, hholders⟩ := Option.map_eq_some_iff.1 hobs
  have hcons := hall _ s hrun
  have hsame := (hcons ⟨hash37, 6⟩ (by simp [hholders]) ⟨hash37, 5⟩ (by simp [hholders])).1 rfl
  revert hsame
  decide

end CommSlots
end Ascend
end HyLink
