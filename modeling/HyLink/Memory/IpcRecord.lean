import HyLink.Theory.Machine
import HyLink.Theory.Replay

/-!
# The record of a device buffer

A record of several words with a sequence word, which is odd while its one writer rewrites the
words.  `publishDeviceIpcBuffer` and `readDeviceIpcBuffer` access one word a step, and a byte of the
handle is a word of its own; publications and reads may overlap in any way.

* `Publication.writes` — the writes of a publication, in order.
* `step` — a write, or a load of one of the readers.
* `record_whole` — a read that reports success returns one published record.
-/

namespace HyLink
namespace Memory
namespace IpcRecord

open Theory

/-- `DEVICE_IPC_HANDLE_BYTES` -/
def deviceIpcHandleBytes : ℕ := 64

inductive Word
  | baseAddr
  | offset
  | size
  | handle (i : ℕ)
  deriving DecidableEq, Repr

/-- The words of a record, in the order in which they are loaded. -/
def recordWords : List Word :=
  [.baseAddr, .offset, .size] ++ (List.range deviceIpcHandleBytes).map .handle

/-- What `publishDeviceIpcBuffer` is called with; a longer handle is rejected. -/
structure Publication where
  baseAddr : ℕ
  offset : ℕ
  size : ℕ
  handle : List ℕ
  fits : handle.length ≤ deviceIpcHandleBytes

namespace Publication

/-- The record that is published: the handle is filled up with zeros. -/
def content (p : Publication) : Word → ℕ
  | .baseAddr => p.baseAddr
  | .offset => p.offset
  | .size => p.size
  | .handle i => p.handle.getD i 0

/-- The stores to the words, `memset` and `memcpy` byte for byte. -/
def writes (p : Publication) : List (Word × ℕ) :=
  [(.baseAddr, p.baseAddr), (.offset, p.offset), (.size, p.size)] ++
    (List.range deviceIpcHandleBytes).map (fun i => (.handle i, 0)) ++
    (List.range p.handle.length).map fun i => (.handle i, p.handle.getD i 0)

end Publication

/-- The words after some writes. -/
def store (memory : Word → ℕ) (writes : List (Word × ℕ)) : Word → ℕ :=
  replay Prod.fst (fun w _ => w.2) memory writes

/-- A call of `readDeviceIpcBuffer`. -/
inductive Reader
  | idle
  /-- Before it loads `seq`. -/
  | attempt (n : ℕ)
  /-- It loads the words; `tmp` has those it has loaded. -/
  | loading (n seq : ℕ) (rest : List Word) (tmp : Word → ℕ)
  /-- The call is over, with the record it returns if it reports success. -/
  | returned (record : Option (Word → ℕ))

structure State where
  seq : ℕ
  memory : Word → ℕ
  /-- The writes the publication under way has still to do. -/
  pending : Option (List (Word × ℕ))
  /-- The publications, the last one perhaps under way. -/
  published : List Publication
  reader : ℕ → Reader

def State.initial : State := ⟨0, fun _ => 0, none, [], fun _ => .idle⟩

inductive Label
  /-- `seq` becomes odd. -/
  | publish (p : Publication)
  | write
  /-- `seq` becomes even. -/
  | finish
  | read (r : ℕ)
  /-- The next load of a reader. -/
  | load (r : ℕ)

/-- The next attempt of a reader, or its return after the last one. -/
def nextAttempt (n : ℕ) : Reader := if n + 1 < 1000 then .attempt (n + 1) else .returned none

/-- The next load of a reader. -/
def load (s : State) : Reader → Option Reader
  | .attempt n =>
    if s.seq = 0 ∨ s.seq % 2 ≠ 0 then some (nextAttempt n)
    else some (.loading n s.seq recordWords fun _ => 0)
  | .loading n seq (w :: rest) tmp =>
    some (.loading n seq rest (Function.update tmp w (s.memory w)))
  | .loading n seq [] tmp =>
    if seq = s.seq ∧ s.seq % 2 = 0 then
      some (.returned (if tmp .baseAddr ≠ 0 ∧ tmp .size ≠ 0 then some tmp else none))
    else some (nextAttempt n)
  | _ => none

def step (s : State) : Label → Option State
  | .publish p =>
    match s.pending with
    | none =>
      let seq := if s.seq % 2 ≠ 0 then s.seq + 1 else s.seq
      some { s with
        seq := seq + 1, pending := some p.writes, published := s.published ++ [p] }
    | some _ => none
  | .write =>
    match s.pending with
    | some (w :: rest) =>
      some { s with memory := Function.update s.memory w.1 w.2, pending := some rest }
    | _ => none
  | .finish =>
    match s.pending with
    | some [] => some { s with seq := s.seq + 1, pending := none }
    | _ => none
  | .read r =>
    match s.reader r with
    | .idle | .returned _ => some { s with reader := Function.update s.reader r (.attempt 0) }
    | _ => none
  | .load r => (load s (s.reader r)).map fun x => { s with reader := Function.update s.reader r x }

def machine : Machine State Label := ⟨step⟩

/-- What a read that reports success returns is one published record, word for word. -/
def Whole (s : State) : Prop :=
  ∀ r tmp, s.reader r = .returned (some tmp) →
    ∃ p ∈ s.published, ∀ w ∈ recordWords, tmp w = p.content w

/-! ## The words of a record -/

theorem store_cons (memory : Word → ℕ) (w : Word × ℕ) (rest : List (Word × ℕ)) :
    store memory (w :: rest) = store (Function.update memory w.1 w.2) rest := rfl

theorem mem_recordWords {w : Word} :
    w ∈ recordWords ↔ ∀ i, w = .handle i → i < deviceIpcHandleBytes := by
  unfold recordWords
  cases w <;> simp

/-- The writes at one word of a part of the handle. -/
theorem store_handle (memory : Word → ℕ) (f : ℕ → ℕ) (n : ℕ) (w : Word) :
    store memory ((List.range n).map fun i => (.handle i, f i)) w =
      match w with
      | .handle i => if i < n then f i else memory w
      | _ => memory w := by
  induction n with
  | zero =>
    cases w <;> rfl
  | succ n ih =>
    unfold store at ih ⊢
    rw [List.range_succ, List.map_append, List.map_singleton, replay_snoc]
    cases w with
    | handle i =>
      by_cases hi : i = n
      · subst hi
        simp
      · rw [Function.update_of_ne (by simpa using hi), ih]
        simp only [Nat.lt_succ_iff_lt_or_eq, hi, or_false]
    | baseAddr | offset | size =>
      rw [Function.update_of_ne (by simp), ih]

/-- **The writes of a publication** leave its record. -/
theorem store_writes (p : Publication) (memory : Word → ℕ) {w : Word} (hw : w ∈ recordWords) :
    store memory p.writes w = p.content w := by
  unfold Publication.writes
  rw [store, replay_append, replay_append]
  refine (store_handle _ (fun i => p.handle.getD i 0) _ w).trans ?_
  have hzero := store_handle (replay Prod.fst (fun (w : Word × ℕ) (_ : ℕ) => w.2) memory
    [(.baseAddr, p.baseAddr), (.offset, p.offset), (.size, p.size)]) (fun _ => 0)
    deviceIpcHandleBytes w
  cases w with
  | handle i =>
    have hi := mem_recordWords.1 hw i rfl
    simp only [Publication.content]
    by_cases hlt : i < p.handle.length
    · rw [if_pos hlt]
    · rw [if_neg hlt]
      refine hzero.trans ?_
      simp only [if_pos hi]
      rw [List.getD_eq_getElem?_getD, List.getElem?_eq_none (Nat.le_of_not_lt hlt)]
      rfl
  | baseAddr | offset | size => exact hzero.trans (by simp [replay, Publication.content])

/-! ## The sequence word -/

/-- What a reader has loaded is of the last publication, as long as the record has the sequence
number it began with. -/
def Fits (s : State) : Reader → Prop
  | .loading _ seq rest tmp => 0 < seq ∧ seq % 2 = 0 ∧ seq ≤ s.seq ∧
    (seq = s.seq → ∀ p, s.published.getLast? = some p →
      ∀ w ∈ recordWords, w ∉ rest → tmp w = p.content w)
  | .returned (some tmp) => ∃ p ∈ s.published, ∀ w ∈ recordWords, tmp w = p.content w
  | _ => True

structure Inv (s : State) : Prop where
  /-- Every publication raises the sequence number by two. -/
  seq : s.seq + (if s.pending.isSome then 1 else 0) = 2 * s.published.length
  pending : ∀ writes, s.pending = some writes → ∀ p, s.published.getLast? = some p →
    ∀ w ∈ recordWords, store s.memory writes w = p.content w
  stable : s.pending = none → ∀ p, s.published.getLast? = some p →
    ∀ w ∈ recordWords, s.memory w = p.content w
  reader : ∀ r, Fits s (s.reader r)

theorem Inv.initial : Inv State.initial where
  seq := rfl
  pending := fun _ h => nomatch h
  stable := fun _ _ h => nomatch h
  reader := fun _ => trivial

variable {s s' : State}

/-- While the sequence number is even, no publication is under way. -/
theorem Inv.pending_none (h : Inv s) (heven : s.seq % 2 = 0) : s.pending = none := by
  cases hp : s.pending with
  | none => rfl
  | some writes =>
    have hseq := h.seq
    rw [hp] at hseq
    simp only [Option.isSome_some, if_true] at hseq
    omega

/-- A reader does not see what the writer does, but for the sequence number. -/
theorem Fits.mono {x : Reader} (h : Fits s x) (hseq : s.seq ≤ s'.seq)
    (hpub : ∀ p ∈ s.published, p ∈ s'.published)
    (hsame : s'.seq = s.seq → s'.published = s.published) : Fits s' x := by
  cases x with
  | idle => trivial
  | attempt n => trivial
  | loading n seq rest tmp =>
    obtain ⟨hpos, heven, hle, hfit⟩ := h
    refine ⟨hpos, heven, hle.trans hseq, ?_⟩
    intro heq p hp
    have hback : s'.seq = s.seq := by omega
    rw [hsame hback] at hp
    exact hfit (heq.trans hback) p hp
  | returned record =>
    cases record with
    | none => trivial
    | some tmp =>
      obtain ⟨p, hp, hw⟩ := h
      exact ⟨p, hpub p hp, hw⟩

/-- **The next load of a reader.** -/
theorem Fits.load (h : Inv s) {x y : Reader} (hx : Fits s x) (hy : IpcRecord.load s x = some y) :
    Fits s y := by
  have hnext (n : ℕ) : Fits s (nextAttempt n) := by
    unfold nextAttempt
    split <;> trivial
  cases x with
  | idle => cases hy
  | returned record => cases hy
  | attempt n =>
    simp only [IpcRecord.load] at hy
    split at hy
    · cases hy
      exact hnext n
    · rename_i hodd
      cases hy
      refine ⟨by omega, by omega, le_refl _, ?_⟩
      intro _ p _ w hw hnot
      exact absurd hw hnot
  | loading n seq rest tmp =>
    obtain ⟨hpos, heven, hle, hfit⟩ := hx
    cases rest with
    | cons w rest =>
      cases hy
      refine ⟨hpos, heven, hle, ?_⟩
      intro heq p hp v hv hnot
      by_cases hvw : v = w
      · -- the word is loaded while no publication is under way
        subst hvw
        rw [Function.update_self]
        exact h.stable (h.pending_none (heq ▸ heven)) p hp v hv
      · rw [Function.update_of_ne hvw]
        refine hfit heq p hp v hv ?_
        rw [List.mem_cons, not_or]
        exact ⟨hvw, hnot⟩
    | nil =>
      simp only [IpcRecord.load] at hy
      split at hy
      · rename_i heq
        cases hy
        split
        · have hlen : s.published ≠ [] := by
            intro hnil
            have hseq := h.seq
            rw [hnil, List.length_nil] at hseq
            omega
          have hlast := List.getLast?_eq_some_getLast hlen
          refine ⟨_, List.getLast_mem hlen, ?_⟩
          exact fun w hw => hfit heq.1 _ hlast w hw List.not_mem_nil
        · trivial
      · cases hy
        exact hnext n

/-- The readers after one of them has moved. -/
theorem Inv.setReader (h : Inv s) {r : ℕ} {x : Reader} (hx : Fits s x) :
    Inv { s with reader := Function.update s.reader r x } := by
  refine ⟨h.seq, h.pending, h.stable, ?_⟩
  intro q
  have hfits : Fits s (Function.update s.reader r x q) := by
    by_cases hq : q = r
    · subst hq
      rw [Function.update_self]
      exact hx
    · rw [Function.update_of_ne hq]
      exact h.reader q
  exact hfits.mono (le_refl _) (fun _ hp => hp) fun _ => rfl

theorem Inv.step {l : Label} (h : Inv s) (hstep : IpcRecord.step s l = some s') : Inv s' := by
  cases l with
  | publish p =>
    simp only [IpcRecord.step] at hstep
    split at hstep
    · rename_i hp
      cases hstep
      have hseq := h.seq
      rw [hp] at hseq
      simp only [Option.isSome_none, Bool.false_eq_true, if_false, add_zero] at hseq
      have heven : ¬s.seq % 2 ≠ 0 := by omega
      simp only [if_neg heven]
      refine ⟨?_, ?_, (fun hnone => nomatch hnone), fun r => ?_⟩
      · simp only [Option.isSome_some, if_true, List.length_append, List.length_singleton]
        omega
      · intro writes hw q hq w hmem
        cases hw
        obtain rfl : p = q := by simpa using hq
        exact store_writes p s.memory hmem
      · refine (h.reader r).mono (Nat.le_succ _) (fun q hq => List.mem_append_left _ hq) ?_
        intro heq
        exact absurd heq (Nat.succ_ne_self _)
    · cases hstep
  | write =>
    simp only [IpcRecord.step] at hstep
    split at hstep
    · rename_i w rest hp
      cases hstep
      refine ⟨?_, ?_, (fun hnone => nomatch hnone), fun r => ?_⟩
      · have hseq := h.seq
        rw [hp] at hseq
        exact hseq
      · intro writes hw q hq v hv
        cases hw
        rw [← store_cons]
        exact h.pending _ hp q hq v hv
      · exact (h.reader r).mono (le_refl _) (fun _ hq => hq) fun _ => rfl
    · cases hstep
  | finish =>
    simp only [IpcRecord.step] at hstep
    split at hstep
    · rename_i hp
      cases hstep
      refine ⟨?_, (fun _ hw => nomatch hw), ?_, fun r => ?_⟩
      · have hseq := h.seq
        rw [hp] at hseq
        exact hseq
      · intro _ q hq w hw
        exact h.pending [] hp q hq w hw
      · exact (h.reader r).mono (Nat.le_succ _) (fun _ hq => hq) fun _ => rfl
    · cases hstep
  | read r =>
    simp only [IpcRecord.step] at hstep
    split at hstep
    · cases hstep
      exact h.setReader trivial
    · cases hstep
      exact h.setReader trivial
    · cases hstep
  | load r =>
    obtain ⟨x, hx, rfl⟩ := Option.map_eq_some_iff.1 hstep
    exact h.setReader ((h.reader r).load h hx)

/-- **A record is read whole.**  In every run of publications and reads, in any order of their
accesses, what a read that reports success returns is one published record. -/
theorem record_whole (labels : List Label) (s : State)
    (hrun : machine.runFrom Machine.anyStep State.initial labels = some s) : Whole s := by
  have h := machine.invariant (fun _ _ _ h _ hstep => Inv.step h hstep) Inv.initial hrun
  intro r tmp hr
  have := h.reader r
  rw [hr] at this
  exact this

/-- A record of a buffer, published twice while it is read. -/
def short : Publication := ⟨4096, 0, 64, [7], by decide⟩

/-- The first attempt of the read meets the second publication, the second one succeeds. -/
def republished : List Label :=
  [[.publish short], .replicate short.writes.length .write, [.finish, .read 0],
    .replicate 5 (.load 0), [.publish short, .write], .replicate 64 (.load 0),
    .replicate (short.writes.length - 1) .write, [.finish],
    .replicate (recordWords.length + 2) (.load 0)].flatten

/-- The handle a reader returned. -/
def Reader.handle : Reader → Option ℕ
  | .returned (some tmp) => some (tmp (.handle 0))
  | _ => none

theorem record_whole_republished :
    ∃ s, machine.runFrom Machine.anyStep State.initial republished = some s ∧
      (∃ tmp, s.reader 0 = .returned (some tmp) ∧ tmp (.handle 0) = 7) ∧ Whole s := by
  have hobs : (machine.runFrom Machine.anyStep State.initial republished).map
      (fun s => (s.reader 0).handle) = some (some 7) := by
    decide +kernel
  obtain ⟨s, hrun, hs⟩ := Option.map_eq_some_iff.1 hobs
  refine ⟨s, hrun, ?_, record_whole republished s hrun⟩
  unfold Reader.handle at hs
  split at hs
  · rename_i tmp hr
    exact ⟨tmp, hr, Option.some.inj hs⟩
  · cases hs

end IpcRecord
end Memory
end HyLink
