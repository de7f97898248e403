import Mathlib.Logic.Function.Basic
import Mathlib.Data.Nat.Notation
import HyLink.Theory.Machine

/-!
# The lifetime of a domain

One process: the table of domains by raw communicator, the queue of pending records, the
collective calls of its threads, and the completion callbacks of the user's streams.  A record
holds the address of its domain; an address is used again once the domain is freed.

* `Touch` — what a callback finds where it takes its domain to be.
* `callbacks_sound` — where no domain is freed that a call, a record or a callback still names,
  all callbacks find their own domain.
* `removed_touched` — a callback that is left over finds the domain freed.
* `callback_after_destroy` — a communicator that takes over the address of another.
-/

namespace HyLink
namespace Orchestrator
namespace Lifetime

open Theory

/-! ## The process -/

/-- A pointer to a domain, with the domain it was taken for and whether the staging buffer of the
domain is used with it. -/
structure Ref where
  addr : ℕ
  serial : ℕ
  recvbuf : Bool
  deriving DecidableEq, Repr

/-- `PendingCollective`; its timers are those of a call on some domain. -/
structure Record where
  stream : ℕ
  ref : Ref
  timers : Option ℕ
  deriving DecidableEq, Repr

inductive CallStage
  /-- The domain is looked up. -/
  | entered
  | registered
  | timed
  deriving DecidableEq, Repr

/-- A thread in a collective call. -/
structure InCall where
  stream : ℕ
  ref : Ref
  stage : CallStage
  deriving DecidableEq, Repr

/-- A callback that has taken its record. -/
structure Running where
  record : Record
  merged : Bool
  deriving DecidableEq, Repr

/-- What a callback finds when it uses its domain. -/
structure Touch where
  /-- The domain the record was registered for. -/
  wanted : ℕ
  /-- The domain at the address. -/
  found : Option ℕ
  /-- The staging buffer is used, and the domain still holds it. -/
  needsPcie : Bool
  pcieHeld : Bool
  /-- The domain whose times are fed. -/
  timers : Option ℕ
  deriving DecidableEq, Repr

/-- **The callback runs against its own domain**, while that exists, and feeds it its own times. -/
structure Touch.Ok (t : Touch) : Prop where
  found : t.found = some t.wanted
  pcie : t.needsPcie = true → t.pcieHeld = true
  timers : ∀ k, t.timers = some k → k = t.wanted

structure State where
  /-- The number of the next domain. -/
  next : ℕ
  /-- The domain at an address. -/
  live : ℕ → Option ℕ
  /-- `raw_to_domain_`. -/
  rawToDomain : ℕ → Option ℕ
  /-- The domain holds its PCIe resources. -/
  pcie : ℕ → Bool
  calls : List InCall
  /-- `stream_to_pending_`, all streams in one list. -/
  pending : List Record
  /-- The callbacks that are on a stream. -/
  launched : ℕ → ℕ
  running : List Running
  /-- What the callbacks have found (history). -/
  touches : List Touch

namespace State

/-- The domain of a raw communicator. -/
def domainOf (s : State) (raw : ℕ) : Option ℕ := (s.rawToDomain raw).bind s.live

/-- The memory after the domain of a raw communicator is deleted, where there is one. -/
def freed (s : State) (raw : ℕ) : ℕ → Option ℕ :=
  match s.rawToDomain raw with
  | none => s.live
  | some addr => Function.update s.live addr none

/-- All that names a domain. -/
def refs (s : State) : List Ref :=
  s.calls.map InCall.ref ++ s.pending.map Record.ref ++ s.running.map fun c => c.record.ref

def touch (s : State) (x : Record) (needsPcie : Bool) (timers : Option ℕ) : Touch :=
  ⟨x.ref.serial, s.live x.ref.addr, needsPcie, s.pcie x.ref.serial, timers⟩

end State

/-- `AttachTimersToLastStreamPending`. -/
def attachLast (stream timers : ℕ) : List Record → List Record
  | [] => []
  | x :: rest =>
    if x.stream = stream ∧ ∀ y ∈ rest, y.stream ≠ stream then
      { x with timers := some timers } :: rest
    else x :: attachLast stream timers rest

/-- The last record of a stream. -/
def lastOf (stream : ℕ) (l : List Record) : Option Record :=
  (l.filter fun x => decide (x.stream = stream)).getLast?

inductive Label
  /-- A communicator is created with a domain at an address, maybe with PCIe resources. -/
  | create (raw addr : ℕ) (pcie : Bool)
  /-- A collective call finds the domain. -/
  | call (raw stream : ℕ) (recvbuf : Bool)
  /-- `RegisterStreamPending`. -/
  | register (i : ℕ)
  | attachTimers (i : ℕ)
  /-- `EnqueueCollectiveCompletionCallback`. -/
  | launch (i : ℕ) (ok : Bool)
  /-- `DestroyPCIeForDomain`. -/
  | destroyPcie (raw : ℕ)
  | unregister (raw : ℕ)
  /-- The callback of a stream takes its record. -/
  | begin (stream : ℕ)
  | merge (stream : ℕ)
  /-- It feeds its domain, where feedback is enabled. -/
  | feed (stream : ℕ)
  deriving DecidableEq, Repr

/-- `RegisterRawComm`: the domain that was there before is deleted. -/
def create (s : State) (raw addr : ℕ) (pcie : Bool) : Option State :=
  if s.live addr = none then
    some { s with
      next := s.next + 1
      live := Function.update (s.freed raw) addr (some s.next)
      rawToDomain := Function.update s.rawToDomain raw (some addr)
      pcie := Function.update s.pcie s.next pcie }
  else none

/-- A call on a communicator with a domain. -/
def call (s : State) (raw stream : ℕ) (recvbuf : Bool) : Option State :=
  match s.rawToDomain raw with
  | none => none
  | some addr =>
    match s.live addr with
    | none => none
    | some serial =>
      if recvbuf = true → s.pcie serial = true then
        some { s with calls := s.calls ++ [⟨stream, ⟨addr, serial, recvbuf⟩, .entered⟩] }
      else none

def register (s : State) (i : ℕ) : Option State :=
  match s.calls[i]? with
  | some ⟨stream, ref, .entered⟩ =>
    some { s with
      calls := s.calls.set i ⟨stream, ref, .registered⟩
      pending := s.pending ++ [⟨stream, ref, none⟩] }
  | _ => none

def attachTimers (s : State) (i : ℕ) : Option State :=
  match s.calls[i]? with
  | some ⟨stream, ref, .registered⟩ =>
    some { s with
      calls := s.calls.set i ⟨stream, ref, .timed⟩
      pending := attachLast stream ref.serial s.pending }
  | _ => none

def launch (s : State) (i : ℕ) (ok : Bool) : Option State :=
  match s.calls[i]? with
  | some ⟨stream, _, .timed⟩ =>
    some { s with
      calls := s.calls.eraseIdx i
      launched :=
        if ok then Function.update s.launched stream (s.launched stream + 1) else s.launched }
  | _ => none

def destroyPcie (s : State) (raw : ℕ) : State :=
  match s.domainOf raw with
  | none => s
  | some serial => { s with pcie := Function.update s.pcie serial false }

def unregister (s : State) (raw : ℕ) : State :=
  { s with live := s.freed raw, rawToDomain := Function.update s.rawToDomain raw none }

/-- The callback of a stream begins when the one before has ended; it finds out whether the domain
has a controller. -/
def beginCallback (s : State) (stream : ℕ) : Option State :=
  if s.launched stream = 0 ∨ ∃ c ∈ s.running, c.record.stream = stream then none
  else
    let s := { s with launched := Function.update s.launched stream (s.launched stream - 1) }
    match s.pending.find? fun x => decide (x.stream = stream) with
    | none => some s
    | some x =>
      some { s with
        pending := s.pending.erase x
        running := s.running ++ [⟨x, false⟩]
        touches := s.touches ++ [s.touch x false none] }

/-- The callback copies from the staging buffer, where its record has one. -/
def merge (s : State) (stream : ℕ) : Option State :=
  match s.running.find? fun c => decide (c.record.stream = stream ∧ c.merged = false) with
  | none => none
  | some c =>
    some { s with
      running := s.running.erase c ++ [⟨c.record, true⟩]
      touches := s.touches ++ [s.touch c.record c.record.ref.recvbuf none] }

def feed (feedback : Bool) (s : State) (stream : ℕ) : Option State :=
  match s.running.find? fun c => decide (c.record.stream = stream ∧ c.merged = true) with
  | none => none
  | some c =>
    some { s with
      running := s.running.erase c
      touches := s.touches ++ [s.touch c.record false (if feedback then c.record.timers else none)] }

def step (feedback : Bool) (s : State) : Label → Option State
  | .create raw addr pcie => create s raw addr pcie
  | .call raw stream recvbuf => call s raw stream recvbuf
  | .register i => register s i
  | .attachTimers i => attachTimers s i
  | .launch i ok => launch s i ok
  | .destroyPcie raw => some (destroyPcie s raw)
  | .unregister raw => some (unregister s raw)
  | .begin stream => beginCallback s stream
  | .merge stream => merge s stream
  | .feed stream => feed feedback s stream

def machine (feedback : Bool) : Machine State Label := ⟨step feedback⟩

/-- No communicator is created. -/
def initial : State where
  next := 0
  live := fun _ => none
  rawToDomain := fun _ => none
  pcie := fun _ => false
  calls := []
  pending := []
  launched := fun _ => 0
  running := []
  touches := []

/-! ## When nothing is freed too early -/

/-- No call, no record and no callback names the domain of the communicator. -/
def unnamed (s : State) (raw : ℕ) : Bool :=
  s.refs.all fun x => decide (s.domainOf raw ≠ some x.serial)

/-- None that uses its staging buffer does. -/
def bufferUnnamed (s : State) (raw : ℕ) : Bool :=
  s.refs.all fun x => !x.recvbuf || decide (s.domainOf raw ≠ some x.serial)

/-- **The condition:** a domain is freed, by the destruction of its communicator or by a new
communicator with the same raw handle, only when nothing names it, and its PCIe resources when
nothing uses its buffer; and timers are attached to a record of the same domain. -/
def calm (s : State) : Label → Bool
  | .create raw _ _ | .unregister raw => unnamed s raw
  | .destroyPcie raw => bufferUnnamed s raw
  | .attachTimers i =>
    match s.calls[i]? with
    | none => true
    | some c => (lastOf c.stream s.pending).all fun x => decide (x.ref.serial = c.ref.serial)
  | _ => true

variable {s s' : State} {feedback : Bool}

/-! ## What is named is alive -/

/-- **What holds while nothing is freed too early.** -/
structure Inv (s : State) : Prop where
  lt_next : ∀ addr k, s.live addr = some k → k < s.next
  /-- What names a domain finds it at its address, with the buffer it uses. -/
  alive : ∀ x ∈ s.refs, s.live x.addr = some x.serial ∧ (x.recvbuf = true → s.pcie x.serial = true)
  pendingTimers : ∀ x ∈ s.pending, ∀ k, x.timers = some k → k = x.ref.serial
  runningTimers : ∀ c ∈ s.running, ∀ k, c.record.timers = some k → k = c.record.ref.serial
  touches : ∀ t ∈ s.touches, t.Ok

theorem mem_refs {x : Ref} : x ∈ s.refs ↔ (∃ c ∈ s.calls, c.ref = x) ∨
    (∃ y ∈ s.pending, y.ref = x) ∨ ∃ c ∈ s.running, c.record.ref = x := by
  simp [State.refs]

theorem map_ref_attachLast (stream t : ℕ) (l : List Record) :
    (attachLast stream t l).map Record.ref = l.map Record.ref := by
  induction l with
  | nil => rfl
  | cons x l ih =>
    unfold attachLast
    split
    · rfl
    · rw [List.map_cons, List.map_cons, ih]

/-- Timers are attached to the last record of the stream alone. -/
theorem mem_attachLast {stream t : ℕ} {l : List Record} {y : Record}
    (h : y ∈ attachLast stream t l) :
    y ∈ l ∨ ∃ x, lastOf stream l = some x ∧ y = { x with timers := some t } := by
  induction l with
  | nil => exact absurd h List.not_mem_nil
  | cons x l ih =>
    unfold attachLast at h
    split at h
    · next hlast =>
      rcases List.mem_cons.1 h with rfl | h
      · refine .inr ⟨x, ?_, rfl⟩
        have hrest : (l.filter fun y => decide (y.stream = stream)) = [] := by
          rw [List.filter_eq_nil_iff]
          intro y hy
          simp [hlast.2 y hy]
        rw [lastOf, List.filter_cons, if_pos (by simp [hlast.1]), hrest]
        rfl
      · exact .inl (List.mem_cons_of_mem x h)
    · next hlast =>
      rcases List.mem_cons.1 h with rfl | h
      · exact .inl List.mem_cons_self
      · rcases ih h with hmem | ⟨z, hz, rfl⟩
        · exact .inl (List.mem_cons_of_mem x hmem)
        · refine .inr ⟨z, ?_, rfl⟩
          unfold lastOf at hz ⊢
          rw [List.filter_cons]
          split
          · rw [List.getLast?_cons, hz]
            rfl
          · exact hz

/-- The domain of a raw communicator that nothing names may be freed. -/
theorem alive_freed (h : Inv s) {raw : ℕ} (hunnamed : unnamed s raw = true) {x : Ref}
    (hx : x ∈ s.refs) : s.freed raw x.addr = some x.serial := by
  have halive := (h.alive x hx).1
  unfold State.freed
  cases hraw : s.rawToDomain raw with
  | none => exact halive
  | some addr =>
    have hne : x.addr ≠ addr := by
      intro heq
      have hnot := List.all_eq_true.1 hunnamed x hx
      simp only [ne_eq, decide_not, Bool.not_eq_eq_eq_not, Bool.not_true,
        decide_eq_false_iff_not] at hnot
      apply hnot
      rw [State.domainOf, hraw, ← heq]
      exact halive
    exact (Function.update_of_ne hne _ _).trans halive

theorem freed_le {raw addr k : ℕ} (h : s.freed raw addr = some k) : s.live addr = some k := by
  unfold State.freed at h
  cases hraw : s.rawToDomain raw with
  | none =>
    rw [hraw] at h
    exact h
  | some a =>
    rw [hraw] at h
    replace h : Function.update s.live a none addr = some k := h
    by_cases heq : addr = a
    · subst heq
      rw [Function.update_self] at h
      cases h
    · rwa [Function.update_of_ne heq] at h

/-- A callback finds the domain of a record that is named. -/
theorem touch_ok (h : Inv s) {x : Record} (hx : x.ref ∈ s.refs) {needs : Bool}
    (hneeds : needs = true → x.ref.recvbuf = true) {timers : Option ℕ}
    (htimers : ∀ k, timers = some k → k = x.ref.serial) : (s.touch x needs timers).Ok :=
  ⟨(h.alive x.ref hx).1, fun hn => (h.alive x.ref hx).2 (hneeds hn), htimers⟩

/-- A step after which the same or less is named. -/
theorem Inv.of_refs (h : Inv s) (hnext : s'.next = s.next) (hlive : s'.live = s.live)
    (hpcie : s'.pcie = s.pcie) (hrefs : ∀ x ∈ s'.refs, x ∈ s.refs)
    (hpending : ∀ x ∈ s'.pending, ∀ k, x.timers = some k → k = x.ref.serial)
    (hrunning : ∀ c ∈ s'.running, ∀ k, c.record.timers = some k → k = c.record.ref.serial)
    (htouches : ∀ t ∈ s'.touches, t.Ok) : Inv s' := by
  refine ⟨?_, ?_, hpending, hrunning, htouches⟩
  · rw [hnext, hlive]
    exact h.lt_next
  · rw [hlive, hpcie]
    exact fun x hx => h.alive x (hrefs x hx)

theorem Inv.create (h : Inv s) {raw addr : ℕ} {pcie : Bool} (hcalm : unnamed s raw = true)
    (hstep : Lifetime.create s raw addr pcie = some s') : Inv s' := by
  unfold Lifetime.create at hstep
  split at hstep
  · next hfree =>
    cases hstep
    refine ⟨?_, ?_, h.pendingTimers, h.runningTimers, h.touches⟩
    · intro a k (hk : Function.update (s.freed raw) addr (some s.next) a = some k)
      show k < s.next + 1
      by_cases ha : a = addr
      · subst ha
        rw [Function.update_self] at hk
        cases hk
        omega
      · rw [Function.update_of_ne ha] at hk
        have := h.lt_next a k (freed_le hk)
        omega
    · intro x (hx : x ∈ s.refs)
      obtain ⟨halive, hbuffer⟩ := h.alive x hx
      have haddr : x.addr ≠ addr := by
        intro heq
        rw [heq, hfree] at halive
        cases halive
      have hserial : x.serial ≠ s.next := (h.lt_next _ _ halive).ne
      refine ⟨?_, fun hr => ?_⟩
      · exact (Function.update_of_ne haddr _ _).trans (alive_freed h hcalm hx)
      · exact (Function.update_of_ne hserial _ _).trans (hbuffer hr)
  · cases hstep

theorem Inv.call (h : Inv s) {raw stream : ℕ} {recvbuf : Bool}
    (hstep : Lifetime.call s raw stream recvbuf = some s') : Inv s' := by
  unfold Lifetime.call at hstep
  split at hstep
  · cases hstep
  · next addr _ =>
    split at hstep
    · cases hstep
    · next serial hserial =>
      split at hstep
      · next hbuffer =>
        cases hstep
        refine ⟨h.lt_next, ?_, h.pendingTimers, h.runningTimers, h.touches⟩
        intro x hx
        rcases mem_refs.1 hx with ⟨c, hc, rfl⟩ | hrest
        · rcases List.mem_append.1 hc with hc | hc
          · exact h.alive _ (mem_refs.2 (.inl ⟨c, hc, rfl⟩))
          · obtain rfl := List.mem_singleton.1 hc
            exact ⟨hserial, hbuffer⟩
        · exact h.alive x (mem_refs.2 (.inr hrest))
      · cases hstep

theorem Inv.register (h : Inv s) {i : ℕ} (hstep : Lifetime.register s i = some s') : Inv s' := by
  unfold Lifetime.register at hstep
  split at hstep
  · next stream ref hi =>
    cases hstep
    have hmem := List.mem_of_getElem? hi
    refine h.of_refs rfl rfl rfl ?_ ?_ h.runningTimers h.touches
    · intro x hx
      rcases mem_refs.1 hx with ⟨c, hc, rfl⟩ | ⟨y, hy, rfl⟩ | hrest
      · rcases List.mem_or_eq_of_mem_set hc with hc | rfl
        · exact mem_refs.2 (.inl ⟨c, hc, rfl⟩)
        · exact mem_refs.2 (.inl ⟨_, hmem, rfl⟩)
      · rcases List.mem_append.1 hy with hy | hy
        · exact mem_refs.2 (.inr (.inl ⟨y, hy, rfl⟩))
        · obtain rfl := List.mem_singleton.1 hy
          exact mem_refs.2 (.inl ⟨_, hmem, rfl⟩)
      · exact mem_refs.2 (.inr (.inr hrest))
    · intro x hx k hk
      rcases List.mem_append.1 hx with hx | hx
      · exact h.pendingTimers x hx k hk
      · obtain rfl := List.mem_singleton.1 hx
        cases hk
  · cases hstep

theorem Inv.attachTimers (h : Inv s) {i : ℕ} (hcalm : calm s (.attachTimers i) = true)
    (hstep : Lifetime.attachTimers s i = some s') : Inv s' := by
  unfold Lifetime.attachTimers at hstep
  split at hstep
  · next stream ref hi =>
    cases hstep
    have hmem := List.mem_of_getElem? hi
    refine h.of_refs rfl rfl rfl ?_ ?_ h.runningTimers h.touches
    · intro x hx
      rcases mem_refs.1 hx with ⟨c, hc, rfl⟩ | ⟨y, hy, rfl⟩ | hrest
      · rcases List.mem_or_eq_of_mem_set hc with hc | rfl
        · exact mem_refs.2 (.inl ⟨c, hc, rfl⟩)
        · exact mem_refs.2 (.inl ⟨_, hmem, rfl⟩)
      · have hy' : y.ref ∈ s.pending.map Record.ref := by
          rw [← map_ref_attachLast stream ref.serial]
          exact List.mem_map_of_mem hy
        obtain ⟨z, hz, hzy⟩ := List.mem_map.1 hy'
        exact mem_refs.2 (.inr (.inl ⟨z, hz, hzy⟩))
      · exact mem_refs.2 (.inr (.inr hrest))
    · intro y hy k hk
      rcases mem_attachLast hy with hy | ⟨x, hx, rfl⟩
      · exact h.pendingTimers y hy k hk
      · simp only [calm, hi, hx, Option.all_some, decide_eq_true_eq] at hcalm
        exact (Option.some.inj hk).symm.trans hcalm.symm
  · cases hstep

theorem Inv.launch (h : Inv s) {i : ℕ} {ok : Bool} (hstep : Lifetime.launch s i ok = some s') :
    Inv s' := by
  unfold Lifetime.launch at hstep
  split at hstep
  · cases hstep
    refine h.of_refs rfl rfl rfl ?_ h.pendingTimers h.runningTimers h.touches
    intro x hx
    rcases mem_refs.1 hx with ⟨c, hc, rfl⟩ | hrest
    · exact mem_refs.2 (.inl ⟨c, List.mem_of_mem_eraseIdx hc, rfl⟩)
    · exact mem_refs.2 (.inr hrest)
  · cases hstep

theorem Inv.destroyPcie (h : Inv s) {raw : ℕ} (hcalm : bufferUnnamed s raw = true) :
    Inv (Lifetime.destroyPcie s raw) := by
  unfold Lifetime.destroyPcie
  cases hdomain : s.domainOf raw with
  | none => exact h
  | some serial =>
    refine ⟨h.lt_next, ?_, h.pendingTimers, h.runningTimers, h.touches⟩
    intro x (hx : x ∈ s.refs)
    obtain ⟨halive, hbuffer⟩ := h.alive x hx
    refine ⟨halive, fun hr => ?_⟩
    have hnot := List.all_eq_true.1 hcalm x hx
    rw [hr, hdomain] at hnot
    have hne : x.serial ≠ serial := by
      rintro rfl
      simp at hnot
    exact (Function.update_of_ne hne _ _).trans (hbuffer hr)

theorem Inv.unregister (h : Inv s) {raw : ℕ} (hcalm : unnamed s raw = true) :
    Inv (Lifetime.unregister s raw) := by
  refine ⟨fun a k hk => h.lt_next a k (freed_le hk), ?_, h.pendingTimers, h.runningTimers,
    h.touches⟩
  intro x hx
  exact ⟨alive_freed h hcalm hx, (h.alive x hx).2⟩

theorem Inv.beginCallback (h : Inv s) {stream : ℕ}
    (hstep : Lifetime.beginCallback s stream = some s') : Inv s' := by
  unfold Lifetime.beginCallback at hstep
  split at hstep
  · cases hstep
  · dsimp only at hstep
    split at hstep
    · cases hstep
      exact h.of_refs rfl rfl rfl (fun _ hx => hx) h.pendingTimers h.runningTimers h.touches
    · next x hfind =>
      cases hstep
      have hx : x ∈ s.pending := List.mem_of_find?_eq_some hfind
      have href : x.ref ∈ s.refs := mem_refs.2 (.inr (.inl ⟨x, hx, rfl⟩))
      refine h.of_refs rfl rfl rfl ?_ ?_ ?_ ?_
      · intro y hy
        rcases mem_refs.1 hy with hcalls | ⟨z, hz, rfl⟩ | ⟨c, hc, rfl⟩
        · exact mem_refs.2 (.inl hcalls)
        · exact mem_refs.2 (.inr (.inl ⟨z, List.mem_of_mem_erase hz, rfl⟩))
        · rcases List.mem_append.1 hc with hc | hc
          · exact mem_refs.2 (.inr (.inr ⟨c, hc, rfl⟩))
          · obtain rfl := List.mem_singleton.1 hc
            exact href
      · exact fun y hy => h.pendingTimers y (List.mem_of_mem_erase hy)
      · intro c hc
        rcases List.mem_append.1 hc with hc | hc
        · exact h.runningTimers c hc
        · obtain rfl := List.mem_singleton.1 hc
          exact h.pendingTimers x hx
      · intro t ht
        rcases List.mem_append.1 ht with ht | ht
        · exact h.touches t ht
        · obtain rfl := List.mem_singleton.1 ht
          exact ⟨(h.alive x.ref href).1, nofun, nofun⟩

theorem Inv.merge (h : Inv s) {stream : ℕ} (hstep : Lifetime.merge s stream = some s') :
    Inv s' := by
  unfold Lifetime.merge at hstep
  split at hstep
  · cases hstep
  · next c hfind =>
    cases hstep
    have hc : c ∈ s.running := List.mem_of_find?_eq_some hfind
    have href : c.record.ref ∈ s.refs := mem_refs.2 (.inr (.inr ⟨c, hc, rfl⟩))
    refine h.of_refs rfl rfl rfl ?_ h.pendingTimers ?_ ?_
    · intro y hy
      rcases mem_refs.1 hy with hcalls | hpending | ⟨d, hd, rfl⟩
      · exact mem_refs.2 (.inl hcalls)
      · exact mem_refs.2 (.inr (.inl hpending))
      · rcases List.mem_append.1 hd with hd | hd
        · exact mem_refs.2 (.inr (.inr ⟨d, List.mem_of_mem_erase hd, rfl⟩))
        · obtain rfl := List.mem_singleton.1 hd
          exact href
    · intro d hd
      rcases List.mem_append.1 hd with hd | hd
      · exact h.runningTimers d (List.mem_of_mem_erase hd)
      · obtain rfl := List.mem_singleton.1 hd
        exact h.runningTimers c hc
    · intro t ht
      rcases List.mem_append.1 ht with ht | ht
      · exact h.touches t ht
      · obtain rfl := List.mem_singleton.1 ht
        exact touch_ok h href id nofun

theorem Inv.feed (h : Inv s) {stream : ℕ} (hstep : Lifetime.feed feedback s stream = some s') :
    Inv s' := by
  unfold Lifetime.feed at hstep
  split at hstep
  · cases hstep
  · next c hfind =>
    cases hstep
    have hc : c ∈ s.running := List.mem_of_find?_eq_some hfind
    have href : c.record.ref ∈ s.refs := mem_refs.2 (.inr (.inr ⟨c, hc, rfl⟩))
    refine h.of_refs rfl rfl rfl ?_ h.pendingTimers
      (fun d hd => h.runningTimers d (List.mem_of_mem_erase hd)) ?_
    · intro y hy
      rcases mem_refs.1 hy with hcalls | hpending | ⟨d, hd, rfl⟩
      · exact mem_refs.2 (.inl hcalls)
      · exact mem_refs.2 (.inr (.inl hpending))
      · exact mem_refs.2 (.inr (.inr ⟨d, List.mem_of_mem_erase hd, rfl⟩))
    · intro t ht
      rcases List.mem_append.1 ht with ht | ht
      · exact h.touches t ht
      · obtain rfl := List.mem_singleton.1 ht
        refine touch_ok h href (fun hno => absurd hno Bool.false_ne_true) fun k hk => ?_
        split at hk
        · exact h.runningTimers c hc k hk
        · cases hk

/-- **Every calm step** keeps what is named alive. -/
theorem Inv.step (h : Inv s) {l : Label} (hcalm : calm s l = true)
    (hstep : Lifetime.step feedback s l = some s') : Inv s' := by
  cases l with
  | create raw addr pcie => exact h.create hcalm hstep
  | call raw stream recvbuf => exact h.call hstep
  | register i => exact h.register hstep
  | attachTimers i => exact h.attachTimers hcalm hstep
  | launch i ok => exact h.launch hstep
  | destroyPcie raw =>
    cases hstep
    exact h.destroyPcie hcalm
  | unregister raw =>
    cases hstep
    exact h.unregister hcalm
  | begin stream => exact h.beginCallback hstep
  | merge stream => exact h.merge hstep
  | feed stream => exact h.feed hstep

theorem Inv.start : Inv initial := by
  refine ⟨?_, ?_, ?_, ?_, ?_⟩
  · intro addr k (h : none = some k)
    cases h
  all_goals
    intro _ h
    exact absurd h List.not_mem_nil

/-- **Callbacks run against their own domains** in every run that frees nothing too early. -/
theorem callbacks_sound (feedback : Bool) {labels : List Label} {s : State}
    (hrun : (machine feedback).runFrom calm initial labels = some s) : ∀ t ∈ s.touches, t.Ok :=
  ((machine feedback).invariant (fun _ _ _ hs hcalm hstep => hs.step hcalm hstep) Inv.start
    hrun).touches

/-- A communicator whose domain is freed when its collective is complete. -/
def orderly : List Label :=
  [.create 7 1 true, .call 7 3 true, .register 0, .attachTimers 0, .launch 0 true, .begin 3,
    .merge 3, .feed 3, .destroyPcie 7, .unregister 7]

theorem callbacks_sound_orderly : ∃ s,
    (machine true).runFrom calm initial orderly = some s ∧ s.touches.length = 3 ∧
      ∀ t ∈ s.touches, t.Ok := by
  have hobs : ((machine true).runFrom calm initial orderly).map (fun s => s.touches.length) =
      some 3 := by decide
  obtain ⟨s, hrun, hs⟩ := Option.map_eq_some_iff.1 hobs
  exact ⟨s, hrun, hs, callbacks_sound true hrun⟩

/-! ## What is freed too early -/

/-- **A callback that is left over** finds its domain freed, where the communicator is destroyed
while its record is the first of a stream with a callback. -/
theorem removed_touched {raw stream : ℕ} {x : Record}
    (hx : s.pending.find? (fun x => decide (x.stream = stream)) = some x)
    (haddr : s.rawToDomain raw = some x.ref.addr) (hlaunched : s.launched stream ≠ 0)
    (hrunning : ∀ c ∈ s.running, c.record.stream ≠ stream) :
    ∃ s', (machine feedback).runFrom Machine.anyStep s [.unregister raw, .begin stream] = some s' ∧
      ∃ t ∈ s'.touches, ¬ t.Ok := by
  have hready : ¬ (s.launched stream = 0 ∨ ∃ c ∈ s.running, c.record.stream = stream) := by
    rintro (hzero | ⟨c, hc, hstream⟩)
    · exact hlaunched hzero
    · exact hrunning c hc hstream
  have hfreed : s.freed raw x.ref.addr = none := by
    unfold State.freed
    rw [haddr]
    exact Function.update_self _ _ _
  have hstep : ∃ s', Lifetime.beginCallback (Lifetime.unregister s raw) stream = some s' ∧
      ∃ t ∈ s'.touches, ¬ t.Ok := by
    unfold Lifetime.beginCallback Lifetime.unregister
    dsimp only
    rw [if_neg hready, hx]
    refine ⟨_, rfl, _, List.mem_append_right _ List.mem_cons_self, fun hok => ?_⟩
    have hfound : s.freed raw x.ref.addr = some x.ref.serial := hok.found
    rw [hfreed] at hfound
    cases hfound
  obtain ⟨s', hbegin, ht⟩ := hstep
  refine ⟨s', ?_, ht⟩
  refine (machine feedback).runFrom_cons_eq_some.2 ⟨rfl, _, rfl, ?_⟩
  exact (machine feedback).runFrom_cons_eq_some.2 ⟨rfl, s', hbegin, rfl⟩

/-- A communicator is destroyed while its collective is under way, and another one gets its
address. -/
def takenOver : List Label :=
  [.create 7 1 true, .call 7 3 false, .register 0, .attachTimers 0, .launch 0 true, .destroyPcie 7,
    .unregister 7, .create 9 1 true, .begin 3, .merge 3, .feed 3]

/-- **The times of one communicator are fed to another**, whose domain is at the address of the
first. -/
theorem callback_after_destroy : ¬ ∀ (feedback : Bool) (labels : List Label) (s : State),
    (machine feedback).runFrom Machine.anyStep initial labels = some s → ∀ t ∈ s.touches, t.Ok := by
  intro hall
  have hobs : ((machine true).runFrom Machine.anyStep initial takenOver).map State.touches =
      some [⟨0, some 1, false, false, none⟩, ⟨0, some 1, false, false, none⟩,
        ⟨0, some 1, false, false, some 0⟩] := by decide
  obtain ⟨s, hrun, hs⟩ := Option.map_eq_some_iff.1 hobs
  have hok := hall true takenOver s hrun ⟨0, some 1, false, false, some 0⟩ (by rw [hs]; decide)
  exact absurd hok.found (by decide)

end Lifetime
end Orchestrator
end HyLink
