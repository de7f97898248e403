import HyLink.Theory.Machine
import HyLink.Theory.Counting

/-!
# The pool that runs timer queries

`TimerQueryPool`: `RunAndWait` puts a task on the queue, starts a thread if fewer threads are idle
than tasks are queued, notifies one, and waits on the task's own slot.  A thread counts itself idle
around its `cv_.wait`, takes the front task, runs it without the mutex, marks the slot and comes
back.

* `Pool.step` — one critical section, or one access outside of them.
* `Inv` — what holds at every moment.
* `timer_query_pool` — enough threads are idle or starting, and every task runs just once before its
  caller returns.
-/

namespace HyLink
namespace Orchestrator
namespace TimerQueries

open Theory

/-! ## The pool -/

/-- Where a thread of the pool stands in `WorkerLoop`; the number is the slot it works on. -/
inductive Worker where
  /-- In `workers_`, before its first `lock`. -/
  | starting
  /-- Blocked in `cv_.wait`. -/
  | parked
  /-- Woken in `cv_.wait`, without the mutex. -/
  | awake
  /-- The slot is off the queue and the mutex released. -/
  | taken (t : ℕ)
  /-- `slot->task()` has returned. -/
  | ran (t : ℕ)
  /-- `slot->done` is set. -/
  | marked (t : ℕ)
  /-- The slot's waiter is notified; before `lock.lock()`. -/
  | returning
  | exited
  deriving DecidableEq, Repr

/-- The thread is between `++idle_` and `--idle_`. -/
def Worker.waits : Worker → Bool
  | .parked | .awake => true
  | _ => false

/-- The slot a thread works on. -/
def Worker.slot : Worker → Option ℕ
  | .taken t | .ran t | .marked t => some t
  | _ => none

/-- Where a caller stands in `RunAndWait`. -/
inductive Caller where
  /-- The slot is queued; before `cv_.notify_one`. -/
  | notifying
  /-- About to evaluate `slot->done` under the slot's mutex. -/
  | checking
  /-- Blocked in `slot->cv.wait`. -/
  | parked
  | returned
  deriving DecidableEq, Repr

/-- A slot, with its caller and how often its task was called. -/
structure Slot where
  caller : Caller
  done : Bool
  executed : ℕ
  deriving DecidableEq, Repr

/-- The pool; a slot is named by its place among all slots made so far. -/
structure Pool where
  queue : List ℕ
  workers : List Worker
  idle : ℕ
  stop : Bool
  slots : List Slot

namespace Pool

def init : Pool := ⟨[], [], 0, false, []⟩

def goto (s : Pool) (w : ℕ) (p : Worker) : Pool := { s with workers := s.workers.set w p }

def setSlot (s : Pool) (t : ℕ) (slot : Slot) : Pool := { s with slots := s.slots.set t slot }

/-- The first critical section of `RunAndWait`. -/
def push (s : Pool) : Pool :=
  let queue := s.queue ++ [s.slots.length]
  { s with
    queue := queue
    workers := if s.idle < queue.length then s.workers ++ [.starting] else s.workers
    slots := s.slots ++ [⟨.notifying, false, 0⟩] }

/-- What follows when `cv_.wait` has seen its predicate hold. -/
def proceed (s : Pool) (w : ℕ) : Pool :=
  match s.queue with
  | [] => { s with idle := s.idle - 1 }.goto w .exited
  | t :: rest => { s with idle := s.idle - 1, queue := rest }.goto w (.taken t)

/-- `cv_.wait` with the mutex held. -/
def await (s : Pool) (w : ℕ) : Pool :=
  if s.stop || !s.queue.isEmpty then s.proceed w else s.goto w .parked

/-- The loop's body from its start on. -/
def enter (s : Pool) (w : ℕ) : Pool := { s with idle := s.idle + 1 }.await w

end Pool

inductive Label where
  /-- `RunAndWait` is called. -/
  | call
  /-- `cv_.notify_one`, with the thread that wakes up, if one is blocked. -/
  | notify (c : ℕ) (woken : Option ℕ)
  | check (c : ℕ)
  /-- A new thread gets the mutex. -/
  | start (w : ℕ)
  /-- A thread woken in `cv_.wait` gets the mutex. -/
  | resume (w : ℕ)
  | run (w : ℕ)
  | mark (w : ℕ)
  /-- `slot->cv.notify_one`. -/
  | signal (w : ℕ)
  /-- A thread that has run a task gets the mutex. -/
  | back (w : ℕ)
  /-- A wait wakes up without being notified. -/
  | spurious (w : ℕ)
  | spuriousCaller (c : ℕ)
  /-- The destructor sets `stop_`. -/
  | stop
  | notifyAll
  deriving DecidableEq, Repr

/-- `notify_one` on the slot: the caller wakes up if it is blocked. -/
def Slot.notifyOne (slot : Slot) : Slot :=
  if slot.caller = .parked then { slot with caller := .checking } else slot

def Worker.notified : Worker → Worker
  | .parked => .awake
  | w => w

/-- One critical section, or one access outside of them. -/
def Pool.step (s : Pool) : Label → Option Pool
  | .call => some s.push
  | .notify c woken =>
    match s.slots[c]? with
    | some ⟨.notifying, done, executed⟩ =>
      let after := s.setSlot c ⟨.checking, done, executed⟩
      match woken with
      | none => if .parked ∈ s.workers then none else some after
      | some w => if s.workers[w]? = some .parked then some (after.goto w .awake) else none
    | _ => none
  | .check c =>
    match s.slots[c]? with
    | some ⟨.checking, done, executed⟩ =>
      some (s.setSlot c ⟨if done then .returned else .parked, done, executed⟩)
    | _ => none
  | .start w => if s.workers[w]? = some .starting then some (s.enter w) else none
  | .resume w => if s.workers[w]? = some .awake then some (s.await w) else none
  | .run w =>
    match s.workers[w]? with
    | some (.taken t) => s.slots[t]?.map fun slot =>
      (s.goto w (.ran t)).setSlot t { slot with executed := slot.executed + 1 }
    | _ => none
  | .mark w =>
    match s.workers[w]? with
    | some (.ran t) => s.slots[t]?.map fun slot =>
      (s.goto w (.marked t)).setSlot t { slot with done := true }
    | _ => none
  | .signal w =>
    match s.workers[w]? with
    | some (.marked t) => s.slots[t]?.map fun slot =>
      (s.goto w .returning).setSlot t slot.notifyOne
    | _ => none
  | .back w => if s.workers[w]? = some .returning then some (s.enter w) else none
  | .spurious w => if s.workers[w]? = some .parked then some (s.goto w .awake) else none
  | .spuriousCaller c =>
    match s.slots[c]? with
    | some ⟨.parked, done, executed⟩ => some (s.setSlot c ⟨.checking, done, executed⟩)
    | _ => none
  | .stop => some { s with stop := true }
  | .notifyAll => if s.stop then some { s with workers := s.workers.map Worker.notified } else none

def machine : Machine Pool Label := ⟨Pool.step⟩

/-! ## What holds at every moment -/

def Slot.notifying (slot : Slot) : Bool := slot.caller == .notifying

/-- Where the task of a slot can be, each place counted. -/
structure Tally where
  queued : ℕ
  taken : ℕ
  ran : ℕ
  marked : ℕ

def Pool.tally (s : Pool) (t : ℕ) : Tally :=
  ⟨s.queue.count t, s.workers.count (.taken t), s.workers.count (.ran t),
    s.workers.count (.marked t)⟩

/-- A slot agrees with where its task is. -/
structure Slot.Fits (slot : Slot) (y : Tally) : Prop where
  /-- The task is queued, or taken, or was called, and only one of these. -/
  once : y.queued + y.taken + slot.executed = 1
  done : slot.executed = y.ran + if slot.done then 1 else 0
  returned : slot.caller = .returned → slot.done = true
  /-- Who is blocked on a finished task will be notified. -/
  parked : slot.caller = .parked → slot.done = true → 0 < y.marked

structure Inv (s : Pool) : Prop where
  idle : s.idle = s.workers.countP Worker.waits
  enough : s.queue.length ≤ s.idle + s.workers.count .starting
  /-- For each queued task there is somebody who will look at the queue, or will wake up somebody
  who does. -/
  heard : s.queue.length ≤
    s.workers.count .starting + s.workers.count .awake + s.slots.countP Slot.notifying
  queued : ∀ t ∈ s.queue, t < s.slots.length
  worked : ∀ p ∈ s.workers, ∀ t, p.slot = some t → t < s.slots.length
  fits : ∀ (t : ℕ) (slot : Slot), s.slots[t]? = some slot → slot.Fits (s.tally t)

variable {s s' : Pool} {w c t : ℕ} {a b : Worker} {slot slot' : Slot}

theorem Inv.init : Inv Pool.init := by
  refine ⟨rfl, Nat.le_refl 0, Nat.le_refl 0, ?_, ?_, ?_⟩
  · intro t ht
    cases ht
  · intro p hp
    cases hp
  · intro t slot ht
    cases ht

/-- Nobody works on a slot that is not made yet. -/
theorem Inv.count_eq_zero (h : Inv s) (ht : s.slots.length ≤ t) (ha : a.slot = some t) :
    s.workers.count a = 0 := by
  apply List.count_eq_zero.2
  intro hmem
  exact absurd (h.worked a hmem t ha) (Nat.not_lt.2 ht)

theorem Inv.lt_of_slot (h : Inv s) (hw : s.workers[w]? = some a) (ha : a.slot = some t) :
    t < s.slots.length := h.worked a (List.mem_of_getElem? hw) t ha

/-! ### A thread moves -/

theorem goto_count (hw : s.workers[w]? = some a) (p : Worker) :
    (s.goto w b).workers.count p + (if a = p then 1 else 0) =
      s.workers.count p + (if b = p then 1 else 0) := count_set_add hw p

theorem goto_countP (hw : s.workers[w]? = some a) :
    (s.goto w b).workers.countP Worker.waits + (if a.waits then 1 else 0) =
      s.workers.countP Worker.waits + (if b.waits then 1 else 0) := countP_set_add hw

theorem goto_tally (hw : s.workers[w]? = some a) (ha : a.slot ≠ some t) (hb : b.slot ≠ some t) :
    (s.goto w b).tally t = s.tally t := by
  have hcount : ∀ p : Worker, p.slot = some t →
      (s.goto w b).workers.count p = s.workers.count p := by
    intro p hp
    have heq := goto_count (b := b) hw p
    rw [if_neg fun h => ha (by rw [h, hp]), if_neg fun h => hb (by rw [h, hp])] at heq
    exact heq
  unfold Pool.tally
  rw [hcount _ rfl, hcount _ rfl, hcount _ rfl]
  rfl

theorem goto_worked (h : Inv s) (hb : ∀ t, b.slot = some t → t < s.slots.length) :
    ∀ p ∈ (s.goto w b).workers, ∀ t, p.slot = some t → t < s.slots.length := by
  intro p hp
  rcases List.mem_or_eq_of_mem_set hp with hmem | rfl
  · exact h.worked p hmem
  · exact hb

/-! ### A thread has the mutex in `cv_.wait` -/

/-- The thread blocks, or it ends, or it takes the front task. -/
theorem await_cases (s : Pool) (w : ℕ) :
    (s.queue = [] ∧ s.await w = s.goto w .parked) ∨
    (s.queue = [] ∧ s.await w = { s with idle := s.idle - 1 }.goto w .exited) ∨
    ∃ t rest, s.queue = t :: rest ∧
      s.await w = { s with idle := s.idle - 1, queue := rest }.goto w (.taken t) := by
  cases hq : s.queue with
  | nil =>
    by_cases hstop : s.stop
    · exact .inr (.inl ⟨rfl, by simp [Pool.await, Pool.proceed, hq, hstop]⟩)
    · exact .inl ⟨rfl, by simp [Pool.await, hq, hstop]⟩
  | cons t rest => exact .inr (.inr ⟨t, rest, rfl, by simp [Pool.await, Pool.proceed, hq]⟩)

/-- The thread is about to lock, or has just locked, the pool's mutex. -/
def Worker.Locks (a : Worker) : Prop := a = .starting ∨ a = .awake ∨ a = .returning

theorem Worker.Locks.slot_ne (ha : a.Locks) (t : ℕ) : a.slot ≠ some t := by
  rcases ha with rfl | rfl | rfl <;> exact fun h => by cases h

/-- On an empty queue a thread moves. -/
theorem Inv.settle (h : Inv s) (hw : s.workers[w]? = some a) (ha : ∀ t, a.slot ≠ some t)
    (hb : ∀ t, b.slot ≠ some t) (hq : s.queue = []) {n : ℕ}
    (hn : n = (s.goto w b).workers.countP Worker.waits) : Inv { s.goto w b with idle := n } := by
  have hlen : s.queue.length = 0 := by rw [hq]; rfl
  refine ⟨hn, ?_, ?_, h.queued, goto_worked h fun t ht => absurd ht (hb t), fun t slot ht => ?_⟩
  · exact hlen.le.trans (Nat.zero_le _)
  · exact hlen.le.trans (Nat.zero_le _)
  · have hfits := h.fits t slot ht
    rw [← goto_tally hw (ha t) (hb t)] at hfits
    exact hfits

/-- A slot's task goes from the queue's front to a thread. -/
theorem Slot.Fits.take (h : slot.Fits (s.tally t)) {u : ℕ} {rest : List ℕ}
    (hq : s.queue = u :: rest) (hw : s.workers[w]? = some a) (ha : a.slot ≠ some t) :
    slot.Fits (({ s with queue := rest }.goto w (.taken u)).tally t) := by
  by_cases htu : u = t
  · subst htu
    have htaken := goto_count (b := .taken u) hw (.taken u)
    have hran := goto_count (b := .taken u) hw (.ran u)
    have hmarked := goto_count (b := .taken u) hw (.marked u)
    rw [if_neg fun h => ha (by rw [h]; rfl)] at htaken hran hmarked
    obtain ⟨honce, hdone, hreturned, hparked⟩ := h
    simp only [Pool.tally, hq, List.count_cons_self] at honce hdone hparked
    simp only [reduceCtorEq, if_true, if_false, Nat.add_zero] at htaken hran hmarked
    refine ⟨?_, ?_, hreturned, ?_⟩
    · show rest.count u + (s.goto w (.taken u)).workers.count (.taken u) + slot.executed = 1
      omega
    · show slot.executed = (s.goto w (.taken u)).workers.count (.ran u) + _
      rw [hran]
      exact hdone
    · show _ → _ → 0 < (s.goto w (.taken u)).workers.count (.marked u)
      rw [hmarked]
      exact hparked
  · have htally := goto_tally (b := .taken u) hw ha fun h => htu (by cases h; rfl)
    rw [← htally] at h
    simpa [Pool.tally, Pool.goto, hq, List.count_cons_of_ne htu] using h

/-- **The front task is taken.**  The thread leaves the idle ones, or the starting ones, or comes
from another task. -/
theorem Inv.take (h : Inv s) (hw : s.workers[w]? = some a) (ha : a.Locks) {u : ℕ} {rest : List ℕ}
    (hq : s.queue = u :: rest) {n : ℕ} (hn : n = s.idle - if a.waits then 1 else 0) :
    Inv ({ s with idle := n, queue := rest }.goto w (.taken u)) := by
  have hidle := h.idle
  have henough := h.enough
  have hheard := h.heard
  rw [hq, List.length_cons] at henough hheard
  have hwaits := goto_countP (b := .taken u) hw
  have hnone : (if (Worker.taken u).waits then 1 else 0) = 0 := rfl
  have hstart := goto_count (b := .taken u) hw .starting
  have hawake := goto_count (b := .taken u) hw .awake
  rw [if_neg (by simp : ¬ Worker.taken u = .starting)] at hstart
  rw [if_neg (by simp : ¬ Worker.taken u = .awake)] at hawake
  have hu : u < s.slots.length := h.queued u (by rw [hq]; exact List.mem_cons_self)
  have hone : (if a = .starting then 1 else 0) + (if a = .awake then 1 else 0) ≤ 1 := by
    rcases ha with rfl | rfl | rfl <;> decide
  have hsame : (if a.waits then 1 else 0) = if a = .awake then 1 else 0 := by
    rcases ha with rfl | rfl | rfl <;> rfl
  refine ⟨?_, ?_, ?_, fun t ht => ?_, goto_worked (s := s) h fun t ht => ?_, fun t slot ht => ?_⟩
  · show n = (s.goto w (.taken u)).workers.countP Worker.waits
    omega
  · show rest.length ≤ n + (s.goto w (.taken u)).workers.count .starting
    omega
  · show rest.length ≤ (s.goto w (.taken u)).workers.count .starting +
      (s.goto w (.taken u)).workers.count .awake + s.slots.countP Slot.notifying
    omega
  · exact h.queued t (by rw [hq]; exact List.mem_cons_of_mem _ ht)
  · cases ht
    exact hu
  · exact (h.fits t slot ht).take hq hw (ha.slot_ne t)

/-- A thread goes on in `cv_.wait`; where it was not waiting yet, it has just counted itself. -/
theorem Inv.await (h : Inv s) (hw : s.workers[w]? = some a) (ha : a.Locks) {n : ℕ}
    (hn : n + (if a.waits then 1 else 0) = s.idle + 1) : Inv ({ s with idle := n }.await w) := by
  have hidle := h.idle
  rcases await_cases { s with idle := n } w with ⟨hq, heq⟩ | ⟨hq, heq⟩ | ⟨u, rest, hq, heq⟩
  · rw [heq]
    refine h.settle hw ha.slot_ne (b := .parked) (fun t ht => by cases ht) hq ?_
    have hwaits := goto_countP (b := .parked) hw
    have hone : (if Worker.parked.waits then 1 else 0) = 1 := rfl
    show n = _
    omega
  · rw [heq]
    refine h.settle hw ha.slot_ne (b := .exited) (fun t ht => by cases ht) hq ?_
    have hwaits := goto_countP (b := .exited) hw
    have hnone : (if Worker.exited.waits then 1 else 0) = 0 := rfl
    show n - 1 = _
    omega
  · rw [heq]
    refine h.take hw ha hq ?_
    show n - 1 = _
    omega

/-! ### A caller moves -/

theorem push_getElem? :
    s.push.slots[t]? = if t = s.slots.length then some ⟨.notifying, false, 0⟩ else s.slots[t]? := by
  show (s.slots ++ [_])[t]? = _
  split
  · rename_i ht
    rw [ht, List.getElem?_concat_length]
  · rename_i ht
    rcases Nat.lt_or_gt_of_ne ht with hlt | hgt
    · exact List.getElem?_append_left hlt
    · rw [List.getElem?_eq_none hgt.le]
      exact List.getElem?_eq_none (by rw [List.length_append]; exact hgt)

theorem push_count {p : Worker} (hp : p ≠ .starting) :
    s.push.workers.count p = s.workers.count p := by
  show (if s.idle < _ then s.workers ++ [.starting] else s.workers).count p = _
  split
  · rw [List.count_append, List.count_singleton, if_neg (by simpa using hp.symm)]
    rfl
  · rfl

theorem push_starting (s : Pool) : s.push.workers.count .starting =
    s.workers.count .starting + if s.idle < s.queue.length + 1 then 1 else 0 := by
  show (if s.idle < (s.queue ++ [s.slots.length]).length then _ else _ : List Worker).count _ = _
  rw [List.length_append, List.length_singleton]
  split
  · rw [List.count_append]
    rfl
  · rfl

theorem push_waits (s : Pool) :
    s.push.workers.countP Worker.waits = s.workers.countP Worker.waits := by
  show (if s.idle < _ then s.workers ++ [.starting] else s.workers).countP Worker.waits = _
  split
  · rw [List.countP_append]
    rfl
  · rfl

/-- **A task is queued.**  There are enough idle threads for it, or a thread is started. -/
theorem Inv.push (h : Inv s) : Inv s.push := by
  have henough := h.enough
  have hheard := h.heard
  have hstart := push_starting s
  have hqueue : s.push.queue.length = s.queue.length + 1 := List.length_append
  have hlen : s.push.slots.length = s.slots.length + 1 := List.length_append
  refine ⟨?_, ?_, ?_, fun t ht => ?_, fun p hp t ht => ?_, fun t slot ht => ?_⟩
  · rw [push_waits]
    exact h.idle
  · show s.push.queue.length ≤ s.idle + _
    split at hstart <;> omega
  · have hnotifying : s.push.slots.countP Slot.notifying = s.slots.countP Slot.notifying + 1 :=
      List.countP_append
    rw [push_count (p := .awake) (by decide)]
    omega
  · rw [hlen]
    rcases List.mem_append.1 ht with hmem | hmem
    · exact Nat.lt_succ_of_lt (h.queued t hmem)
    · rw [List.mem_singleton.1 hmem]
      exact Nat.lt_succ_self _
  · rw [hlen]
    have hmem : p ∈ s.workers := by
      have hpos := List.count_pos_iff.2 hp
      rw [push_count fun h => by rw [h] at ht; cases ht] at hpos
      exact List.count_pos_iff.1 hpos
    exact Nat.lt_succ_of_lt (h.worked p hmem t ht)
  · rw [push_getElem?] at ht
    unfold Pool.tally
    rw [push_count (by simp), push_count (by simp), push_count (by simp)]
    show slot.Fits ⟨(s.queue ++ [s.slots.length]).count t, _, _, _⟩
    rw [List.count_append]
    split at ht
    · -- the new slot: its task is queued, and nowhere else
      rename_i htn
      cases ht
      subst htn
      rw [h.count_eq_zero (a := .taken _) (Nat.le_refl _) rfl,
        h.count_eq_zero (a := .ran _) (Nat.le_refl _) rfl,
        List.count_eq_zero.2 fun hmem => Nat.lt_irrefl _ (h.queued _ hmem), List.count_singleton_self]
      exact ⟨rfl, rfl, fun h => (by cases h), fun h => (by cases h)⟩
    · rename_i htn
      rw [List.count_singleton, if_neg (by simpa using fun h => htn h.symm)]
      exact h.fits t slot ht

theorem setSlot_getElem? (hc : s.slots[c]? = some slot) :
    (s.setSlot c slot').slots[t]? = if t = c then some slot' else s.slots[t]? := by
  have hlt := (List.getElem?_eq_some_iff.1 hc).1
  show (s.slots.set c slot')[t]? = _
  split
  · rename_i ht
    rw [ht, List.getElem?_set_self hlt]
  · rename_i ht
    exact List.getElem?_set_ne (Ne.symm ht)

/-- A slot changes; where its caller stops notifying, somebody hears of the queue. -/
theorem Inv.setSlot (h : Inv s) (hc : s.slots[c]? = some slot)
    (hheard : s.queue.length + (if slot.notifying then 1 else 0) ≤ s.workers.count .starting +
      s.workers.count .awake + s.slots.countP Slot.notifying + if slot'.notifying then 1 else 0)
    (hfits : slot.Fits (s.tally c) → slot'.Fits (s.tally c)) : Inv (s.setSlot c slot') := by
  have hlen : (s.setSlot c slot').slots.length = s.slots.length := List.length_set
  have hcount : (s.setSlot c slot').slots.countP Slot.notifying + _ = _ + _ := countP_set_add hc
  refine ⟨h.idle, h.enough, ?_, fun t ht => hlen ▸ h.queued t ht,
    fun p hp t ht => hlen ▸ h.worked p hp t ht, fun t slot₁ ht => ?_⟩
  · show s.queue.length ≤ s.workers.count .starting + s.workers.count .awake + _
    omega
  · rw [setSlot_getElem? hc] at ht
    split at ht
    · rename_i htc
      cases ht
      subst htc
      exact hfits (h.fits t slot hc)
    · exact h.fits t slot₁ ht

/-! ### The other steps -/

theorem Inv.wake (h : Inv s) (hw : s.workers[w]? = some .parked) : Inv (s.goto w .awake) := by
  have hwaits := goto_countP (b := .awake) hw
  have hstart := goto_count (b := .awake) hw .starting
  have hawake := goto_count (b := .awake) hw .awake
  simp only [Worker.waits, if_true, reduceCtorEq, if_false, Nat.add_zero] at hwaits hstart hawake
  refine ⟨?_, ?_, ?_, h.queued, goto_worked h fun t ht => (by cases ht), fun t slot ht => ?_⟩
  · show s.idle = _
    rw [h.idle]
    omega
  · rw [hstart]
    exact h.enough
  · have hheard := h.heard
    show s.queue.length ≤ _ + _ + s.slots.countP Slot.notifying
    omega
  · rw [goto_tally hw (fun h => by cases h) fun h => by cases h]
    exact h.fits t slot ht

/-- Where nobody is blocked, the idle threads are awake. -/
theorem countP_waits (hno : .parked ∉ s.workers) :
    s.workers.countP Worker.waits = s.workers.count .awake := by
  apply List.countP_congr
  intro p hp
  cases p with
  | parked => exact absurd hp hno
  | starting | awake | taken | ran | marked | returning | exited => simp [Worker.waits]

/-- A slot that changes what its caller does, and not from or to being finished. -/
theorem Slot.Fits.caller (h : slot.Fits (s.tally c)) {p : Caller}
    (hreturned : p = .returned → slot.done = true)
    (hparked : p = .parked → slot.done = true → 0 < (s.tally c).marked) :
    (⟨p, slot.done, slot.executed⟩ : Slot).Fits (s.tally c) :=
  ⟨h.once, h.done, hreturned, hparked⟩

/-- **A caller notifies.**  A blocked thread wakes up; if there is none, all idle ones are awake. -/
theorem Inv.notify (h : Inv s) {done : Bool} {executed : ℕ} {woken : Option ℕ}
    (hc : s.slots[c]? = some ⟨.notifying, done, executed⟩)
    (hstep : s.step (.notify c woken) = some s') : Inv s' := by
  have hfits : ∀ y : Pool, (⟨.notifying, done, executed⟩ : Slot).Fits (y.tally c) →
      (⟨.checking, done, executed⟩ : Slot).Fits (y.tally c) := by
    intro y hy
    exact hy.caller (fun h => by cases h) fun h => by cases h
  simp only [Pool.step, hc] at hstep
  cases woken with
  | none =>
    simp only at hstep
    split at hstep
    · cases hstep
    · rename_i hno
      cases hstep
      refine h.setSlot hc ?_ (hfits s)
      have hcaller : 0 < s.slots.countP Slot.notifying :=
        List.countP_pos_iff.2 ⟨_, List.mem_of_getElem? hc, rfl⟩
      have henough := h.enough
      rw [h.idle, countP_waits hno] at henough
      simp only [Slot.notifying, beq_self_eq_true, if_true] at hcaller ⊢
      omega
  | some w =>
    simp only at hstep
    split at hstep
    · rename_i hw
      cases hstep
      refine (h.wake hw).setSlot hc ?_ (hfits _)
      have hstart := goto_count (b := .awake) hw .starting
      have hawake := goto_count (b := .awake) hw .awake
      have hheard := h.heard
      simp only [if_true, reduceCtorEq, if_false, Nat.add_zero] at hstart hawake
      have hone : (if (⟨.notifying, done, executed⟩ : Slot).notifying then 1 else 0) = 1 := rfl
      show s.queue.length + _ ≤ _ + _ + s.slots.countP Slot.notifying + _
      omega
    · cases hstep

/-- A thread with a task is neither idle nor starting. -/
theorem Worker.busy (ha : a.slot = some t) : a.waits = false ∧ a ≠ .starting ∧ a ≠ .awake := by
  cases a with
  | taken _ | ran _ | marked _ => exact ⟨rfl, by simp, by simp⟩
  | starting | parked | awake | returning | exited => cases ha

/-- **A thread goes on with its task.** -/
theorem Inv.work (h : Inv s) (hw : s.workers[w]? = some a) (ha : a.slot = some t)
    (ht : s.slots[t]? = some slot) (hb : b.slot = some t ∨ b = .returning)
    (hcaller : slot'.notifying = slot.notifying)
    (hfits : slot.Fits (s.tally t) → slot'.Fits ((s.goto w b).tally t)) :
    Inv ((s.goto w b).setSlot t slot') := by
  have hlt := h.lt_of_slot hw ha
  have hwa := Worker.busy ha
  have hwb : b.waits = false ∧ b ≠ .starting ∧ b ≠ .awake := by
    rcases hb with hb | rfl
    · exact Worker.busy hb
    · exact ⟨rfl, by simp, by simp⟩
  have hwaits := goto_countP (b := b) hw
  have hstart := goto_count (b := b) hw .starting
  have hawake := goto_count (b := b) hw .awake
  rw [hwa.1, hwb.1] at hwaits
  rw [if_neg hwa.2.1, if_neg hwb.2.1] at hstart
  rw [if_neg hwa.2.2, if_neg hwb.2.2] at hawake
  have hcount : (s.slots.set t slot').countP Slot.notifying + _ = _ + _ := countP_set_add ht
  rw [hcaller] at hcount
  have hlen : ((s.goto w b).setSlot t slot').slots.length = s.slots.length := List.length_set
  refine ⟨?_, ?_, ?_, ?_, ?_, fun u slot₁ hu => ?_⟩
  · show s.idle = (s.goto w b).workers.countP Worker.waits
    rw [h.idle]
    omega
  · show s.queue.length ≤ s.idle + (s.goto w b).workers.count .starting
    have henough := h.enough
    omega
  · show s.queue.length ≤ (s.goto w b).workers.count .starting +
      (s.goto w b).workers.count .awake + (s.slots.set t slot').countP Slot.notifying
    have hheard := h.heard
    omega
  · rw [hlen]
    exact h.queued
  · rw [hlen]
    refine goto_worked h fun u hu => ?_
    rcases hb with hb | rfl
    · cases hb.symm.trans hu
      exact hlt
    · cases hu
  · rw [setSlot_getElem? (s := s.goto w b) ht] at hu
    split at hu
    · rename_i hut
      cases hu
      subst hut
      exact hfits (h.fits u slot ht)
    · rename_i hut
      show slot₁.Fits ((s.goto w b).tally u)
      rw [goto_tally hw (fun h => hut (Option.some.inj (h.symm.trans ha))) fun h => ?_]
      · exact h.fits u slot₁ hu
      · rcases hb with hb | rfl
        · exact hut (Option.some.inj (h.symm.trans hb))
        · cases h

theorem Slot.Fits.run (h : slot.Fits (s.tally t)) (hw : s.workers[w]? = some (.taken t)) :
    (⟨slot.caller, slot.done, slot.executed + 1⟩ : Slot).Fits ((s.goto w (.ran t)).tally t) := by
  have htaken := goto_count (b := .ran t) hw (.taken t)
  have hran := goto_count (b := .ran t) hw (.ran t)
  have hmarked := goto_count (b := .ran t) hw (.marked t)
  simp only [if_true, reduceCtorEq, if_false, Nat.add_zero] at htaken hran hmarked
  obtain ⟨honce, hdone, hreturned, hparked⟩ := h
  simp only [Pool.tally] at honce hdone hparked
  refine ⟨?_, ?_, hreturned, ?_⟩
  · show s.queue.count t + (s.goto w (.ran t)).workers.count (.taken t) + (slot.executed + 1) = 1
    omega
  · show slot.executed + 1 = (s.goto w (.ran t)).workers.count (.ran t) + _
    rw [hran, hdone, Nat.add_right_comm]
  · show _ → _ → 0 < (s.goto w (.ran t)).workers.count (.marked t)
    rw [hmarked]
    exact hparked

theorem Slot.Fits.mark (h : slot.Fits (s.tally t)) (hw : s.workers[w]? = some (.ran t)) :
    (⟨slot.caller, true, slot.executed⟩ : Slot).Fits ((s.goto w (.marked t)).tally t) := by
  have htaken := goto_count (b := .marked t) hw (.taken t)
  have hran := goto_count (b := .marked t) hw (.ran t)
  have hmarked := goto_count (b := .marked t) hw (.marked t)
  simp only [if_true, reduceCtorEq, if_false, Nat.add_zero] at htaken hran hmarked
  obtain ⟨honce, hdone, hreturned, hparked⟩ := h
  simp only [Pool.tally] at honce hdone hparked
  refine ⟨?_, ?_, fun _ => rfl, fun _ _ => ?_⟩
  · show s.queue.count t + (s.goto w (.marked t)).workers.count (.taken t) + slot.executed = 1
    omega
  · -- the task was called once, so the slot was not marked before
    show slot.executed = (s.goto w (.marked t)).workers.count (.ran t) + 1
    split at hdone <;> omega
  · show 0 < (s.goto w (.marked t)).workers.count (.marked t)
    omega

theorem Slot.Fits.signal (h : slot.Fits (s.tally t)) (hw : s.workers[w]? = some (.marked t)) :
    slot.notifyOne.Fits ((s.goto w .returning).tally t) := by
  have htaken := goto_count (b := .returning) hw (.taken t)
  have hran := goto_count (b := .returning) hw (.ran t)
  simp only [reduceCtorEq, if_false, Nat.add_zero] at htaken hran
  have hcaller : slot.notifyOne.caller ≠ .parked := by
    unfold Slot.notifyOne
    split
    · exact fun h => by cases h
    · assumption
  have hsame : slot.notifyOne.executed = slot.executed ∧ slot.notifyOne.done = slot.done ∧
      (slot.notifyOne.caller = .returned → slot.caller = .returned) := by
    unfold Slot.notifyOne
    split
    · exact ⟨rfl, rfl, fun h => by cases h⟩
    · exact ⟨rfl, rfl, id⟩
  obtain ⟨honce, hdone, hreturned, _⟩ := h
  simp only [Pool.tally] at honce hdone
  refine ⟨?_, ?_, fun h => ?_, fun h => absurd h hcaller⟩
  · rw [hsame.1]
    show s.queue.count t + (s.goto w .returning).workers.count (.taken t) + slot.executed = 1
    omega
  · rw [hsame.1, hsame.2.1]
    show slot.executed = (s.goto w .returning).workers.count (.ran t) + _
    rw [hran]
    exact hdone
  · rw [hsame.2.1]
    exact hreturned (hsame.2.2 h)

theorem Slot.notifyOne_notifying (slot : Slot) : slot.notifyOne.notifying = slot.notifying := by
  unfold Slot.notifyOne
  split
  · rename_i h
    simp [Slot.notifying, h]
  · rfl

theorem notified_count {l : List Worker} {p : Worker} (hp : p ≠ .parked) (ha : p ≠ .awake) :
    (l.map Worker.notified).count p = l.count p := by
  rw [List.count_eq_countP, List.count_eq_countP, List.countP_map]
  apply List.countP_congr
  intro q _
  cases q with
  | parked => simp [Worker.notified, hp.symm, ha.symm]
  | starting | awake | taken | ran | marked | returning | exited => exact Iff.rfl

/-- The destructor wakes up all threads. -/
theorem Inv.notifyAll (h : Inv s) : Inv { s with workers := s.workers.map Worker.notified } := by
  have hwaits : (s.workers.map Worker.notified).countP Worker.waits =
      s.workers.countP Worker.waits := by
    rw [List.countP_map]
    apply List.countP_congr
    intro q _
    cases q <;> exact Iff.rfl
  have hawake : s.workers.count .awake ≤ (s.workers.map Worker.notified).count .awake := by
    rw [List.count_eq_countP, List.count_eq_countP, List.countP_map]
    apply List.countP_mono_left
    intro q _ hq
    rw [beq_iff_eq.1 hq]
    rfl
  have hstart := notified_count (l := s.workers) (p := .starting) (by decide) (by decide)
  refine ⟨h.idle.trans hwaits.symm, ?_, ?_, h.queued, ?_, fun t slot ht => ?_⟩
  · show s.queue.length ≤ s.idle + (s.workers.map Worker.notified).count .starting
    rw [hstart]
    exact h.enough
  · have hheard := h.heard
    show s.queue.length ≤ (s.workers.map Worker.notified).count .starting +
      (s.workers.map Worker.notified).count .awake + s.slots.countP Slot.notifying
    omega
  · intro p hp t ht
    obtain ⟨q, hq, rfl⟩ := List.mem_map.1 hp
    refine h.worked q hq t ?_
    cases q <;> exact ht
  · have hfits := h.fits t slot ht
    show slot.Fits ⟨s.queue.count t, (s.workers.map Worker.notified).count (.taken t),
      (s.workers.map Worker.notified).count (.ran t),
      (s.workers.map Worker.notified).count (.marked t)⟩
    rw [notified_count (by simp) (by simp), notified_count (by simp) (by simp),
      notified_count (by simp) (by simp)]
    exact hfits

/-- **Every step keeps the invariant.** -/
theorem Inv.step (h : Inv s) {l : Label} (hstep : s.step l = some s') : Inv s' := by
  cases l with
  | call =>
    cases hstep
    exact h.push
  | notify c woken =>
    obtain ⟨done, executed, hc⟩ : ∃ done executed, s.slots[c]? = some ⟨.notifying, done, executed⟩ := by
      simp only [Pool.step] at hstep
      split at hstep
      · exact ⟨_, _, by assumption⟩
      · cases hstep
    exact h.notify hc hstep
  | check c =>
    simp only [Pool.step] at hstep
    split at hstep
    · rename_i done executed hc
      cases hstep
      refine h.setSlot hc ?_ fun hfits => hfits.caller (fun hp => ?_) fun hp hdone => ?_
      · have hheard := h.heard
        simp only [Slot.notifying] at hheard ⊢
        cases done <;> exact hheard
      · cases done
        · cases hp
        · rfl
      · cases (show done = true from hdone)
        cases hp
    · cases hstep
  | start w =>
    simp only [Pool.step] at hstep
    split at hstep
    · rename_i hw
      cases hstep
      exact h.await hw (.inl rfl) rfl
    · cases hstep
  | resume w =>
    simp only [Pool.step] at hstep
    split at hstep
    · rename_i hw
      cases hstep
      exact h.await hw (.inr (.inl rfl)) rfl
    · cases hstep
  | back w =>
    simp only [Pool.step] at hstep
    split at hstep
    · rename_i hw
      cases hstep
      exact h.await hw (.inr (.inr rfl)) rfl
    · cases hstep
  | run w =>
    simp only [Pool.step] at hstep
    split at hstep
    · rename_i t hw
      obtain ⟨slot, ht, rfl⟩ := Option.map_eq_some_iff.1 hstep
      exact h.work hw rfl ht (.inl rfl) rfl fun hfits => hfits.run hw
    · cases hstep
  | mark w =>
    simp only [Pool.step] at hstep
    split at hstep
    · rename_i t hw
      obtain ⟨slot, ht, rfl⟩ := Option.map_eq_some_iff.1 hstep
      exact h.work hw rfl ht (.inl rfl) rfl fun hfits => hfits.mark hw
    · cases hstep
  | signal w =>
    simp only [Pool.step] at hstep
    split at hstep
    · rename_i t hw
      obtain ⟨slot, ht, rfl⟩ := Option.map_eq_some_iff.1 hstep
      exact h.work hw rfl ht (.inr rfl) slot.notifyOne_notifying fun hfits => hfits.signal hw
    · cases hstep
  | spurious w =>
    simp only [Pool.step] at hstep
    split at hstep
    · rename_i hw
      cases hstep
      exact h.wake hw
    · cases hstep
  | spuriousCaller c =>
    simp only [Pool.step] at hstep
    split at hstep
    · rename_i done executed hc
      cases hstep
      exact h.setSlot hc h.heard fun hfits =>
        hfits.caller (fun h => by cases h) fun h => by cases h
    · cases hstep
  | stop =>
    cases hstep
    exact ⟨h.idle, h.enough, h.heard, h.queued, h.worked, h.fits⟩
  | notifyAll =>
    simp only [Pool.step] at hstep
    split at hstep
    · cases hstep
      exact h.notifyAll
    · cases hstep

/-! ## What the pool is for -/

/-- A step towards serving the queue, by somebody who is not at work on a task. -/
def Label.serves : Label → Bool
  | .notify _ _ | .start _ | .resume _ => true
  | _ => false

/-- How many such steps there can be. -/
def Pool.servings (s : Pool) : ℕ :=
  s.workers.count .starting + s.workers.count .awake + 2 * s.slots.countP Slot.notifying

/-- **Somebody serves a queue that is not empty**, whatever the busy threads do. -/
theorem Inv.serves (h : Inv s) (hq : s.queue ≠ []) :
    ∃ l : Label, l.serves = true ∧ (s.step l).isSome = true := by
  have hpos := List.length_pos_of_ne_nil hq
  have hheard := h.heard
  by_cases hstart : 0 < s.workers.count .starting
  · obtain ⟨w, hw⟩ := List.getElem?_of_mem (List.count_pos_iff.1 hstart)
    exact ⟨.start w, rfl, by simp [Pool.step, hw]⟩
  by_cases hawake : 0 < s.workers.count .awake
  · obtain ⟨w, hw⟩ := List.getElem?_of_mem (List.count_pos_iff.1 hawake)
    exact ⟨.resume w, rfl, by simp [Pool.step, hw]⟩
  have hnotifying : 0 < s.slots.countP Slot.notifying := by omega
  obtain ⟨⟨caller, done, executed⟩, hmem, hcaller⟩ := List.countP_pos_iff.1 hnotifying
  obtain ⟨c, hc⟩ := List.getElem?_of_mem hmem
  cases (beq_iff_eq.1 hcaller : caller = .notifying)
  by_cases hparked : .parked ∈ s.workers
  · obtain ⟨w, hw⟩ := List.getElem?_of_mem hparked
    exact ⟨.notify c (some w), rfl, by simp [Pool.step, hc, hw]⟩
  · exact ⟨.notify c none, rfl, by simp [Pool.step, hc, hparked]⟩

theorem servings_goto {n : ℕ} {q : List ℕ} (hw : s.workers[w]? = some a)
    (ha : a = .starting ∨ a = .awake) (hb : b ≠ .starting) (hb' : b ≠ .awake) :
    ({ s with idle := n, queue := q }.goto w b).servings < s.servings := by
  have hstart := goto_count (b := b) hw .starting
  have hawake := goto_count (b := b) hw .awake
  rw [if_neg hb] at hstart
  rw [if_neg hb'] at hawake
  show (s.goto w b).workers.count .starting + (s.goto w b).workers.count .awake +
    2 * s.slots.countP Slot.notifying < s.servings
  unfold Pool.servings
  rcases ha with rfl | rfl
  · simp only [if_true, reduceCtorEq, if_false, Nat.add_zero] at hstart hawake
    omega
  · simp only [if_true, reduceCtorEq, if_false, Nat.add_zero] at hstart hawake
    omega

theorem servings_await {n : ℕ} (hw : s.workers[w]? = some a) (ha : a = .starting ∨ a = .awake) :
    ({ s with idle := n }.await w).servings < s.servings := by
  rcases await_cases { s with idle := n } w with ⟨_, heq⟩ | ⟨_, heq⟩ | ⟨u, rest, _, heq⟩
  · rw [heq]
    exact servings_goto hw ha (by simp) (by simp)
  · rw [heq]
    exact servings_goto hw ha (by simp) (by simp)
  · rw [heq]
    exact servings_goto hw ha (by simp) (by simp)

theorem servings_lt {l : Label} (hl : l.serves = true) (hstep : s.step l = some s') :
    s'.servings < s.servings := by
  cases l with
  | start w =>
    simp only [Pool.step] at hstep
    split at hstep
    · rename_i hw
      cases hstep
      exact servings_await hw (.inl rfl)
    · cases hstep
  | resume w =>
    simp only [Pool.step] at hstep
    split at hstep
    · rename_i hw
      cases hstep
      exact servings_await (n := s.idle) hw (.inr rfl)
    · cases hstep
  | notify c woken =>
    simp only [Pool.step] at hstep
    split at hstep
    · rename_i done executed hc
      have hcount : (s.slots.set c ⟨.checking, done, executed⟩).countP Slot.notifying + 1 = _ + 0 :=
        countP_set_add hc
      cases woken with
      | none =>
        simp only at hstep
        split at hstep
        · cases hstep
        · cases hstep
          show s.workers.count .starting + s.workers.count .awake +
            2 * (s.slots.set c ⟨.checking, done, executed⟩).countP Slot.notifying < _
          unfold Pool.servings
          omega
      | some w =>
        simp only at hstep
        split at hstep
        · rename_i hw
          cases hstep
          have hstart := goto_count (b := .awake) hw .starting
          have hawake := goto_count (b := .awake) hw .awake
          simp only [if_true, reduceCtorEq, if_false, Nat.add_zero] at hstart hawake
          show (s.goto w .awake).workers.count .starting + (s.goto w .awake).workers.count .awake +
            2 * (s.slots.set c ⟨.checking, done, executed⟩).countP Slot.notifying < _
          unfold Pool.servings
          omega
        · cases hstep
    · cases hstep
  | call | check | run | mark | signal | back | spurious | spuriousCaller | stop | notifyAll =>
    cases hl

/-- The queue is served in a bounded number of steps. -/
theorem serves_bounded {ls : List Label} (hls : ∀ l ∈ ls, l.serves = true)
    (hrun : machine.runFrom Machine.anyStep s ls = some s') : ls.length ≤ s.servings := by
  induction ls generalizing s with
  | nil => exact Nat.zero_le _
  | cons l ls ih =>
    obtain ⟨_, t, hstep, hrest⟩ := machine.runFrom_cons_eq_some.1 hrun
    have hlt := servings_lt (hls l List.mem_cons_self) hstep
    have hle := ih (fun l hl => hls l (List.mem_cons_of_mem _ hl)) hrest
    exact Nat.lt_of_le_of_lt hle hlt

/-- A step of somebody who is neither a new caller nor woken up without reason, nor the
destructor. -/
def Label.ordinary : Label → Bool
  | .call | .spurious _ | .spuriousCaller _ | .stop | .notifyAll => false
  | _ => true

/-- **Where the pool is at rest all callers have returned.** -/
theorem Inv.returned_of_rest (h : Inv s)
    (hrest : ∀ l : Label, l.ordinary = true → (s.step l).isSome = false)
    (hc : s.slots[c]? = some slot) : slot.caller = .returned := by
  have hqueue : s.queue = [] := by
    by_contra hq
    obtain ⟨l, hl, hsome⟩ := h.serves hq
    have hord : l.ordinary = true := by
      cases l <;> first | rfl | cases hl
    rw [hrest l hord] at hsome
    cases hsome
  obtain ⟨honce, hdone, hreturned, hparked⟩ := h.fits c slot hc
  simp only [Pool.tally, hqueue, List.count_nil, Nat.zero_add] at honce hdone hparked
  -- a thread that works on the slot could go on
  have hno : ∀ (p : Worker) (l : ℕ → Label), (∀ w, (l w).ordinary = true) →
      (∀ w, s.workers[w]? = some p → (s.step (l w)).isSome = true) → s.workers.count p = 0 := by
    intro p l hord hsome
    by_contra hpos
    obtain ⟨w, hw⟩ := List.getElem?_of_mem (List.count_pos_iff.1 (Nat.pos_of_ne_zero hpos))
    have h := hsome w hw
    rw [hrest _ (hord w)] at h
    cases h
  have htaken := hno (.taken c) .run (fun _ => rfl) fun w hw => by simp [Pool.step, hw, hc]
  have hran := hno (.ran c) .mark (fun _ => rfl) fun w hw => by simp [Pool.step, hw, hc]
  have hmarked := hno (.marked c) .signal (fun _ => rfl) fun w hw => by simp [Pool.step, hw, hc]
  obtain ⟨caller, done, executed⟩ := slot
  cases caller with
  | returned => rfl
  | checking =>
    have h := hrest (.check c) rfl
    simp [Pool.step, hc] at h
  | parked =>
    simp only at hdone honce hparked
    have hset : done = true := by
      cases done
      · simp only [Bool.false_eq_true, if_false] at hdone
        omega
      · rfl
    have hpos := hparked trivial hset
    omega
  | notifying =>
    by_cases hp : .parked ∈ s.workers
    · obtain ⟨w, hw⟩ := List.getElem?_of_mem hp
      have h := hrest (.notify c (some w)) rfl
      simp [Pool.step, hc, hw] at h
    · have h := hrest (.notify c none) rfl
      simp [Pool.step, hc, hp] at h

theorem Inv.of_run {ls : List Label} (hrun : machine.runFrom Machine.anyStep Pool.init ls = some s) :
    Inv s :=
  machine.invariant (fun _ _ _ h _ hstep => h.step hstep) Inv.init hrun

/-- **The pool's scheduling.**  After every run of calls and threads, the idle and the starting
threads are at least as many as the queued tasks.  While the queue is not empty, somebody who is not
at work on a task can take a step to serve it, and there are only so many such steps, however they
are ordered.  Each task is in one place: it waits, or was taken, or was called just once, and it was
called when its caller has returned; and where nobody can go on, all callers have returned. -/
theorem timer_query_pool {ls : List Label}
    (hrun : machine.runFrom Machine.anyStep Pool.init ls = some s) :
    s.queue.length ≤ s.idle + s.workers.count .starting ∧
    s.idle = s.workers.countP Worker.waits ∧
    (s.queue ≠ [] → ∃ l : Label, l.serves = true ∧ (s.step l).isSome = true) ∧
    (∀ ls' s', (∀ l ∈ ls', Label.serves l = true) →
      machine.runFrom Machine.anyStep s ls' = some s' → ls'.length ≤ s.servings) ∧
    (∀ t slot, s.slots[t]? = some slot →
      s.queue.count t + s.workers.count (.taken t) + slot.executed = 1 ∧
      (slot.caller = .returned → slot.executed = 1)) ∧
    ((∀ l : Label, l.ordinary = true → (s.step l).isSome = false) →
      ∀ slot ∈ s.slots, slot.caller = .returned) := by
  have h := Inv.of_run hrun
  refine ⟨h.enough, h.idle, h.serves, fun ls' s' => serves_bounded, fun t slot ht => ?_,
    fun hrest slot hmem => ?_⟩
  · obtain ⟨honce, hdone, hreturned, _⟩ := h.fits t slot ht
    refine ⟨honce, fun hcaller => ?_⟩
    rw [hreturned hcaller] at hdone
    simp only [Pool.tally, if_true] at honce hdone
    omega
  · obtain ⟨c, hc⟩ := List.getElem?_of_mem hmem
    exact h.returned_of_rest hrest hc

/-- Two calls meet in the pool: the second is queued before the first thread has started. -/
def twoCalls : List Label :=
  [.call, .call, .start 0, .notify 0 none, .check 0, .run 0, .mark 0, .signal 0, .check 0,
    .back 0, .start 1, .notify 1 (some 1), .resume 1, .run 0]

theorem timer_query_pool_two_calls :
    ((machine.runFrom Machine.anyStep Pool.init twoCalls).map fun s =>
      (s.queue, s.workers, s.idle, s.slots)) =
        some ([], [.ran 1, .parked], 1, [⟨.returned, true, 1⟩, ⟨.checking, false, 1⟩]) ∧
    ∀ s, machine.runFrom Machine.anyStep Pool.init twoCalls = some s →
      s.queue.length ≤ s.idle + s.workers.count .starting := by
  refine ⟨by decide, fun s hs => (timer_query_pool hs).1⟩

end TimerQueries
end Orchestrator
end HyLink
