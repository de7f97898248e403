import HyLink.Theory.Counting
import Mathlib.Data.List.Basic
import Mathlib.Data.Nat.Notation
import Mathlib.Tactic.Cases

/-!
# The workers of a host pool

`H2HEngine::workerLoop` of both backends: a queue under a mutex, a condition variable, and the stop
flag of the engine, which is set without the mutex.  The Ascend workers first spin on a hint of the
queue's size and try the mutex.

* `Pool.move` — one access of a worker on its way to an item.
* `Pool.move_cases` — it goes on without an item, or takes the oldest one.
* `Pool.Ok` — what holds at every moment: who is blocked will not be missed.
-/

namespace HyLink
namespace Executor
namespace HostPools

open Theory

inductive Backend where
  | ascend
  | cuda
  deriving DecidableEq, Repr

/-- Where a worker stands in `workerLoop`. -/
inductive Worker (α : Type) where
  /-- At the top of the loop; on Ascend after so many tries. -/
  | looking (spin : ℕ)
  /-- The hint was above zero; before `try_to_lock`. -/
  | trying (spin : ℕ)
  /-- Before the mutex is locked for `cv.wait`, or locked again after a wake-up. -/
  | locking
  /-- It has the mutex and has seen the predicate of `cv.wait` fail. -/
  | deciding
  /-- Blocked in `cv.wait`. -/
  | parked
  /-- It has taken an item. -/
  | holding (x : α)
  /-- The item's bytes are copied. -/
  | copied (x : α)
  | exited
  deriving DecidableEq, Repr

/-- The item a worker has. -/
def Worker.item {α : Type} : Worker α → Option α
  | .holding x | .copied x => some x
  | _ => none

/-- The worker has an item of the kind. -/
def Worker.worksOn {α : Type} (f : α → Bool) (a : Worker α) : Bool := a.item.any f

def Worker.decides {α : Type} : Worker α → Bool
  | .deciding => true
  | _ => false

/-- A notification wakes up who is blocked. -/
def Worker.notified {α : Type} : Worker α → Worker α
  | .parked => .locking
  | a => a

/-- How many steps a worker can take before it is blocked, at most. -/
def Worker.budget {α : Type} : Worker α → ℕ
  | .looking spin => 4 + 2 * (2000 - spin)
  | .trying spin => 5 + 2 * (1999 - spin)
  | .locking => 2
  | .deciding => 1
  | .parked | .exited => 0
  | .holding _ => 4006
  | .copied _ => 4005

/-- A pool; `hint` is Ascend's `queue_size`. -/
structure Pool (α : Type) where
  queue : List α
  hint : ℤ
  workers : List (Worker α)
  spawned : Bool

/-- What a worker does on its way to an item. -/
inductive Move where
  /-- A turn of the spin loop; for CUDA the check of the stop flag. -/
  | peek
  /-- `try_to_lock`, with its result. -/
  | tryLock (ok : Bool)
  /-- The mutex is locked and the predicate of `cv.wait` evaluated. -/
  | evaluate
  /-- `cv.wait` blocks and releases the mutex. -/
  | block
  deriving DecidableEq, Repr

namespace Pool

variable {α : Type}

def init : Pool α := ⟨[], 0, [], false⟩

def goto (p : Pool α) (w : ℕ) (a : Worker α) : Pool α := { p with workers := p.workers.set w a }

/-- Nobody holds the mutex across an access. -/
def free (p : Pool α) : Bool := p.workers.all fun a => !a.decides

/-- The oldest item is taken. -/
def take (p : Pool α) (w : ℕ) (x : α) (rest : List α) : Pool α :=
  { p.goto w (.holding x) with queue := rest, hint := p.hint - 1 }

/-- What follows when `cv.wait` has seen its predicate hold. -/
def awake (b : Backend) (stop : Bool) (p : Pool α) (w : ℕ) : Pool α :=
  match p.queue with
  | [] => p.goto w .exited
  | x :: rest => if b = .cuda ∧ stop = true then p.goto w .exited else p.take w x rest

/-- One access of a worker without an item. -/
def move (b : Backend) (stop : Bool) (p : Pool α) (w : ℕ) : Move → Option (Pool α)
  | .peek =>
    match p.workers[w]?, b with
    | some (.looking _), .cuda => some (p.goto w (if stop then .exited else .locking))
    | some (.looking spin), .ascend =>
      some (p.goto w (if 2000 ≤ spin ∨ stop = true then .locking
        else if 0 < p.hint then .trying spin else .looking (spin + 1)))
    | _, _ => none
  | .tryLock ok =>
    match p.workers[w]? with
    | some (.trying spin) =>
      if ok then
        if p.free then
          match p.queue with
          | [] => some (p.goto w (.looking (spin + 1)))
          | x :: rest => some (p.take w x rest)
        else none
      else some (p.goto w (.looking (spin + 1)))
    | _ => none
  | .evaluate =>
    match p.workers[w]? with
    | some .locking =>
      if p.free then
        if stop || !p.queue.isEmpty then some (p.awake b stop w) else some (p.goto w .deciding)
      else none
    | _ => none
  | .block =>
    match p.workers[w]? with
    | some .deciding => some (p.goto w .parked)
    | _ => none

/-- All that are blocked wake up. -/
def notifyAll (p : Pool α) : Pool α :=
  { p with workers := p.workers.map Worker.notified }

variable {b : Backend} {stop : Bool} {p p' : Pool α} {w : ℕ} {l : Move} {a a' : Worker α}

theorem deciding_not_mem (h : p.free = true) : .deciding ∉ p.workers := by
  intro hmem
  have hno := List.all_eq_true.1 h _ hmem
  cases hno

/-- After a try that has brought nothing. -/
theorem next_turn (spin : ℕ) : (Worker.looking (spin + 1) : Worker α).item = none ∧
    ((.looking (spin + 1) : Worker α) = .parked → (.trying spin : Worker α) = .deciding) ∧
    ((.looking (spin + 1) : Worker α) = .deciding → stop = false ∧ p.queue = []) ∧
    ((.looking (spin + 1) : Worker α) = .exited → stop = true) ∧
    (Worker.looking (spin + 1) : Worker α).budget < (Worker.trying spin : Worker α).budget := by
  refine ⟨rfl, fun h => (by cases h), fun h => (by cases h), fun h => (by cases h), ?_⟩
  simp only [Worker.budget]
  omega

/-- **What a move can do**: the worker goes on without an item, or it takes the oldest one. -/
theorem move_cases (h : p.move b stop w l = some p') :
    ∃ a, p.workers[w]? = some a ∧ a.item = none ∧
      ((∃ a', p' = p.goto w a' ∧ a'.item = none ∧ (a' = .parked → a = .deciding) ∧
          (a' = .deciding → stop = false ∧ p.queue = []) ∧ (a' = .exited → stop = true) ∧
          a'.budget < a.budget) ∨
        ∃ x rest, p.queue = x :: rest ∧ p' = p.take w x rest ∧ p.free = true) := by
  cases l with
  | peek =>
    simp only [move] at h
    split at h
    · rename_i spin hw
      cases h
      refine ⟨_, hw, rfl, .inl ⟨_, rfl, ?_⟩⟩
      cases stop <;> simp [Worker.item, Worker.budget] <;> omega
    · rename_i spin hw
      cases h
      refine ⟨_, hw, rfl, .inl ⟨_, rfl, ?_⟩⟩
      split
      · simp [Worker.item, Worker.budget]
        omega
      · rename_i hspin
        split <;> simp [Worker.item, Worker.budget] <;> omega
    · cases h
  | tryLock ok =>
    simp only [move] at h
    split at h
    · rename_i spin hw
      split at h
      · split at h
        · rename_i hfree
          split at h
          · cases h
            exact ⟨_, hw, rfl, .inl ⟨_, rfl, next_turn spin⟩⟩
          · rename_i x rest hq
            cases h
            exact ⟨_, hw, rfl, .inr ⟨x, rest, hq, rfl, hfree⟩⟩
        · cases h
      · cases h
        exact ⟨_, hw, rfl, .inl ⟨_, rfl, next_turn spin⟩⟩
    · cases h
  | evaluate =>
    simp only [move] at h
    split at h
    · rename_i hw
      split at h
      · rename_i hfree
        split at h
        · rename_i hpred
          cases h
          unfold awake
          cases hq : p.queue with
          | nil =>
            refine ⟨_, hw, rfl, .inl ⟨_, rfl, ?_⟩⟩
            simpa [Worker.item, Worker.budget, hq] using hpred
          | cons x rest =>
            by_cases hcuda : b = .cuda ∧ stop = true
            · refine ⟨_, hw, rfl, .inl ⟨.exited, by simp [hcuda], ?_⟩⟩
              simp [Worker.item, Worker.budget, hcuda.2]
            · exact ⟨_, hw, rfl, .inr ⟨x, rest, rfl, by simp [hcuda], hfree⟩⟩
        · rename_i hpred
          cases h
          refine ⟨_, hw, rfl, .inl ⟨_, rfl, ?_⟩⟩
          simpa [Worker.item, Worker.budget] using hpred
      · cases h
    · cases h
  | block =>
    simp only [move] at h
    split at h
    · rename_i hw
      cases h
      exact ⟨_, hw, rfl, .inl ⟨_, rfl, by simp [Worker.item, Worker.budget]⟩⟩
    · cases h

/-! ## Who is blocked will not be missed -/

/-- What holds of a pool; `running` until the shutdown begins, `notified` when it has notified the
pool, and `owed` while somebody who has queued items has still to notify. -/
structure Ok (stop : Bool) (running notified owed : Prop) (p : Pool α) : Prop where
  /-- Who has seen the queue empty keeps the mutex until it is blocked. -/
  deciding : .deciding ∈ p.workers → p.queue = []
  exited : .exited ∈ p.workers → stop = true
  staffed : running → p.spawned = true → p.workers ≠ []
  unstaffed : p.spawned = false → p.workers = []
  queued : p.queue ≠ [] → p.spawned = true
  /-- A worker that is not blocked will look at the queue. -/
  served : running → p.queue ≠ [] → (∃ a ∈ p.workers, a ≠ .parked) ∨ owed
  woken : notified → .parked ∉ p.workers ∧ .deciding ∉ p.workers

variable {running notified owed running' notified' owed' : Prop} {x : α} {rest items : List α}

theorem Ok.init : Ok false running False owed (init : Pool α) :=
  ⟨fun h => (by cases h), fun h => (by cases h), fun _ h => (by cases h), fun _ => rfl,
    fun h => absurd rfl h, fun _ h => absurd rfl h, fun h => h.elim⟩

theorem mem_goto (c : Worker α) : c ∈ (p.goto w a').workers → c ∈ p.workers ∨ c = a' :=
  fun hc => List.mem_or_eq_of_mem_set hc

theorem self_mem_goto (hw : p.workers[w]? = some a) : a' ∈ (p.goto w a').workers :=
  List.mem_set (List.getElem?_eq_some_iff.1 hw).1 _

theorem Ok.spawned (h : Ok stop running notified owed p) (hw : p.workers[w]? = some a) :
    p.spawned = true := by
  by_contra hno
  rw [h.unstaffed (by simpa using hno)] at hw
  cases hw

/-- **A worker goes on without taking an item.** -/
theorem Ok.goto (h : Ok stop running notified owed p) (hnotified : notified → stop = true)
    (hw : p.workers[w]? = some a) (hparked : a' = .parked → a = .deciding)
    (hdeciding : a' = .deciding → stop = false ∧ p.queue = [])
    (hexited : a' = .exited → stop = true) : Ok stop running notified owed (p.goto w a') := by
  have hmem := List.mem_of_getElem? hw
  refine ⟨fun hd => ?_, fun he => ?_, fun hr hs => ?_,
    fun hs => absurd ((h.spawned hw).symm.trans hs) (by decide), h.queued, fun hr hq => ?_,
    fun hn => ?_⟩
  · rcases mem_goto _ hd with hd | hd
    · exact h.deciding hd
    · exact (hdeciding hd.symm).2
  · rcases mem_goto _ he with he | he
    · exact h.exited he
    · exact hexited he.symm
  · exact List.ne_nil_of_mem (self_mem_goto hw)
  · refine .inl ⟨a', self_mem_goto hw, fun hpark => hq ?_⟩
    -- who blocks has seen the queue empty
    exact h.deciding (hparked hpark ▸ hmem)
  · obtain ⟨hnp, hnd⟩ := h.woken hn
    constructor
    · intro hp
      rcases mem_goto _ hp with hp | hp
      · exact hnp hp
      · exact hnd (hparked hp.symm ▸ hmem)
    · intro hd
      rcases mem_goto _ hd with hd | hd
      · exact hnd hd
      · have hrun := (hdeciding hd.symm).1
        rw [hnotified hn] at hrun
        cases hrun

/-- **A worker takes the oldest item.** -/
theorem Ok.take (h : Ok stop running notified owed p) (hw : p.workers[w]? = some a)
    (hq : p.queue = x :: rest) (hfree : p.free = true) :
    Ok stop running notified owed (p.take w x rest) := by
  have hself : .holding x ∈ (p.take w x rest).workers :=
    List.mem_set (List.getElem?_eq_some_iff.1 hw).1 _
  have hne : p.queue ≠ [] := by
    rw [hq]
    exact List.cons_ne_nil x rest
  refine ⟨fun hd => ?_, fun he => ?_, fun _ _ => List.ne_nil_of_mem hself,
    fun hs => absurd ((h.spawned hw).symm.trans hs) (by decide), fun _ => h.queued hne,
    fun _ _ => .inl ⟨_, hself, by simp⟩, fun hn => ?_⟩
  · rcases List.mem_or_eq_of_mem_set hd with hd | hd
    · exact absurd hd (deciding_not_mem hfree)
    · cases hd
  · rcases List.mem_or_eq_of_mem_set he with he | he
    · exact h.exited he
    · cases he
  · obtain ⟨hnp, hnd⟩ := h.woken hn
    constructor
    · intro hp
      rcases List.mem_or_eq_of_mem_set hp with hp | hp
      · exact hnp hp
      · cases hp
    · intro hd
      rcases List.mem_or_eq_of_mem_set hd with hd | hd
      · exact hnd hd
      · cases hd

theorem Ok.move (h : Ok stop running notified owed p) (hnotified : notified → stop = true)
    (hmove : p.move b stop w l = some p') : Ok stop running notified owed p' := by
  obtain ⟨a, hw, _, ⟨a', rfl, _, hparked, hdeciding, hexited, _⟩ | ⟨x, rest, hq, rfl, hfree⟩⟩ :=
    move_cases hmove
  · exact h.goto hnotified hw hparked hdeciding hexited
  · exact h.take hw hq hfree

/-- What the pool owes, and how far the engine is, may change. -/
theorem Ok.mono (h : Ok stop running notified owed p) (hrunning : running' → running)
    (hnotified : notified' → notified) (howed : owed → owed') :
    Ok stop running' notified' owed' p :=
  ⟨h.deciding, h.exited, fun hr => h.staffed (hrunning hr), h.unstaffed, h.queued,
    fun hr hq => (h.served (hrunning hr) hq).imp_right howed, fun hn => h.woken (hnotified hn)⟩

/-- Items are queued, by somebody who will notify. -/
theorem Ok.push (h : Ok stop running notified owed p) (hfree : p.free = true)
    (hspawned : p.spawned = true) (howed : owed') :
    Ok stop running notified owed' { p with queue := p.queue ++ items } :=
  ⟨fun hd => absurd hd (deciding_not_mem hfree), h.exited, h.staffed, h.unstaffed,
    fun _ => hspawned, fun _ _ => .inr howed, h.woken⟩

/-- One notification is done; a worker wakes up, or none is blocked. -/
theorem Ok.notifyNone (h : Ok stop running notified owed p) (hspawned : p.spawned = true)
    (hno : .parked ∉ p.workers) : Ok stop running notified owed' p := by
  refine ⟨h.deciding, h.exited, h.staffed, h.unstaffed, h.queued, fun hr _ => .inl ?_, h.woken⟩
  obtain ⟨a, rest, ha⟩ := List.exists_cons_of_ne_nil (h.staffed hr hspawned)
  have hmem : a ∈ p.workers := by
    rw [ha]
    exact List.mem_cons_self
  exact ⟨a, hmem, fun hp => hno (hp ▸ hmem)⟩

theorem Ok.notifyOne (h : Ok stop running notified owed p) (hnotified : notified → stop = true)
    (hw : p.workers[w]? = some .parked) : Ok stop running notified owed' (p.goto w .locking) := by
  have hgoto : Ok stop running notified owed (p.goto w .locking) :=
    h.goto hnotified hw (by simp) (by simp) (by simp)
  exact ⟨hgoto.deciding, hgoto.exited, hgoto.staffed, hgoto.unstaffed, hgoto.queued,
    fun _ _ => .inl ⟨_, self_mem_goto hw, by simp⟩, hgoto.woken⟩

theorem mem_notifyAll {c : Worker α} (hc : c ∈ p.notifyAll.workers) :
    c ≠ .parked ∧ (c ∈ p.workers ∨ c = .locking) := by
  obtain ⟨a, ha, rfl⟩ := List.mem_map.1 hc
  cases a with
  | parked => exact ⟨by simp [Worker.notified], .inr rfl⟩
  | looking | trying | locking | deciding | holding | copied | exited =>
    exact ⟨by simp [Worker.notified], .inl ha⟩

/-- **All blocked workers are woken**, and none is about to block. -/
theorem Ok.notifyAll (h : Ok stop running notified owed p) (hspawned : running → p.spawned = true)
    (hno : notified' → .deciding ∉ p.workers) : Ok stop running notified' owed' p.notifyAll := by
  have hback : ∀ c : Worker α, c ≠ .locking → c ∈ p.notifyAll.workers → c ∈ p.workers :=
    fun c hl hc => (mem_notifyAll hc).2.resolve_right hl
  refine ⟨fun hd => h.deciding (hback _ (by simp) hd), fun he => h.exited (hback _ (by simp) he),
    fun hr hs => ?_, fun hs => ?_, h.queued, fun hr _ => .inl ?_,
    fun hn => ⟨fun hp => ?_, fun hd => ?_⟩⟩
  · simpa [Pool.notifyAll] using h.staffed hr hs
  · simpa [Pool.notifyAll] using h.unstaffed hs
  · have hne : p.notifyAll.workers ≠ [] := by
      simpa [Pool.notifyAll] using h.staffed hr (hspawned hr)
    obtain ⟨a, rest, ha⟩ := List.exists_cons_of_ne_nil hne
    have hmem : a ∈ p.notifyAll.workers := by
      rw [ha]
      exact List.mem_cons_self
    exact ⟨a, hmem, (mem_notifyAll hmem).1⟩
  · exact (mem_notifyAll hp).1 rfl
  · exact hno hn (hback _ (by simp) hd)

/-- The workers are created. -/
theorem Ok.spawn {n : ℕ} (hn : 0 < n) (hqueue : p.queue = []) :
    Ok stop running notified owed
      { p with workers := List.replicate n (.looking 0), spawned := true } := by
  have hback : ∀ c : Worker α, c ∈ List.replicate n (Worker.looking 0) → c = .looking 0 :=
    fun c hc => List.eq_of_mem_replicate hc
  refine ⟨fun _ => hqueue, fun he => (by cases hback _ he), fun _ _ => ?_, fun hs => (by cases hs),
    fun hq => absurd hqueue hq, fun _ hq => absurd hqueue hq,
    fun _ => ⟨fun hp => (by cases hback _ hp), fun hd => (by cases hback _ hd)⟩⟩
  simpa using Nat.ne_of_gt hn

/-- A worker that is neither blocked nor gone can take a step, where the mutex is free or it holds
it. -/
theorem exists_move (b : Backend) (stop : Bool) (hw : p.workers[w]? = some a) (hitem : a.item = none)
    (hparked : a ≠ .parked) (hexited : a ≠ .exited) (hfree : p.free = true ∨ a = .deciding) :
    ∃ l, (p.move b stop w l).isSome = true := by
  cases a with
  | looking spin =>
    refine ⟨.peek, ?_⟩
    cases b <;> simp [Pool.move, hw]
  | trying spin => exact ⟨.tryLock false, by simp [Pool.move, hw]⟩
  | locking =>
    refine ⟨.evaluate, ?_⟩
    have hfree := hfree.resolve_right (by simp)
    simp only [Pool.move, hw, hfree, if_true]
    split <;> rfl
  | deciding => exact ⟨.block, by simp [Pool.move, hw]⟩
  | parked => exact absurd rfl hparked
  | exited => exact absurd rfl hexited
  | holding x => cases hitem
  | copied x => cases hitem

/-! ## Where an item is -/

section Items

variable [DecidableEq α] {f : α → Bool} {y : α}

/-- How often an item is queued, or taken and not copied yet. -/
def tally (p : Pool α) (y : α) : ℕ := p.queue.count y + p.workers.count (.holding y)

/-- How many of the pool's items are not done with. -/
def pending (p : Pool α) (f : α → Bool) : ℕ :=
  p.queue.countP f + p.workers.countP (Worker.worksOn f)

theorem tally_goto (hw : p.workers[w]? = some a) (ha : a ≠ .holding y) (ha' : a' ≠ .holding y) :
    (p.goto w a').tally y = p.tally y := by
  have hcount : (p.workers.set w a').count (.holding y) + _ = _ + _ := count_set_add hw _
  rw [if_neg ha, if_neg ha'] at hcount
  exact congrArg (p.queue.count y + ·) hcount

omit [DecidableEq α] in
theorem pending_goto (hw : p.workers[w]? = some a) (hitem : a.item = a'.item) :
    (p.goto w a').pending f = p.pending f := by
  have hcount : (p.workers.set w a').countP (Worker.worksOn f) + _ = _ + _ :=
    countP_set_add hw
  have hsame : a.worksOn f = a'.worksOn f := congrArg (Option.any f) hitem
  rw [hsame] at hcount
  exact congrArg (p.queue.countP f + ·) (Nat.add_right_cancel hcount)

theorem tally_take (hw : p.workers[w]? = some a) (hitem : a.item = none)
    (hq : p.queue = x :: rest) : (p.take w x rest).tally y = p.tally y := by
  have hcount : (p.workers.set w (.holding x)).count (.holding y) + _ = _ + _ := count_set_add hw _
  rw [if_neg fun h => by rw [h] at hitem; cases hitem] at hcount
  show rest.count y + (p.workers.set w (.holding x)).count (.holding y) = _
  unfold tally
  rw [hq, List.count_cons]
  by_cases hxy : x = y
  · simp only [hxy, if_true, beq_self_eq_true] at hcount ⊢
    omega
  · simp only [Worker.holding.injEq, hxy, if_false, beq_iff_eq] at hcount ⊢
    omega

omit [DecidableEq α] in
theorem pending_take (hw : p.workers[w]? = some a) (hitem : a.item = none)
    (hq : p.queue = x :: rest) : (p.take w x rest).pending f = p.pending f := by
  have hcount : (p.workers.set w (.holding x)).countP (Worker.worksOn f) + _ = _ + _ :=
    countP_set_add hw
  have hnone : a.worksOn f = false := by
    unfold Worker.worksOn
    rw [hitem]
    rfl
  have hsome : (Worker.holding x).worksOn f = f x := rfl
  rw [hnone, hsome, if_neg Bool.false_ne_true] at hcount
  show rest.countP f + (p.workers.set w (.holding x)).countP (Worker.worksOn f) = _
  unfold pending
  rw [hq, List.countP_cons]
  omega

/-- On its way to an item a worker loses none and doubles none. -/
theorem tally_move (hmove : p.move b stop w l = some p') : p'.tally y = p.tally y := by
  obtain ⟨a, hw, hitem, ⟨a', rfl, hitem', _⟩ | ⟨x, rest, hq, rfl, _⟩⟩ := move_cases hmove
  · exact tally_goto hw (fun h => by rw [h] at hitem; cases hitem)
      fun h => by rw [h] at hitem'; cases hitem'
  · exact tally_take hw hitem hq

omit [DecidableEq α] in
theorem pending_move (hmove : p.move b stop w l = some p') : p'.pending f = p.pending f := by
  obtain ⟨a, hw, hitem, ⟨a', rfl, hitem', _⟩ | ⟨x, rest, hq, rfl, _⟩⟩ := move_cases hmove
  · exact pending_goto hw (hitem.trans hitem'.symm)
  · exact pending_take hw hitem hq

theorem tally_execute (hw : p.workers[w]? = some (.holding x)) :
    (p.goto w (.copied x)).tally y + (if x = y then 1 else 0) = p.tally y := by
  have hcount : (p.workers.set w (.copied x)).count (.holding y) + _ = _ + _ := count_set_add hw _
  simp only [Worker.holding.injEq, reduceCtorEq, if_false, Nat.add_zero] at hcount
  show p.queue.count y + (p.workers.set w (.copied x)).count (.holding y) + _ = _
  unfold tally
  omega

omit [DecidableEq α] in
theorem pending_complete (hw : p.workers[w]? = some (.copied x)) :
    (p.goto w (.looking 0)).pending f + (if f x then 1 else 0) = p.pending f := by
  have hcount : (p.workers.set w (.looking 0)).countP (Worker.worksOn f) + _ = _ + _ :=
    countP_set_add hw
  have hnone : (Worker.looking 0 : Worker α).worksOn f = false := rfl
  have hsome : (Worker.copied x).worksOn f = f x := rfl
  rw [hnone, hsome, if_neg Bool.false_ne_true] at hcount
  show p.queue.countP f + (p.workers.set w (.looking 0)).countP (Worker.worksOn f) + _ = _
  unfold pending
  omega

theorem tally_notifyAll : p.notifyAll.tally y = p.tally y := by
  refine congrArg (p.queue.count y + ·) ?_
  show (p.workers.map Worker.notified).count (.holding y) = _
  rw [List.count_eq_countP, List.count_eq_countP, List.countP_map]
  apply List.countP_congr
  intro a _
  cases a <;> exact Iff.rfl

omit [DecidableEq α] in
theorem pending_notifyAll : p.notifyAll.pending f = p.pending f := by
  refine congrArg (p.queue.countP f + ·) ?_
  show (p.workers.map Worker.notified).countP _ = _
  rw [List.countP_map]
  apply List.countP_congr
  intro a _
  cases a <;> exact Iff.rfl

end Items

/-! ## The steps that are left -/

/-- How many steps the workers of a pool can take, at most, when nobody queues an item or notifies. -/
def budget (p : Pool α) : ℕ := 4010 * p.queue.length + (p.workers.map Worker.budget).sum

theorem budget_goto (a' : Worker α) (hw : p.workers[w]? = some a) :
    (p.goto w a').budget + a.budget = p.budget + a'.budget := by
  have hsum : ((p.workers.set w a').map Worker.budget).sum + _ = _ + _ :=
    sum_map_set_add Worker.budget hw
  show 4010 * p.queue.length + ((p.workers.set w a').map Worker.budget).sum + _ = _
  unfold budget
  omega

/-- **A move uses a step up.** -/
theorem budget_move (hmove : p.move b stop w l = some p') : p'.budget < p.budget := by
  obtain ⟨a, hw, _, ⟨a', rfl, _, _, _, _, hlt⟩ | ⟨x, rest, hq, rfl, _⟩⟩ := move_cases hmove
  · have hgoto := budget_goto a' hw
    omega
  · have hsum : ((p.workers.set w (.holding x)).map Worker.budget).sum + _ = _ + _ :=
      sum_map_set_add Worker.budget hw
    show 4010 * rest.length + ((p.workers.set w (.holding x)).map Worker.budget).sum < _
    unfold budget
    rw [hq, List.length_cons]
    have hholding : (Worker.holding x).budget = 4006 := rfl
    omega

/-- Two steps for each of the workers that wake up. -/
theorem budget_notifyAll : p.notifyAll.budget ≤ p.budget + 2 * p.workers.length := by
  have hsum : ∀ ws : List (Worker α), ((ws.map Worker.notified).map Worker.budget).sum ≤
      (ws.map Worker.budget).sum + 2 * ws.length := by
    intro ws
    induction ws with
    | nil => exact Nat.le_refl 0
    | cons a ws ih =>
      have hone : a.notified.budget ≤ a.budget + 2 := by
        cases a <;> simp [Worker.notified, Worker.budget]
      simp only [List.map_cons, List.sum_cons, List.length_cons]
      omega
  have hworkers := hsum p.workers
  show 4010 * p.queue.length + ((p.workers.map Worker.notified).map Worker.budget).sum ≤ _
  unfold budget
  omega

theorem length_move (hmove : p.move b stop w l = some p') :
    p'.workers.length = p.workers.length := by
  obtain ⟨a, _, _, ⟨a', rfl, _⟩ | ⟨x, rest, _, rfl, _⟩⟩ := move_cases hmove
  · exact List.length_set
  · exact List.length_set

end Pool

end HostPools
end Executor
end HyLink
