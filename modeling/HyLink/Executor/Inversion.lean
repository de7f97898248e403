import HyLink.Executor.Step

/-!
# What a step can do

The step function taken apart, once.  Every invariant of the executors is derived
from the lemmas of this module and none unfolds the step function again.

* `step_cases` — a step changes the executor of one rank and the shared words.
* `Motion.of_localStep` — what happens to the cursors and to the work in flight.
* `Fresh.of_mem_todo` — which operations a step adds to a thread's list.
* `Agenda.of_localStep` — what a step does to that list as a whole.
* `Stores.of_localStep` — which word a step stores to.
-/

namespace HyLink
namespace Executor

open Ir Compiler

section

variable {c : Cluster} {r : ℕ} {w w' : SharedWords} {e e' : Exec} {l : Label}

theorem step_cases {s s' : State} (h : c.machine.step s l = some s') :
    l.rank < c.worldSize ∧ ∃ w e, c.localStep l.rank s.words (s.execs l.rank) l = some (w, e) ∧
      s' = { words := w, execs := Function.update s.execs l.rank e } := by
  simp only [Cluster.machine, Cluster.step] at h
  split at h
  · next hr =>
    obtain ⟨we, hwe, rfl⟩ := Option.map_eq_some_iff.1 h
    exact ⟨hr, we.1, we.2, hwe, rfl⟩
  · cases h

/-! ## Label by label -/

theorem start_eq {r' : ℕ} (h : c.localStep r w e (.start r') = some (w', e')) :
    e.started = false ∧ w' = w ∧ e' = { e with started := true, todo := c.startOps r } := by
  simp only [Cluster.localStep] at h
  split at h <;> cases h
  exact ⟨by simpa using ‹¬ e.started = true›, rfl, rfl⟩

/-- A thread performs the operation at the head of its list. -/
theorem run_eq {r' : ℕ} (h : c.localStep r w e (.run r') = some (w', e')) :
    ∃ head rest, e.todo = head :: rest ∧ c.runOp r w e rest head = (w', e') := by
  simp only [Cluster.localStep] at h
  split at h
  · cases h
  · next head rest htodo => exact ⟨head, rest, htodo, Option.some.inj h⟩

theorem attempt_eq {r' i : ℕ} (h : c.localStep r w e (.attempt r' i) = some (w', e')) :
    e.idle = true ∧ e.next i < c.numSubchunks ∧ ∃ n, c.node? r i = some n ∧ w' = w ∧
      e' = { e with todo := c.attemptOps r i n (e.next i) } := by
  simp only [Cluster.localStep] at h
  split at h
  · next hcond =>
    obtain ⟨n, hn, h⟩ := Option.map_eq_some_iff.1 h
    cases h
    exact ⟨hcond.1, hcond.2, n, hn, rfl, rfl⟩
  · cases h

theorem poll_eq {r' j : ℕ} {q : Queue} (h : c.localStep r w e (.poll r' q j) = some (w', e')) :
    e.idle = true ∧ (q = .h2h ∨ j = 0) ∧ ∃ entry n, (e.inflight q)[j]? = some entry ∧
      entry.finished = true ∧ c.node? r entry.node = some n ∧ w' = w ∧
      e' = { e with
        inflight := Function.update e.inflight q ((e.inflight q).eraseIdx j)
        completed := Function.update e.completed entry.node (e.completed entry.node + 1)
        todo := publishOps n entry.sc } := by
  simp only [Cluster.localStep] at h
  split at h
  · next hcond =>
    obtain ⟨entry, hentry, h⟩ := Option.bind_eq_some_iff.1 h
    split at h
    · obtain ⟨n, hn, h⟩ := Option.map_eq_some_iff.1 h
      cases h
      exact ⟨hcond.1, hcond.2, entry, n, hentry, ‹_›, hn, rfl, rfl⟩
    · cases h
  · cases h

theorem work_eq {r' j t k : ℕ} {q : Queue}
    (h : c.localStep r w e (.work r' q j t k) = some (w', e')) :
    ∃ entry share n, (e.inflight q)[j]? = some entry ∧ entry.shares[t]? = some share ∧
      c.node? r entry.node = some n ∧ 0 < k ∧ share.pos + k ≤ share.stop ∧
      c.wholeUnits n share k = true ∧ w' = w ∧
      e' = e.updateShare q j t fun s => { s with pos := s.pos + k } := by
  simp only [Cluster.localStep] at h
  obtain ⟨entry, hentry, h⟩ := Option.bind_eq_some_iff.1 h
  obtain ⟨share, hshare, h⟩ := Option.bind_eq_some_iff.1 h
  obtain ⟨n, hn, h⟩ := Option.bind_eq_some_iff.1 h
  split at h
  · next hcond =>
    cases h
    exact ⟨entry, share, n, hentry, hshare, hn, hcond.1, hcond.2.1, hcond.2.2, rfl, rfl⟩
  · cases h

theorem count_eq {r' j t : ℕ} {q : Queue}
    (h : c.localStep r w e (.count r' q j t) = some (w', e')) :
    ∃ entry share, (e.inflight q)[j]? = some entry ∧ entry.shares[t]? = some share ∧
      share.pos = share.stop ∧ w' = w ∧
      e' = e.updateShare q j t fun s => { s with counted := true } := by
  simp only [Cluster.localStep] at h
  obtain ⟨entry, hentry, h⟩ := Option.bind_eq_some_iff.1 h
  obtain ⟨share, hshare, h⟩ := Option.bind_eq_some_iff.1 h
  split at h
  · next hcond =>
    cases h
    exact ⟨entry, share, hentry, hshare, hcond.1, rfl, rfl⟩
  · cases h

theorem todo_of_idle (h : e.idle = true) : e.todo = [] := by
  simp only [Exec.idle, Bool.and_eq_true, List.isEmpty_iff] at h
  exact h.2

theorem started_of_idle (h : e.idle = true) : e.started = true := by
  simp only [Exec.idle, Bool.and_eq_true] at h
  exact h.1.1

/-! ## Cursors and work in flight -/

/-- The slice a step publishes, with its node: that of the polled entry, or a node's
next one without any work. -/
def Exec.published (e : Exec) : Label → Option (ℕ × ℕ)
  | .poll _ q j => (e.inflight q)[j]?.map fun entry => (entry.node, entry.sc)
  | .run _ =>
      match e.todo.head? with
      | some (.finishNow i) => some (i, e.next i)
      | _ => none
  | _ => none

theorem published_run {r' : ℕ} {op : Op} (hhead : e.todo.head? = some op)
    (hop : ∀ i, op ≠ .finishNow i) : e.published (.run r') = none := by
  simp only [Exec.published, hhead]
  split
  · next i heq => exact absurd (Option.some.inj heq) (hop i)
  · rfl

/-- What a step does to the subchunk cursors and the queues of an executor. -/
inductive Motion (c : Cluster) (r : ℕ) (e e' : Exec) : Label → Prop
  | still {l : Label} (hnext : e'.next = e.next) (hcompleted : e'.completed = e.completed)
      (hinflight : e'.inflight = e.inflight)
      (hquiet : ∀ i sc n, e.published l = some (i, sc) → c.node? r i ≠ some n) :
      Motion c r e e' l
  | finish {r' i : ℕ} {n : InstructionNode} (hhead : e.todo.head? = some (.finishNow i))
      (hnode : c.node? r i = some n)
      (hnext : e'.next = Function.update e.next i (e.next i + 1))
      (hcompleted : e'.completed = Function.update e.completed i (e.completed i + 1))
      (hinflight : e'.inflight = e.inflight) (htodo : e'.todo = publishOps n (e.next i)) :
      Motion c r e e' (.run r')
  | push {r' i : ℕ} {n : InstructionNode}
      (hhead : e.todo.head? = some (.submitH2h i) ∨ e.todo.head? = some (.recordDma i))
      (hnode : c.node? r i = some n)
      (hnext : e'.next = Function.update e.next i (e.next i + 1))
      (hcompleted : e'.completed = e.completed)
      (hinflight : e'.inflight = Function.update e.inflight (queueOf n)
        (e.inflight (queueOf n) ++
          [⟨i, e.next i, c.sharesOf n (c.subchunkSize n (e.next i))⟩]))
      (htodo : e'.todo = []) : Motion c r e e' (.run r')
  | poll {r' : ℕ} {q : Queue} {j : ℕ} {entry : Inflight} {n : InstructionNode}
      (hidle : e.idle = true) (hq : q = .h2h ∨ j = 0)
      (hentry : (e.inflight q)[j]? = some entry) (hfinished : entry.finished = true)
      (hnode : c.node? r entry.node = some n)
      (hnext : e'.next = e.next)
      (hcompleted : e'.completed =
        Function.update e.completed entry.node (e.completed entry.node + 1))
      (hinflight : e'.inflight = Function.update e.inflight q ((e.inflight q).eraseIdx j))
      (htodo : e'.todo = publishOps n entry.sc) :
      Motion c r e e' (.poll r' q j)
  | work {r' : ℕ} {q : Queue} {j t k : ℕ} {entry : Inflight} {n : InstructionNode} {share : Share}
      (hentry : (e.inflight q)[j]? = some entry) (hshare : entry.shares[t]? = some share)
      (hnode : c.node? r entry.node = some n) (hpos : 0 < k) (hle : share.pos + k ≤ share.stop)
      (hunits : c.wholeUnits n share k = true)
      (he : e' = e.updateShare q j t fun s => { s with pos := s.pos + k }) :
      Motion c r e e' (.work r' q j t k)
  | count {r' : ℕ} {q : Queue} {j t : ℕ} {entry : Inflight} {share : Share}
      (hentry : (e.inflight q)[j]? = some entry) (hshare : entry.shares[t]? = some share)
      (hpos : share.pos = share.stop)
      (he : e' = e.updateShare q j t fun s => { s with counted := true }) :
      Motion c r e e' (.count r' q j t)

theorem Motion.of_localStep (h : c.localStep r w e l = some (w', e')) : Motion c r e e' l := by
  cases l with
  | start r' =>
    obtain ⟨-, -, rfl⟩ := start_eq h
    exact .still rfl rfl rfl fun _ _ _ hpub => by simp [Exec.published] at hpub
  | run r' =>
    obtain ⟨op, rest, htodo, h⟩ := run_eq h
    have hhead : e.todo.head? = some op := by rw [htodo]; rfl
    have quiet : (∀ i, op ≠ .finishNow i) → ∀ i sc n, e.published (.run r') = some (i, sc) →
        c.node? r i ≠ some n := fun hop i sc n hpub => by
      rw [published_run hhead hop] at hpub; cases hpub
    cases op with
    | finishNow i =>
      simp only [Cluster.runOp] at h
      split at h <;> cases h
      · refine .still rfl rfl rfl fun j sc n hpub hn => ?_
        simp only [Exec.published, hhead, Option.some.injEq, Prod.mk.injEq] at hpub
        rw [← hpub.1] at hn
        simp_all
      · exact .finish hhead ‹_› rfl rfl rfl rfl
    | submitH2h i =>
      simp only [Cluster.runOp] at h
      split at h
      · cases h; exact .still rfl rfl rfl (quiet (by nofun))
      · split at h <;> cases h
        · exact .still rfl rfl rfl (quiet (by nofun))
        · exact .push (Or.inl hhead) ‹_› rfl rfl rfl rfl
    | recordDma i =>
      simp only [Cluster.runOp] at h
      split at h <;> cases h
      · exact .still rfl rfl rfl (quiet (by nofun))
      · exact .push (Or.inr hhead) ‹_› rfl rfl rfl rfl
    | submitDma i =>
      simp only [Cluster.runOp] at h
      split at h
      · cases h; exact .still rfl rfl rfl (quiet (by nofun))
      · split at h
        · cases h; exact .still rfl rfl rfl (quiet (by nofun))
        · split at h
          · split at h <;> cases h <;> exact .still rfl rfl rfl (quiet (by nofun))
          · cases h; exact .still rfl rfl rfl (quiet (by nofun))
    | advanceReaderDone key id value =>
      simp only [Cluster.runOp] at h
      split at h <;> cases h <;> exact .still rfl rfl rfl (quiet (by nofun))
    | _ => cases h; exact .still rfl rfl rfl (quiet (by nofun))
  | attempt r' i =>
    obtain ⟨hidle, hlt, n, hn, rfl, rfl⟩ := attempt_eq h
    exact .still rfl rfl rfl fun _ _ _ hpub => by simp [Exec.published] at hpub
  | poll r' q j =>
    obtain ⟨hidle, hq, entry, n, hentry, hfinished, hn, rfl, rfl⟩ := poll_eq h
    exact .poll hidle hq hentry hfinished hn rfl rfl rfl rfl
  | work r' q j t k =>
    obtain ⟨entry, share, n, hentry, hshare, hn, hpos, hle, hunits, rfl, rfl⟩ := work_eq h
    exact .work hentry hshare hn hpos hle hunits rfl
  | count r' q j t =>
    obtain ⟨entry, share, hentry, hshare, hpos, rfl, rfl⟩ := count_eq h
    exact .count hentry hshare hpos rfl

/-! ## New operations -/

/-- The operations a step adds to a thread's list, with what the step has found
out when it adds them. -/
inductive Fresh (c : Cluster) (r : ℕ) (w : SharedWords) (e : Exec) : Label → Op → Prop
  | start {r' : ℕ} {op : Op} (hop : op ∈ c.startOps r) : Fresh c r w e (.start r') op
  | attempt {r' i : ℕ} {n : InstructionNode} {op : Op} (hidle : e.idle = true)
      (hlt : e.next i < c.numSubchunks) (hnode : c.node? r i = some n)
      (hop : op ∈ c.attemptOps r i n (e.next i)) : Fresh c r w e (.attempt r' i) op
  | poll {r' : ℕ} {q : Queue} {j : ℕ} {entry : Inflight} {n : InstructionNode} {op : Op}
      (hq : q = .h2h ∨ j = 0) (hentry : (e.inflight q)[j]? = some entry)
      (hfinished : entry.finished = true) (hnode : c.node? r entry.node = some n)
      (hop : op ∈ publishOps n entry.sc) : Fresh c r w e (.poll r' q j) op
  | finish {r' i : ℕ} {n : InstructionNode} {op : Op}
      (hhead : e.todo.head? = some (.finishNow i)) (hnode : c.node? r i = some n)
      (hop : op ∈ publishOps n (e.next i)) : Fresh c r w e (.run r') op
  | scan {r' id value : ℕ} {key : ProgressKey}
      (hhead : e.todo.head? = some (.advanceReaderDone key id value)) :
      Fresh c r w e (.run r') (.scanReaders key 0 value)
  | scanReader {r' i minRd : ℕ} {key : ProgressKey}
      (hhead : e.todo.head? = some (.scanReaders key i minRd)) (hlt : i < w.getNumReaders key) :
      Fresh c r w e (.run r') (.scanReader key i minRd)
  | scanEnd {r' i minRd : ℕ} {key : ProgressKey}
      (hhead : e.todo.head? = some (.scanReaders key i minRd)) (hle : w.getNumReaders key ≤ i) :
      Fresh c r w e (.run r') (.raiseConsumeProgress key minRd)
  | scanNext {r' i minRd : ℕ} {key : ProgressKey}
      (hhead : e.todo.head? = some (.scanReader key i minRd)) :
      Fresh c r w e (.run r') (.scanReaders key (i + 1) (min minRd (w.getReaderDone i key)))
  | consume {r' value : ℕ} {key : ProgressKey}
      (hhead : e.todo.head? = some (.loadNumReaders key value)) (hne : w.getNumReaders key ≠ 0) :
      Fresh c r w e (.run r') (.loadConsumeProgress key value)
  | samePlace {r' i : ℕ} {n : InstructionNode} (hhead : e.todo.head? = some (.submitDma i))
      (hnode : c.node? r i = some n) (hop : n.op = .d2d ∧ n.d2dPlacement = .local) :
      Fresh c r w e (.run r') (.finishNow i)
  | record {r' i : ℕ} {n : InstructionNode} {op : Op}
      (hhead : e.todo.head? = some (.submitDma i)) (hnode : c.node? r i = some n)
      (hop : op ∈ remoteReady n ++ [.recordDma i]) : Fresh c r w e (.run r') op

theorem Fresh.of_mem_todo (h : c.localStep r w e l = some (w', e')) {op : Op}
    (hop : op ∈ e'.todo) : op ∈ e.todo ∨ Fresh c r w e l op := by
  cases l with
  | start r' =>
    obtain ⟨hstarted, rfl, rfl⟩ := start_eq h
    exact Or.inr (.start hop)
  | run r' =>
    obtain ⟨head, rest, htodo, h⟩ := run_eq h
    have hhead : e.todo.head? = some head := by rw [htodo]; rfl
    have hrest : ∀ x ∈ rest, x ∈ e.todo := fun x hx => by
      rw [htodo]; exact List.mem_cons_of_mem _ hx
    cases head with
    | advanceReaderDone key id value =>
      simp only [Cluster.runOp] at h
      split at h <;> cases h
      · exact Or.inl (hrest _ hop)
      · rcases List.mem_cons.1 hop with rfl | hop
        · exact Or.inr (.scan hhead)
        · exact Or.inl (hrest _ hop)
    | scanReaders key i minRd =>
      cases h
      rcases List.mem_cons.1 hop with rfl | hop
      · split
        · exact Or.inr (.scanReader hhead ‹_›)
        · exact Or.inr (.scanEnd hhead (Nat.le_of_not_lt ‹_›))
      · exact Or.inl (hrest _ hop)
    | scanReader key i minRd =>
      cases h
      rcases List.mem_cons.1 hop with rfl | hop
      · exact Or.inr (.scanNext hhead)
      · exact Or.inl (hrest _ hop)
    | loadWriteProgress key value =>
      cases h
      simp only at hop
      split at hop
      · exact Or.inl (hrest _ hop)
      · cases hop
    | loadNumReaders key value =>
      cases h
      simp only at hop
      split at hop
      · exact Or.inl (hrest _ hop)
      · rcases List.mem_cons.1 hop with rfl | hop
        · exact Or.inr (.consume hhead ‹_›)
        · exact Or.inl (hrest _ hop)
    | loadConsumeProgress key value =>
      cases h
      simp only at hop
      split at hop
      · exact Or.inl (hrest _ hop)
      · cases hop
    | loadUserReady rank =>
      cases h
      simp only at hop
      split at hop
      · exact Or.inl (hrest _ hop)
      · cases hop
    | finishNow i =>
      simp only [Cluster.runOp] at h
      split at h <;> cases h
      · cases hop
      · exact Or.inr (.finish hhead ‹_› hop)
    | submitH2h i =>
      simp only [Cluster.runOp] at h
      split at h
      · cases h; cases hop
      · split at h <;> cases h <;> cases hop
    | submitDma i =>
      simp only [Cluster.runOp] at h
      split at h
      · cases h; cases hop
      · split at h
        · cases h; cases hop
        · split at h
          · split at h <;> cases h
            · next hcond =>
              rw [List.mem_singleton] at hop
              subst hop
              exact Or.inr (.samePlace hhead ‹_› ⟨hcond.1, hcond.2.1⟩)
            · exact Or.inr (.record hhead ‹_› hop)
          · cases h; cases hop
    | recordDma i =>
      simp only [Cluster.runOp] at h
      split at h <;> cases h <;> cases hop
    | _ => cases h; exact Or.inl (hrest _ hop)
  | attempt r' i =>
    obtain ⟨hidle, hlt, n, hn, rfl, rfl⟩ := attempt_eq h
    exact Or.inr (.attempt hidle hlt hn hop)
  | poll r' q j =>
    obtain ⟨hidle, hq, entry, n, hentry, hfinished, hn, rfl, rfl⟩ := poll_eq h
    exact Or.inr (.poll hq hentry hfinished hn hop)
  | work r' q j t k =>
    obtain ⟨entry, share, n, hentry, hshare, hn, hpos, hle, hunits, rfl, rfl⟩ := work_eq h
    exact Or.inl hop
  | count r' q j t =>
    obtain ⟨entry, share, hentry, hshare, hpos, rfl, rfl⟩ := count_eq h
    exact Or.inl hop

/-! ## The list as a whole -/

/-- The operations of `advanceReaderDone`. -/
def Op.scans : Op → Bool
  | .advanceReaderDone .. | .scanReaders .. | .scanReader .. | .raiseConsumeProgress .. => true
  | _ => false

/-- What a thread is at. -/
inductive Stage
  | start
  | attempt
  | publish
  deriving DecidableEq

def Op.stage : Op → Stage
  | .setNumReaders .. | .publishUserReady | .setWriteProgress .. => .start
  | .advanceWriteProgress .. | .advanceReaderDone .. | .scanReaders .. | .scanReader ..
  | .raiseConsumeProgress .. => .publish
  | _ => .attempt

/-- The condition under which a thread goes on after an operation. -/
def Op.Passes (w : SharedWords) : Op → Prop
  | .loadWriteProgress key value => value ≤ w.getWriteProgress key
  | .loadNumReaders key _ => w.getNumReaders key = 0
  | .loadConsumeProgress key value => value ≤ w.getConsumeProgress key
  | .loadUserReady rank => w.userReady rank = true
  | .finishNow _ | .submitH2h _ | .submitDma _ | .recordDma _ => False
  | _ => True

/-- What a step does to a thread's list of operations. -/
inductive Agenda (c : Cluster) (r : ℕ) (w : SharedWords) (e e' : Exec) : Label → Prop
  | same {l : Label} (htodo : e'.todo = e.todo) : Agenda c r w e e' l
  | clear {l : Label} {head : Op} (hhead : e.todo.head? = some head)
      (hstage : head.stage = .attempt) (htodo : e'.todo = []) : Agenda c r w e e' l
  | start {r' : ℕ} (hstarted : e.started = false) (htodo : e'.todo = c.startOps r) :
      Agenda c r w e e' (.start r')
  | attempt {r' i : ℕ} {n : InstructionNode} (hidle : e.idle = true)
      (hlt : e.next i < c.numSubchunks) (hnode : c.node? r i = some n)
      (htodo : e'.todo = c.attemptOps r i n (e.next i)) : Agenda c r w e e' (.attempt r' i)
  | publish {l : Label} {n : InstructionNode} {sc : ℕ}
      (hhead : e.idle = true ∨ ∃ i, e.todo.head? = some (.finishNow i))
      (htodo : e'.todo = publishOps n sc) : Agenda c r w e e' l
  | pass {r' : ℕ} {head : Op} {rest : List Op} (htodo₀ : e.todo = head :: rest)
      (hpass : head.Passes w) (htodo : e'.todo = rest) : Agenda c r w e e' (.run r')
  | scan {r' : ℕ} {head op : Op} {rest : List Op} (htodo₀ : e.todo = head :: rest)
      (hhead : head.scans = true) (hop : op.scans = true) (htodo : e'.todo = op :: rest) :
      Agenda c r w e e' (.run r')
  | consume {r' value : ℕ} {key : ProgressKey} {rest : List Op}
      (htodo₀ : e.todo = .loadNumReaders key value :: rest)
      (htodo : e'.todo = .loadConsumeProgress key value :: rest) : Agenda c r w e e' (.run r')
  | samePlace {r' i : ℕ} (hhead : e.todo.head? = some (.submitDma i))
      (htodo : e'.todo = [.finishNow i]) : Agenda c r w e e' (.run r')
  | record {r' i : ℕ} {n : InstructionNode} (hhead : e.todo.head? = some (.submitDma i))
      (hnode : c.node? r i = some n) (htodo : e'.todo = remoteReady n ++ [.recordDma i]) :
      Agenda c r w e e' (.run r')

theorem Agenda.of_localStep (h : c.localStep r w e l = some (w', e')) : Agenda c r w e e' l := by
  cases l with
  | start r' =>
    obtain ⟨hstarted, rfl, rfl⟩ := start_eq h
    exact .start hstarted rfl
  | run r' =>
    obtain ⟨head, rest, htodo, h⟩ := run_eq h
    have hhead : e.todo.head? = some head := by rw [htodo]; rfl
    cases head with
    | advanceReaderDone key id value =>
      simp only [Cluster.runOp] at h
      split at h <;> cases h
      · exact .pass htodo trivial rfl
      · exact .scan htodo rfl rfl rfl
    | scanReaders key i minRd =>
      cases h
      exact .scan htodo rfl (by split <;> rfl) rfl
    | scanReader key i minRd => cases h; exact .scan htodo rfl rfl rfl
    | loadWriteProgress key value =>
      simp only [Cluster.runOp] at h
      split at h <;> cases h
      · exact .pass htodo ‹_› rfl
      · exact .clear hhead rfl rfl
    | loadNumReaders key value =>
      simp only [Cluster.runOp] at h
      split at h <;> cases h
      · exact .pass htodo ‹_› rfl
      · exact .consume htodo rfl
    | loadConsumeProgress key value =>
      simp only [Cluster.runOp] at h
      split at h <;> cases h
      · exact .pass htodo ‹_› rfl
      · exact .clear hhead rfl rfl
    | loadUserReady rank =>
      simp only [Cluster.runOp] at h
      split at h <;> cases h
      · exact .pass htodo ‹_› rfl
      · exact .clear hhead rfl rfl
    | finishNow i =>
      simp only [Cluster.runOp] at h
      split at h <;> cases h
      · exact .clear hhead rfl rfl
      · exact .publish (Or.inr ⟨i, hhead⟩) rfl
    | submitH2h i =>
      simp only [Cluster.runOp] at h
      split at h
      · cases h; exact .clear hhead rfl rfl
      · split at h <;> cases h <;> exact .clear hhead rfl rfl
    | submitDma i =>
      simp only [Cluster.runOp] at h
      split at h
      · cases h; exact .clear hhead rfl rfl
      · split at h
        · cases h; exact .clear hhead rfl rfl
        · split at h
          · split at h <;> cases h
            · exact .samePlace hhead rfl
            · exact .record hhead ‹_› rfl
          · cases h; exact .clear hhead rfl rfl
    | recordDma i =>
      simp only [Cluster.runOp] at h
      split at h <;> cases h <;> exact .clear hhead rfl rfl
    | _ => cases h; exact .pass htodo trivial rfl
  | attempt r' i =>
    obtain ⟨hidle, hlt, n, hn, rfl, rfl⟩ := attempt_eq h
    exact .attempt hidle hlt hn rfl
  | poll r' q j =>
    obtain ⟨hidle, hq, entry, n, hentry, hfinished, hn, rfl, rfl⟩ := poll_eq h
    exact .publish (Or.inl hidle) rfl
  | work r' q j t k =>
    obtain ⟨entry, share, n, hentry, hshare, hn, hpos, hle, hunits, rfl, rfl⟩ := work_eq h
    exact .same rfl
  | count r' q j t =>
    obtain ⟨entry, share, hentry, hshare, hpos, rfl, rfl⟩ := count_eq h
    exact .same rfl

/-- Only a thread's own operations store to shared words. -/
theorem words_eq_or_run (h : c.localStep r w e l = some (w', e')) :
    w' = w ∨ ∃ head rest, e.todo = head :: rest ∧ c.runOp r w e rest head = (w', e') := by
  cases l with
  | start r' =>
    obtain ⟨hstarted, rfl, rfl⟩ := start_eq h
    exact Or.inl rfl
  | run r' => exact Or.inr (run_eq h)
  | attempt r' i =>
    obtain ⟨hidle, hlt, n, hn, rfl, rfl⟩ := attempt_eq h
    exact Or.inl rfl
  | poll r' q j =>
    obtain ⟨hidle, hq, entry, n, hentry, hfinished, hn, rfl, rfl⟩ := poll_eq h
    exact Or.inl rfl
  | work r' q j t k =>
    obtain ⟨entry, share, n, hentry, hshare, hn, hpos, hle, hunits, rfl, rfl⟩ := work_eq h
    exact Or.inl rfl
  | count r' q j t =>
    obtain ⟨entry, share, hentry, hshare, hpos, rfl, rfl⟩ := count_eq h
    exact Or.inl rfl

/-! ## Starting -/

/-- A rank starts once. -/
theorem started_of_localStep (h : c.localStep r w e l = some (w', e')) :
    (e'.started = e.started ∧ ∀ r', l ≠ .start r') ∨
      ∃ r', l = .start r' ∧ e.started = false ∧ e'.started = true ∧ w' = w ∧
        e'.todo = c.startOps r := by
  cases l with
  | start r' =>
    obtain ⟨hstarted, rfl, rfl⟩ := start_eq h
    exact Or.inr ⟨r', rfl, hstarted, rfl, rfl, rfl⟩
  | run r' =>
    refine Or.inl ⟨?_, nofun⟩
    obtain ⟨head, rest, -, h⟩ := run_eq h
    cases head <;> simp only [Cluster.runOp] at h <;> (repeat' split at h) <;> cases h <;> rfl
  | attempt r' i =>
    refine Or.inl ⟨?_, nofun⟩
    simp only [Cluster.localStep] at h
    split at h
    · obtain ⟨n, -, h⟩ := Option.map_eq_some_iff.1 h
      cases h
      rfl
    · cases h
  | poll r' q j =>
    refine Or.inl ⟨?_, nofun⟩
    simp only [Cluster.localStep] at h
    split at h
    · obtain ⟨entry, -, h⟩ := Option.bind_eq_some_iff.1 h
      split at h
      · obtain ⟨n, -, h⟩ := Option.map_eq_some_iff.1 h
        cases h
        rfl
      · cases h
    · cases h
  | work r' q j t k =>
    refine Or.inl ⟨?_, nofun⟩
    simp only [Cluster.localStep] at h
    obtain ⟨entry, -, h⟩ := Option.bind_eq_some_iff.1 h
    obtain ⟨share, -, h⟩ := Option.bind_eq_some_iff.1 h
    obtain ⟨n, -, h⟩ := Option.bind_eq_some_iff.1 h
    split at h <;> cases h
    rfl
  | count r' q j t =>
    refine Or.inl ⟨?_, nofun⟩
    simp only [Cluster.localStep] at h
    obtain ⟨entry, -, h⟩ := Option.bind_eq_some_iff.1 h
    obtain ⟨share, -, h⟩ := Option.bind_eq_some_iff.1 h
    split at h <;> cases h
    rfl

/-! ## Stores -/

/-- The store a step makes, if it makes one; it is the operation at the head of
the thread's list. -/
inductive Stores (w w' : SharedWords) (e : Exec) : Prop
  | none (hw : w' = w)
  | numReaders {key : ProgressKey} {count : ℕ}
      (hhead : e.todo.head? = some (.setNumReaders key count))
      (hw : w' = w.setNumReaders key count)
  | userReady {rank : ℤ} (hhead : e.todo.head? = some .publishUserReady)
      (hw : w' = w.publishUserReady rank)
  | write {key : ProgressKey} {value : ℕ}
      (hhead : e.todo.head? = some (.setWriteProgress key value))
      (hw : w' = w.setWriteProgress key value)
  | advance {key : ProgressKey} {value : ℕ}
      (hhead : e.todo.head? = some (.advanceWriteProgress key value))
      (hw : w' = w.advanceWriteProgress key value)
  | done {key : ProgressKey} {id value : ℕ}
      (hhead : e.todo.head? = some (.advanceReaderDone key id value))
      (hw : w' = w.raiseReaderDone id key value)
  | consume {key : ProgressKey} {value : ℕ}
      (hhead : e.todo.head? = some (.raiseConsumeProgress key value))
      (hw : w' = w.raiseConsumeProgress key value)

theorem Stores.of_localStep (h : c.localStep r w e l = some (w', e')) : Stores w w' e := by
  cases l with
  | start r' =>
    obtain ⟨hstarted, rfl, rfl⟩ := start_eq h
    exact .none rfl
  | run r' =>
    obtain ⟨head, rest, htodo, h⟩ := run_eq h
    have hhead : e.todo.head? = some head := by rw [htodo]; rfl
    cases head with
    | setNumReaders key count => cases h; exact .numReaders hhead rfl
    | publishUserReady => cases h; exact .userReady hhead rfl
    | setWriteProgress key value => cases h; exact .write hhead rfl
    | advanceWriteProgress key value => cases h; exact .advance hhead rfl
    | raiseConsumeProgress key value => cases h; exact .consume hhead rfl
    | advanceReaderDone key id value =>
      simp only [Cluster.runOp] at h
      split at h <;> cases h
      · exact .none rfl
      · exact .done hhead rfl
    | _ => exact .none (congrArg Prod.fst h).symm
  | attempt r' i =>
    obtain ⟨hidle, hlt, n, hn, rfl, rfl⟩ := attempt_eq h
    exact .none rfl
  | poll r' q j =>
    obtain ⟨hidle, hq, entry, n, hentry, hfinished, hn, rfl, rfl⟩ := poll_eq h
    exact .none rfl
  | work r' q j t k =>
    obtain ⟨entry, share, n, hentry, hshare, hn, hpos, hle, hunits, rfl, rfl⟩ := work_eq h
    exact .none rfl
  | count r' q j t =>
    obtain ⟨entry, share, hentry, hshare, hpos, rfl, rfl⟩ := count_eq h
    exact .none rfl

/-! ### Word by word -/

theorem Stores.writeProgress (h : Stores w w' e) (key : ProgressKey) :
    w'.getWriteProgress key = w.getWriteProgress key ∨
      ∃ k v, wordOf key = wordOf k ∧
        ((e.todo.head? = some (.setWriteProgress k v) ∧ w'.getWriteProgress key = v) ∨
          (e.todo.head? = some (.advanceWriteProgress k v) ∧
            w'.getWriteProgress key = max (w.getWriteProgress key) v)) := by
  cases h with
  | @write k v hhead hw =>
    subst hw
    by_cases hk : wordOf key = wordOf k
    · exact Or.inr ⟨k, v, hk, Or.inl ⟨hhead, by rw [getWriteProgress_set, if_pos hk]⟩⟩
    · exact Or.inl (by rw [getWriteProgress_set, if_neg hk])
  | @advance k v hhead hw =>
    subst hw
    by_cases hk : wordOf key = wordOf k
    · exact Or.inr ⟨k, v, hk, Or.inr ⟨hhead, by rw [getWriteProgress_advance, if_pos hk]⟩⟩
    · exact Or.inl (by rw [getWriteProgress_advance, if_neg hk])
  | none hw => subst hw; exact Or.inl rfl
  | numReaders _ hw => subst hw; exact Or.inl rfl
  | userReady _ hw => subst hw; exact Or.inl rfl
  | done _ hw => subst hw; exact Or.inl rfl
  | consume _ hw => subst hw; exact Or.inl rfl

theorem Stores.readerDone (h : Stores w w' e) (id : ℕ) (key : ProgressKey) :
    w'.getReaderDone id key = w.getReaderDone id key ∨
      ∃ k v, wordOf key = wordOf k ∧ e.todo.head? = some (.advanceReaderDone k id v) ∧
        w'.getReaderDone id key = max (w.getReaderDone id key) v := by
  cases h with
  | @done k id' v hhead hw =>
    subst hw
    by_cases hk : id = id' ∧ wordOf key = wordOf k
    · obtain ⟨rfl, hk⟩ := hk
      exact Or.inr ⟨k, v, hk, hhead, by rw [getReaderDone_raise, if_pos ⟨rfl, hk⟩]⟩
    · exact Or.inl (by rw [getReaderDone_raise, if_neg hk])
  | none hw => subst hw; exact Or.inl rfl
  | numReaders _ hw => subst hw; exact Or.inl rfl
  | userReady _ hw => subst hw; exact Or.inl rfl
  | write _ hw => subst hw; exact Or.inl rfl
  | advance _ hw => subst hw; exact Or.inl rfl
  | consume _ hw => subst hw; exact Or.inl rfl

theorem Stores.consumeProgress (h : Stores w w' e) (key : ProgressKey) :
    w'.getConsumeProgress key = w.getConsumeProgress key ∨
      ∃ k v, wordOf key = wordOf k ∧ e.todo.head? = some (.raiseConsumeProgress k v) ∧
        w'.getConsumeProgress key = max (w.getConsumeProgress key) v := by
  cases h with
  | @consume k v hhead hw =>
    subst hw
    by_cases hk : wordOf key = wordOf k
    · exact Or.inr ⟨k, v, hk, hhead, by rw [getConsumeProgress_raise, if_pos hk]⟩
    · exact Or.inl (by rw [getConsumeProgress_raise, if_neg hk])
  | none hw => subst hw; exact Or.inl rfl
  | numReaders _ hw => subst hw; exact Or.inl rfl
  | userReady _ hw => subst hw; exact Or.inl rfl
  | write _ hw => subst hw; exact Or.inl rfl
  | advance _ hw => subst hw; exact Or.inl rfl
  | done _ hw => subst hw; exact Or.inl rfl

theorem Stores.numReadersWord (h : Stores w w' e) (key : ProgressKey) :
    w'.getNumReaders key = w.getNumReaders key ∨
      ∃ k v, wordOf key = wordOf k ∧ e.todo.head? = some (.setNumReaders k v) ∧
        w'.getNumReaders key = v := by
  cases h with
  | @numReaders k v hhead hw =>
    subst hw
    by_cases hk : wordOf key = wordOf k
    · exact Or.inr ⟨k, v, hk, hhead, by rw [getNumReaders_set, if_pos hk]⟩
    · exact Or.inl (by rw [getNumReaders_set, if_neg hk])
  | none hw => subst hw; exact Or.inl rfl
  | userReady _ hw => subst hw; exact Or.inl rfl
  | write _ hw => subst hw; exact Or.inl rfl
  | advance _ hw => subst hw; exact Or.inl rfl
  | done _ hw => subst hw; exact Or.inl rfl
  | consume _ hw => subst hw; exact Or.inl rfl

end

end Executor
end HyLink
