import Mathlib.Data.List.Nodup
import Mathlib.Data.List.Pairwise
import Mathlib.Data.Nat.ModEq
import Mathlib.Data.Finset.Card
import Mathlib.Data.Finset.Range
import HyLink.Fastpath.Series
import HyLink.Theory.Agenda

/-!
# How far the workers of a series have come

A worker goes through the operations of one request after the other.  How many requests it has come
past an operation with is a number that never falls, and the words that the worker writes follow it.

* `Worker.passed` — requests in which the worker has gone past an operation.
* `Comm.Move` — the steps of the system, one by one.
* `Comm.Lists`, `Comm.UserTurn`, `Comm.OwnWords` — a rank's lists, its user's stream and its words.
* `Comm.Barrier` — the workers go from request to request in lock step.
-/

namespace HyLink
namespace Fastpath
namespace Series

/-! ## The order of a worker's operations -/

/-- The part of `execute` that an operation belongs to. -/
def HostOp.part : HostOp → ℕ
  | .ready => 0
  | .publishStatus => 1
  | .resolve _ => 2
  | .stage => 3
  | .own | .source _ => 4
  | .synchronize => 5
  | .arrive => 6
  | .leave => 7
  | .signal => 8
  | .finish => 9

namespace Comm

variable {V : Type} {c : Comm V} {k r : ℕ}

/-- The loops of a request, with the stream waited for unless nothing was launched on it. -/
theorem executeKind_shape (c : Comm V) (k r : ℕ) : ∃ ops last, c.executeKind k r = ops ++ last ∧
    ops.Nodup ∧ (∀ op ∈ ops, op.part = 4) ∧
      (last = [.synchronize] ∨ last = [] ∧ ∀ op ∈ ops, ∀ a, c.launched k r a op = []) := by
  have hsource : Function.Injective HostOp.source := fun a b h => by cases h; rfl
  unfold executeKind
  split
  · refine ⟨_, _, rfl, List.nodup_range.map hsource, ?_, Or.inl rfl⟩
    simp [HostOp.part]
  · next root hkind =>
    by_cases hroot : r = root ∧ c.ownInPlace k r = true
    · refine ⟨[.source root], [], by rw [executeBroadcast, if_pos hroot]; rfl,
        List.nodup_singleton _, by simp [HostOp.part], Or.inr ⟨rfl, fun op hop a => ?_⟩⟩
      rw [List.mem_singleton.1 hop]
      simp only [launched, hkind, if_pos (And.intro hroot.1.symm hroot.2)]
    · exact ⟨[.source root], [.synchronize], by rw [executeBroadcast, if_neg hroot]; rfl,
        List.nodup_singleton _, by simp [HostOp.part], Or.inl rfl⟩
  · refine ⟨_, _, rfl, ?_, ?_, Or.inl rfl⟩
    · refine List.Nodup.append ?_ (List.Nodup.map_on ?_ (List.nodup_range.filter _)) ?_
      · split <;> simp
      · intro a _ b _ hab
        split_ifs at hab <;> simp_all
      · split
        · simp
        · simp only [List.singleton_disjoint, List.mem_map, List.mem_filter, not_exists, not_and]
          rintro s ⟨-, hs⟩ heq
          split at heq
          · cases heq
          · cases heq
            simp at hs
    · intro op hop
      simp only [List.mem_append, List.mem_map] at hop
      rcases hop with hop | ⟨s, -, rfl⟩
      · split at hop <;> simp_all [HostOp.part]
      · split <;> rfl
  · refine ⟨.own :: ((List.range c.worldSize).filter fun s => s != r).map .source, _, rfl,
      List.nodup_cons.2 ⟨by simp, (List.nodup_range.filter _).map hsource⟩,
      fun op hop => ?_, Or.inl rfl⟩
    obtain rfl | ⟨s, -, rfl⟩ := List.mem_cons.1 hop |>.imp_right List.mem_map.1 <;> rfl

/-- **The operations of a request are in order, and none comes twice.** -/
theorem execute_pairwise (c : Comm V) (k r : ℕ) :
    (c.execute k r).Pairwise fun a b => a.part ≤ b.part ∧ a ≠ b := by
  obtain ⟨ops, last, hkind, hnodup, hparts, hlast⟩ := c.executeKind_shape k r
  have hops : ops.Pairwise fun a b => a.part ≤ b.part ∧ a ≠ b :=
    List.Pairwise.imp_of_mem (fun ha hb hab => ⟨by rw [hparts _ ha, hparts _ hb], hab⟩) hnodup
  have hlastMem : ∀ op ∈ last, op = .synchronize := by
    rcases hlast with rfl | ⟨rfl, -⟩ <;> simp
  have hlastPair : last.Pairwise fun a b => a.part ≤ b.part ∧ a ≠ b := by
    rcases hlast with rfl | ⟨rfl, -⟩ <;> simp
  have hkindPair : (c.executeKind k r).Pairwise fun a b => a.part ≤ b.part ∧ a ≠ b := by
    rw [hkind, List.pairwise_append]
    refine ⟨hops, hlastPair, fun a ha b hb => ?_⟩
    have h4 := hparts a ha
    rw [hlastMem b hb]
    exact ⟨by rw [h4]; decide, fun h => by subst h; cases h4⟩
  have hkindMem : ∀ op ∈ c.executeKind k r, 4 ≤ op.part ∧ op.part ≤ 5 := by
    intro op hop
    rw [hkind, List.mem_append] at hop
    rcases hop with hop | hop
    · rw [hparts op hop]; decide
    · rw [hlastMem op hop]; decide
  have hmodePair : (c.resolveDirectMode k).Pairwise fun a b => a.part ≤ b.part ∧ a ≠ b := by
    unfold resolveDirectMode
    split
    · refine List.pairwise_cons.2 ⟨by simp [HostOp.part], ?_⟩
      refine List.Pairwise.map _ (fun a b hab => ?_) List.nodup_range
      exact ⟨le_rfl, fun h => hab (HostOp.resolve.inj h)⟩
    · exact List.Pairwise.nil
  have hmodeMem : ∀ op ∈ c.resolveDirectMode k, 1 ≤ op.part ∧ op.part ≤ 2 := by
    intro op hop
    unfold resolveDirectMode at hop
    split at hop
    · simp only [List.mem_cons, List.mem_map] at hop
      obtain rfl | ⟨p, -, rfl⟩ := hop <;> simp [HostOp.part]
    · cases hop
  have hlt : ∀ {a b : HostOp}, a.part < b.part → a.part ≤ b.part ∧ a ≠ b := fun h =>
    ⟨h.le, fun heq => by rw [heq] at h; exact lt_irrefl _ h⟩
  have hend : ∀ b ∈ [HostOp.arrive, .leave, .signal, .finish], 6 ≤ b.part := by simp [HostOp.part]
  rw [execute, List.pairwise_append]
  refine ⟨?_, by simp [HostOp.part], fun a ha b hb => hlt ?_⟩
  · rw [List.cons_append, List.pairwise_cons, List.pairwise_append, List.pairwise_cons]
    refine ⟨fun b hb => hlt ?_, hmodePair, ⟨fun b hb => hlt ?_, hkindPair⟩, fun a ha b hb => hlt ?_⟩
    · simp only [List.mem_append, List.mem_cons] at hb
      rcases hb with hb | rfl | hb
      · exact (hmodeMem b hb).1
      · decide
      · exact lt_of_lt_of_le (by decide) (hkindMem b hb).1
    · exact (hkindMem b hb).1
    · refine lt_of_le_of_lt (hmodeMem a ha).2 ?_
      rcases List.mem_cons.1 hb with rfl | hb
      · decide
      · exact lt_of_lt_of_le (by decide) (hkindMem b hb).1
  · refine lt_of_lt_of_le ?_ (hend b hb)
    simp only [List.cons_append, List.mem_cons, List.mem_append] at ha
    rcases ha with rfl | ha | rfl | ha
    · decide
    · exact lt_of_le_of_lt (hmodeMem a ha).2 (by decide)
    · decide
    · exact lt_of_le_of_lt (hkindMem a ha).2 (by decide)

section

variable {op x : HostOp} {rest : List HostOp}

theorem notMem_rest (h : op :: rest <:+ c.execute k r) : op ∉ rest := fun hmem =>
  ((List.pairwise_cons.1 ((c.execute_pairwise k r).sublist h.sublist)).1 op hmem).2 rfl

theorem part_le_of_mem (h : op :: rest <:+ c.execute k r) (hx : x ∈ rest) : op.part ≤ x.part :=
  ((List.pairwise_cons.1 ((c.execute_pairwise k r).sublist h.sublist)).1 x hx).1

/-- What comes later is still to be done. -/
theorem mem_rest (h : op :: rest <:+ c.execute k r) (hx : x ∈ c.execute k r)
    (hlt : op.part < x.part) : x ∈ rest := by
  obtain ⟨pre, hpre⟩ := h
  have hpair := c.execute_pairwise k r
  rw [← hpre, List.pairwise_append] at hpair
  rw [← hpre, List.mem_append, List.mem_cons] at hx
  rcases hx with hx | rfl | hx
  · exact absurd (hpair.2.2 x hx op List.mem_cons_self).1 (Nat.not_le.2 hlt)
  · exact absurd hlt (lt_irrefl _)
  · exact hx

theorem ready_mem : HostOp.ready ∈ c.execute k r := by simp [execute]

theorem stage_mem : HostOp.stage ∈ c.execute k r := by simp [execute]

theorem end_mem (h : op ∈ [HostOp.arrive, .leave, .signal, .finish]) : op ∈ c.execute k r :=
  List.mem_append_right _ h

end

end Comm

/-! ## How far a worker has come -/

/-- Requests in which the worker has gone past `op`, or that it has finished. -/
def Worker.passed (w : Worker) (op : HostOp) : ℕ :=
  if w.todo = [] ∨ op ∈ w.todo then w.finished else w.finished + 1

namespace Comm

variable {V : Type} {c : Comm V} {k r : ℕ} {w w' : Worker} {op x : HostOp} {rest : List HostOp}

theorem finished_le_passed (w : Worker) (op : HostOp) : w.finished ≤ w.passed op := by
  unfold Worker.passed
  split <;> omega

theorem passed_le (w : Worker) (op : HostOp) : w.passed op ≤ w.finished + 1 := by
  unfold Worker.passed
  split <;> omega

theorem passed_of_mem (h : op ∈ w.todo) : w.passed op = w.finished := if_pos (Or.inr h)

theorem passed_of_idle (h : w.todo = []) (op : HostOp) : w.passed op = w.finished :=
  if_pos (Or.inl h)

theorem lt_passed_iff : w.finished < w.passed op ↔ w.todo ≠ [] ∧ op ∉ w.todo := by
  unfold Worker.passed
  split
  · next h => simp only [lt_irrefl, false_iff, not_and, not_not]; exact h.resolve_left
  · next h => simpa using h

theorem passed_congr (htodo : w'.todo = w.todo) (hfinished : w'.finished = w.finished)
    (op : HostOp) : w'.passed op = w.passed op := by
  rw [Worker.passed, Worker.passed, htodo, hfinished]

/-- The worker goes past the operation that it does, and past no other. -/
theorem passed_pop (hsuf : op :: rest <:+ c.execute k r) (htodo : w.todo = op :: rest)
    (hne : op ≠ .finish) (htodo' : w'.todo = rest) (hfinished : w'.finished = w.finished)
    (x : HostOp) : w'.passed x = if x = op then w.finished + 1 else w.passed x := by
  have hfinish : HostOp.finish ∈ rest := by
    refine mem_rest hsuf (end_mem (by simp)) ?_
    have hparts : ∀ y : HostOp, y ≠ .finish → y.part < 9 := fun y hy => by
      cases y <;> simp_all [HostOp.part]
    exact hparts op hne
  have hrest : rest ≠ [] := List.ne_nil_of_mem hfinish
  have hop := notMem_rest hsuf
  by_cases hx : x = op
  · subst hx
    simp [Worker.passed, htodo', hfinished, hop, hrest]
  · simp [Worker.passed, htodo, htodo', hfinished, hx, hrest]

/-- What comes before the operation that the worker is at lies behind it. -/
theorem lt_passed_of_part (hsuf : op :: rest <:+ c.execute k r) (htodo : w.todo = op :: rest)
    (hlt : x.part < op.part) : w.finished < w.passed x := by
  refine lt_passed_iff.2 ⟨by simp [htodo], fun hmem => ?_⟩
  rw [htodo] at hmem
  rcases List.mem_cons.1 hmem with rfl | hmem
  · exact lt_irrefl _ hlt
  · exact absurd (part_le_of_mem hsuf hmem) (Nat.not_le.2 hlt)

theorem rest_of_finish (hsuf : .finish :: rest <:+ c.execute k r) : rest = [] := by
  refine List.eq_nil_iff_forall_not_mem.2 fun y hy => ?_
  have hle := part_le_of_mem hsuf hy
  have hlast : y = .finish := by cases y <;> simp_all [HostOp.part]
  exact notMem_rest hsuf (hlast ▸ hy)

theorem passed_finish (hsuf : .finish :: rest <:+ c.execute k r)
    (htodo : w.todo = .finish :: rest) (htodo' : w'.todo = rest)
    (hfinished : w'.finished = w.finished + 1) (x : HostOp) :
    w'.passed x = if x = .finish then w.finished + 1 else w.passed x := by
  obtain rfl := rest_of_finish hsuf
  by_cases hx : x = .finish
  · simp [Worker.passed, htodo', hfinished, hx]
  · simp [Worker.passed, htodo, htodo', hfinished, hx]

theorem passed_take (htodo : w.todo = []) (htodo' : w'.todo = c.execute k r)
    (hfinished : w'.finished = w.finished) (x : HostOp) :
    w'.passed x = if x ∈ c.execute k r then w.passed x else w.finished + 1 := by
  have hne : c.execute k r ≠ [] := List.ne_nil_of_mem ready_mem
  by_cases hx : x ∈ c.execute k r <;> simp [Worker.passed, htodo, htodo', hfinished, hx, hne]

/-! ## The steps -/

/-- What a step of rank `r` makes of the memories, the words and its worker. -/
inductive Move (c : Comm V) (r : ℕ) (mem : Place → ℕ → V) (words : Words) (w : Worker) :
    (Place → ℕ → V) → Words → Worker → Prop
  | submit (hroom : w.submitted - w.finished < c.queueDepth) :
    Move c r mem words w mem
      { words with readyHost := store words.readyHost r (c.slot w.submitted) 0 }
      { w with submitted := w.submitted + 1 }
  | take (hidle : w.todo = []) (hqueued : w.finished < w.submitted) :
    Move c r mem words w mem words
      { w with
        todo := c.execute w.finished r
        allDirect := c.collectiveTopologyCanAllDirect w.finished }
  | ready {rest : List HostOp} (htodo : w.todo = .ready :: rest)
      (hready : words.readyHost r (c.slot w.finished) = workSeq w.finished) :
    Move c r mem words w mem
      { words with
        readySeq := store words.readySeq r (c.slot w.finished) (workSeq w.finished) }
      { w with todo := rest }
  | publishStatus {rest : List HostOp} (htodo : w.todo = .publishStatus :: rest) :
    Move c r mem words w mem
      (c.publishFastpathDirectStatus words w.finished r
        (c.localNeedsAllDirectSources w.finished r))
      { w with todo := rest }
  | resolve {p : ℕ} {ok : Bool} {rest : List HostOp} (htodo : w.todo = .resolve p :: rest)
      (hok : c.getFastpathDirectStatus words w.finished p = some ok) :
    Move c r mem words w mem words
      { w with todo := rest, allDirect := w.allDirect && ok }
  | stage {rest : List HostOp} (htodo : w.todo = .stage :: rest) :
    Move c r mem words w
      (if w.allDirect then mem else c.stageLocalSource mem w.finished r)
      { words with
        stageSeq := store words.stageSeq r (c.slot w.finished) (workSeq w.finished) }
      { w with todo := rest }
  | launch {op : HostOp} {rest : List HostOp} (htodo : w.todo = op :: rest)
      (hop : op = .own ∨ ∃ s, op = .source s ∧
        c.sourceReady words w.finished r w.allDirect s = true) :
    Move c r mem words w mem words
      { w with
        todo := rest
        queue := w.queue ++ c.launched w.finished r w.allDirect op }
  | synchronize {rest : List HostOp} (htodo : w.todo = .synchronize :: rest)
      (hqueue : w.queue = []) :
    Move c r mem words w mem words { w with todo := rest }
  | arrive {rest : List HostOp} (htodo : w.todo = .arrive :: rest) :
    Move c r mem words w mem (c.arriveBarrier words)
      { w with todo := rest, generation := words.barrierGeneration }
  | leave {rest : List HostOp} (htodo : w.todo = .leave :: rest)
      (hraised : w.generation < words.barrierGeneration) :
    Move c r mem words w mem words { w with todo := rest }
  | signal {rest : List HostOp} (htodo : w.todo = .signal :: rest) :
    Move c r mem words w mem
      { words with
        completeHost := store words.completeHost r (c.slot w.finished) (workSeq w.finished) }
      { w with todo := rest }
  | finish {rest : List HostOp} (htodo : w.todo = .finish :: rest) :
    Move c r mem words w mem words { w with todo := rest, finished := w.finished + 1 }
  | element {i : ℕ} {op : StreamOp} {rest : List StreamOp} (hqueue : w.queue = op :: rest)
      (hi : i < (c.request w.finished).segCount) (hnew : i ∉ w.processed) :
    Move c r mem words w (c.runElement mem w.finished r i op) words
      { w with processed := i :: w.processed }
  | retire {op : StreamOp} {rest : List StreamOp} (hqueue : w.queue = op :: rest)
      (hall : ∀ i < (c.request w.finished).segCount, i ∈ w.processed) :
    Move c r mem words w mem words { w with queue := rest, processed := [] }
  | write {m : ℕ → V} (hfree : w.released = w.reached) :
    Move c r mem words w (Function.update mem (.device r) m) words w
  | reach (hfree : w.released = w.reached) (hsubmitted : w.reached < w.submitted) :
    Move c r mem words w (Function.update mem (.device r) (c.given w.reached r))
      { words with
        readyHost := store words.readyHost r (c.slot w.reached) (workSeq w.reached) }
      { w with reached := w.reached + 1 }
  | release (hwaits : w.released < w.reached)
      (hcomplete : workSeq w.released ≤ words.completeHost r (c.slot w.released)) :
    Move c r mem words w mem words { w with released := w.released + 1 }

/-- **Every step is one of the moves.** -/
theorem step_cases {st st' : State V} {l : Label V} (h : c.step st l = some st') :
    l.rank < c.worldSize ∧ ∃ mem words w,
      c.Move l.rank st.mem st.words (st.worker l.rank) mem words w ∧
        st' = ⟨mem, words, Function.update st.worker l.rank w⟩ := by
  simp only [step, Option.ite_none_right_eq_some] at h
  obtain ⟨hrank, h⟩ := h
  refine ⟨hrank, ?_⟩
  cases l with
  | submit r =>
    simp only [submit, Option.ite_none_right_eq_some, Option.some.injEq] at h
    exact ⟨_, _, _, .submit h.1, h.2.symm⟩
  | take r =>
    simp only [take, Option.ite_none_right_eq_some, Option.some.injEq] at h
    exact ⟨_, _, _, .take h.1.1 h.1.2, h.2.symm⟩
  | host r =>
    cases htodo : (st.worker r).todo with
    | nil => simp [htodo] at h
    | cons op rest =>
      simp only [htodo] at h
      cases op with
      | ready =>
        simp only [hostStep, Option.ite_none_right_eq_some, Option.some.injEq] at h
        exact ⟨_, _, _, .ready htodo h.1, h.2.symm⟩
      | publishStatus => exact ⟨_, _, _, .publishStatus htodo, (Option.some.inj h).symm⟩
      | resolve p =>
        obtain ⟨ok, hok, h⟩ := Option.map_eq_some_iff.1 h
        exact ⟨_, _, _, .resolve htodo hok, h.symm⟩
      | stage => exact ⟨_, _, _, .stage htodo, (Option.some.inj h).symm⟩
      | own => exact ⟨_, _, _, .launch htodo (Or.inl rfl), (Option.some.inj h).symm⟩
      | source s =>
        simp only [hostStep, Option.ite_none_right_eq_some, Option.some.injEq] at h
        exact ⟨_, _, _, .launch htodo (Or.inr ⟨s, rfl, h.1⟩), h.2.symm⟩
      | synchronize =>
        simp only [hostStep, Option.ite_none_right_eq_some, Option.some.injEq] at h
        exact ⟨_, _, _, .synchronize htodo h.1, h.2.symm⟩
      | arrive => exact ⟨_, _, _, .arrive htodo, (Option.some.inj h).symm⟩
      | leave =>
        simp only [hostStep, Option.ite_none_right_eq_some, Option.some.injEq] at h
        exact ⟨_, _, _, .leave htodo h.1, h.2.symm⟩
      | signal => exact ⟨_, _, _, .signal htodo, (Option.some.inj h).symm⟩
      | finish => exact ⟨_, _, _, .finish htodo, (Option.some.inj h).symm⟩
  | element r i =>
    simp only [element] at h
    split at h
    · next hqueue =>
      simp only [Option.ite_none_right_eq_some, Option.some.injEq] at h
      exact ⟨_, _, _, .element hqueue h.1.1 h.1.2, h.2.symm⟩
    · cases h
  | retire r =>
    simp only [retire] at h
    split at h
    · next hqueue =>
      simp only [Option.ite_none_right_eq_some, Option.some.injEq] at h
      exact ⟨_, _, _, .retire hqueue h.1, h.2.symm⟩
    · cases h
  | write r device =>
    simp only [write, Option.ite_none_right_eq_some, Option.some.injEq] at h
    refine ⟨_, _, _, .write (m := device) h.1, ?_⟩
    rw [← h.2]
    simp only [Label.rank, Function.update_eq_self]
  | reach r =>
    simp only [reach, Option.ite_none_right_eq_some, Option.some.injEq] at h
    exact ⟨_, _, _, .reach h.1.1 h.1.2, h.2.symm⟩
  | release r =>
    simp only [release, Option.ite_none_right_eq_some, Option.some.injEq] at h
    exact ⟨_, _, _, .release h.1.1 h.1.2, h.2.symm⟩

variable {mem mem' : Place → ℕ → V} {words words' : Words}

/-- Another rank keeps its words. -/
theorem Move.words_eq (h : c.Move r mem words w mem' words' w') {s : ℕ} (hs : s ≠ r) :
    words'.readySeq s = words.readySeq s ∧ words'.stageSeq s = words.stageSeq s ∧
      words'.directOkSeq s = words.directOkSeq s ∧
      words'.directMissingSeq s = words.directMissingSeq s ∧
      words'.readyHost s = words.readyHost s ∧ words'.completeHost s = words.completeHost s := by
  cases h with
  | publishStatus =>
    unfold publishFastpathDirectStatus
    split <;> simp [store, hs]
  | arrive =>
    unfold arriveBarrier
    split <;> simp
  | _ => simp [store, hs]

/-! ## The lists of a worker -/

variable (c) in
/-- How the lists of a worker belong together. -/
structure Lists (r : ℕ) (w : Worker) : Prop where
  todo : w.todo <:+ c.execute w.finished r
  finished : w.finished ≤ w.submitted
  busy : w.todo ≠ [] → w.finished < w.submitted
  room : w.submitted ≤ w.finished + c.queueDepth
  idle : w.queue = [] → w.processed = []
  processed : ∀ i ∈ w.processed, i < (c.request w.finished).segCount
  staged : w.passed .stage = w.finished → w.queue = []
  drained : w.finished < w.passed .synchronize → w.queue = []

theorem mem_executeKind (h : op ∈ c.execute k r) (hpart : op.part = 4) :
    op ∈ c.executeKind k r := by
  have hmode : op ∉ c.resolveDirectMode k := fun h => by
    unfold resolveDirectMode at h
    split at h
    · simp only [List.mem_cons, List.mem_map] at h
      obtain rfl | ⟨p, -, rfl⟩ := h <;> cases hpart
    · cases h
  simp only [execute, List.mem_append, List.mem_cons, List.not_mem_nil, or_false] at h
  rcases h with ((rfl | h) | rfl | h) | rfl | rfl | rfl | rfl
  on_goal 2 => exact absurd h hmode
  on_goal 3 => exact h
  all_goals cases hpart

/-- Behind the wait for the stream nothing is launched. -/
theorem launched_eq_nil (hsuf : op :: rest <:+ c.execute k r) (hpart : op.part = 4)
    (hsync : HostOp.synchronize ∉ rest) (a : Bool) : c.launched k r a op = [] := by
  obtain ⟨ops, last, hkind, -, hparts, hlast⟩ := c.executeKind_shape k r
  have hmem := mem_executeKind (hsuf.subset List.mem_cons_self) hpart
  rcases hlast with rfl | ⟨rfl, hnil⟩
  · exact absurd (mem_rest hsuf (by simp [execute, hkind]) (by rw [hpart]; decide)) hsync
  · rw [hkind, List.append_nil] at hmem
    exact hnil op hmem a

theorem Lists.move (h : c.Lists r w) (hm : c.Move r mem words w mem' words' w') : c.Lists r w' := by
  -- an operation other than a launch takes itself off the list
  have hpop : ∀ {op : HostOp} {rest : List HostOp} {w' : Worker},
      w.todo = op :: rest → op ≠ .finish → (op ≠ .synchronize ∨ w'.queue = []) →
      w'.todo = rest → w'.finished = w.finished →
      w'.submitted = w.submitted → w'.queue = w.queue →
      w'.processed = w.processed → c.Lists r w' := by
    intro op rest w' htodo hne hsync htodo' hfinished hsubmitted hqueue hprocessed
    have hsuf : op :: rest <:+ c.execute w.finished r := htodo ▸ h.todo
    have hpassed := passed_pop hsuf htodo hne htodo' hfinished
    refine ⟨?_, ?_, fun _ => ?_, ?_, ?_, ?_, fun hst => ?_, fun hdr => ?_⟩
    · rw [htodo', hfinished]; exact (List.suffix_cons op rest).trans hsuf
    · rw [hfinished, hsubmitted]; exact h.finished
    · rw [hfinished, hsubmitted]; exact h.busy (by simp [htodo])
    · rw [hfinished, hsubmitted]; exact h.room
    · rw [hqueue, hprocessed]; exact h.idle
    · rw [hprocessed, hfinished]; exact h.processed
    · rw [hqueue]
      refine h.staged ?_
      rw [hpassed, hfinished] at hst
      split at hst
      · omega
      · exact hst
    · rcases hsync with hsync | hsync
      · rw [hqueue]
        refine h.drained ?_
        rwa [hpassed, hfinished, if_neg (Ne.symm hsync)] at hdr
      · exact hsync
  cases hm with
  | submit hroom =>
    exact { h with
      finished := h.finished.trans (Nat.le_succ _)
      busy := fun hb => (h.busy hb).trans (Nat.lt_succ_self _)
      room := by have := h.finished; simp only; omega }
  | take hidle hqueued =>
    refine { h with
      todo := List.suffix_rfl
      busy := fun _ => hqueued
      staged := fun _ => h.staged (passed_of_idle hidle _)
      drained := fun _ => h.staged (passed_of_idle hidle _) }
  | ready htodo => exact hpop htodo (by simp) (by simp) rfl rfl rfl rfl rfl
  | publishStatus htodo => exact hpop htodo (by simp) (by simp) rfl rfl rfl rfl rfl
  | resolve htodo => exact hpop htodo (by simp) (by simp) rfl rfl rfl rfl rfl
  | stage htodo => exact hpop htodo (by simp) (by simp) rfl rfl rfl rfl rfl
  | @launch op rest htodo hop =>
    have hsuf : op :: rest <:+ c.execute w.finished r := htodo ▸ h.todo
    have hpart : op.part = 4 := by rcases hop with rfl | ⟨s, rfl, -⟩ <;> rfl
    have hne : ∀ {x : HostOp}, x.part ≠ 4 → x ≠ op := fun hx heq => hx (heq ▸ hpart)
    have hpassed : ∀ x, ({ w with
        todo := rest
        queue := w.queue ++ c.launched w.finished r w.allDirect op } : Worker).passed x = _ :=
      passed_pop hsuf htodo (hne (x := .finish) (by decide)).symm rfl rfl
    refine { h with
      todo := (List.suffix_cons op rest).trans hsuf
      busy := fun _ => h.busy (by simp [htodo])
      idle := fun hnil => h.idle (List.append_eq_nil_iff.1 hnil).1
      staged := fun hst => ?_
      drained := fun hdr => ?_ }
    · have hpast := lt_passed_of_part hsuf htodo (x := .stage) (by rw [hpart]; decide)
      rw [hpassed, if_neg (hne (by decide))] at hst
      exact absurd hst hpast.ne'
    · rw [hpassed, if_neg (hne (by decide))] at hdr
      replace hdr : w.finished < w.passed .synchronize := hdr
      have hsync := (lt_passed_iff.1 hdr).2
      rw [htodo] at hsync
      simp only [h.drained hdr, List.nil_append]
      exact launched_eq_nil hsuf hpart (fun hmem => hsync (List.mem_cons_of_mem _ hmem)) _
  | synchronize htodo hqueue => exact hpop htodo (by simp) (Or.inr hqueue) rfl rfl rfl rfl rfl
  | arrive htodo => exact hpop htodo (by simp) (by simp) rfl rfl rfl rfl rfl
  | leave htodo => exact hpop htodo (by simp) (by simp) rfl rfl rfl rfl rfl
  | signal htodo => exact hpop htodo (by simp) (by simp) rfl rfl rfl rfl rfl
  | @finish rest htodo =>
    have hsuf : .finish :: rest <:+ c.execute w.finished r := htodo ▸ h.todo
    have hempty := h.drained (lt_passed_of_part hsuf htodo (by decide))
    obtain rfl := rest_of_finish hsuf
    exact { h with
      todo := List.nil_suffix
      finished := h.busy (by simp [htodo])
      busy := fun hb => absurd rfl hb
      room := by have := h.room; simp only; omega
      processed := fun i hi => by
        simp only [h.idle hempty] at hi
        cases hi
      staged := fun _ => hempty
      drained := fun _ => hempty }
  | element hqueue hi =>
    exact { h with
      idle := fun hnil => by simp [hqueue] at hnil
      processed := fun j hj => (List.mem_cons.1 hj).elim (fun heq => heq ▸ hi) (h.processed j) }
  | retire hqueue =>
    exact { h with
      idle := fun _ => rfl
      processed := fun i hi => by cases hi
      staged := fun hst => by have := h.staged hst; simp [hqueue] at this
      drained := fun hdr => by have := h.drained hdr; simp [hqueue] at this }
  | write => exact h
  | reach => exact { h with }
  | release => exact { h with }

/-! ## The user's stream -/

theorem store_self (word : ℕ → ℕ → ℕ) (r slot v x : ℕ) :
    store word r slot v r x = if x = slot then v else word r x := by
  simp [store, Function.update_apply]

variable (c) in
/-- The user's stream of a rank and the words that it shares with the worker. -/
structure UserTurn (r : ℕ) (words : Words) (w : Worker) : Prop where
  released : w.released ≤ w.reached
  reached : w.reached ≤ w.released + 1
  submitted : w.reached ≤ w.submitted
  signalled : w.released ≤ w.passed .signal
  began : w.passed .ready ≤ w.reached
  hostLe : ∀ x, words.readyHost r x ≤ w.reached
  host : w.released < w.reached → w.finished ≤ w.released →
    words.readyHost r (c.slot w.released) = workSeq w.released
  completeLe : ∀ x, words.completeHost r x ≤ w.passed .signal

theorem UserTurn.congr (h : c.UserTurn r words w)
    (hsubmitted : w'.submitted = w.submitted) (hfinished : w'.finished = w.finished)
    (hreached : w'.reached = w.reached) (hreleased : w'.released = w.released)
    (hready : w'.passed .ready = w.passed .ready) (hsignal : w'.passed .signal = w.passed .signal)
    (hhost : words'.readyHost r = words.readyHost r)
    (hcomplete : words'.completeHost r = words.completeHost r) : c.UserTurn r words' w' := by
  obtain ⟨h1, h2, h3, h4, h5, h6, h7, h8⟩ := h
  constructor <;>
    simpa only [hsubmitted, hfinished, hreached, hreleased, hready, hsignal, hhost, hcomplete]

/-- Two requests in the queue at once have different slots. -/
theorem slot_ne {a b : ℕ} (hab : a < b) (hb : b < a + c.queueDepth) : c.slot b ≠ c.slot a := by
  intro h
  have hdvd : c.queueDepth ∣ b - a := (Nat.modEq_iff_dvd' hab.le).1 h.symm
  have := Nat.le_of_dvd (by omega) hdvd
  omega

theorem UserTurn.move (hl : c.Lists r w) (h : c.UserTurn r words w)
    (hm : c.Move r mem words w mem' words' w') : c.UserTurn r words' w' := by
  have hpop : ∀ {op : HostOp} {rest : List HostOp} {w' : Worker} {words' : Words},
      w.todo = op :: rest → op ∉ [.ready, .signal, .finish] → w'.todo = rest →
      w'.finished = w.finished → w'.submitted = w.submitted →
      w'.reached = w.reached → w'.released = w.released →
      words'.readyHost r = words.readyHost r →
      words'.completeHost r = words.completeHost r → c.UserTurn r words' w' := by
    intro op rest w' words' htodo hop htodo' hfinished hsubmitted hreached hreleased hhost hcomplete
    simp only [List.mem_cons, List.not_mem_nil, or_false, not_or] at hop
    have hpassed := passed_pop (htodo ▸ hl.todo) htodo hop.2.2 htodo' hfinished
    exact h.congr hsubmitted hfinished hreached hreleased
      (by rw [hpassed, if_neg (Ne.symm hop.1)]) (by rw [hpassed, if_neg (Ne.symm hop.2.1)])
      hhost hcomplete
  have hfinished := finished_le_passed w .ready
  obtain ⟨h1, h2, h3, h4, h5, h6, h7, h8⟩ := id h
  cases hm with
  | submit hroom =>
    refine ⟨h1, h2, h3.trans (Nat.le_succ _), h4, h5, fun x => ?_, fun hlt hfin => ?_, h8⟩
    · dsimp only
      rw [store_self]
      split
      · exact Nat.zero_le _
      · exact h6 x
    · dsimp only
      rw [store_self, if_neg]
      · exact h7 hlt hfin
      · have hlt : w.released < w.reached := hlt
        have hfin : w.finished ≤ w.released := hfin
        exact (slot_ne (by omega) (by omega)).symm
  | take hidle =>
    have hpassed : ∀ x, ({ w with
        todo := c.execute w.finished r
        allDirect := c.collectiveTopologyCanAllDirect w.finished } : Worker).passed x = _ :=
      passed_take hidle rfl rfl
    refine h.congr rfl rfl rfl rfl ?_ ?_ rfl rfl
    · rw [hpassed, if_pos ready_mem]
    · rw [hpassed, if_pos (end_mem (by simp))]
  | @ready rest htodo hready =>
    have hpassed : ∀ x, ({ w with todo := rest } : Worker).passed x = _ :=
      passed_pop (htodo ▸ hl.todo) htodo (by simp) rfl rfl
    have hreached := h6 (c.slot w.finished)
    rw [hready, workSeq] at hreached
    refine ⟨h1, h2, h3, ?_, ?_, h6, h7, ?_⟩
    · rw [hpassed, if_neg (by simp)]; exact h4
    · rw [hpassed, if_pos rfl]; exact hreached
    · rw [hpassed, if_neg (by simp)]; exact h8
  | publishStatus htodo =>
    refine hpop htodo (by simp) rfl rfl rfl rfl rfl ?_ ?_ <;>
      (unfold publishFastpathDirectStatus; split <;> rfl)
  | resolve htodo => exact hpop htodo (by simp) rfl rfl rfl rfl rfl rfl rfl
  | stage htodo => exact hpop htodo (by simp) rfl rfl rfl rfl rfl rfl rfl
  | launch htodo hop =>
    refine hpop htodo ?_ rfl rfl rfl rfl rfl rfl rfl
    rcases hop with rfl | ⟨s, rfl, -⟩ <;> simp
  | synchronize htodo => exact hpop htodo (by simp) rfl rfl rfl rfl rfl rfl rfl
  | arrive htodo =>
    refine hpop htodo (by simp) rfl rfl rfl rfl rfl ?_ ?_ <;>
      (unfold arriveBarrier; split <;> rfl)
  | leave htodo => exact hpop htodo (by simp) rfl rfl rfl rfl rfl rfl rfl
  | @signal rest htodo =>
    have hpassed : ∀ x, ({ w with todo := rest } : Worker).passed x = _ :=
      passed_pop (htodo ▸ hl.todo) htodo (by simp) rfl rfl
    have hle := passed_le w .signal
    refine ⟨h1, h2, h3, ?_, ?_, h6, h7, fun x => ?_⟩
    · rw [hpassed, if_pos rfl]; exact h4.trans hle
    · rw [hpassed, if_neg (by simp)]; exact h5
    · dsimp only
      rw [hpassed, if_pos rfl, store_self]
      split
      · exact le_rfl
      · exact (h8 x).trans hle
  | @finish rest htodo =>
    have hpassed : ∀ x, ({ w with todo := rest, finished := w.finished + 1 } : Worker).passed x =
        _ := passed_finish (htodo ▸ hl.todo) htodo rfl rfl
    refine ⟨h1, h2, h3, ?_, ?_, h6, fun hlt hfin => h7 hlt (Nat.le_of_succ_le hfin), ?_⟩
    · rw [hpassed, if_neg (by simp)]; exact h4
    · rw [hpassed, if_neg (by simp)]; exact h5
    · rw [hpassed, if_neg (by simp)]; exact h8
  | element => exact ⟨h1, h2, h3, h4, h5, h6, h7, h8⟩
  | retire => exact ⟨h1, h2, h3, h4, h5, h6, h7, h8⟩
  | write => exact ⟨h1, h2, h3, h4, h5, h6, h7, h8⟩
  | reach hfree hsubmitted =>
    refine ⟨h1.trans (Nat.le_succ _), by simp only; omega, hsubmitted, h4, h5.trans (Nat.le_succ _),
      fun x => ?_, fun _ _ => ?_, h8⟩
    · dsimp only
      rw [store_self]
      split
      · exact le_rfl
      · exact (h6 x).trans (Nat.le_succ _)
    · dsimp only
      rw [store_self, hfree, if_pos rfl]
  | release hwaits hcomplete =>
    refine ⟨hwaits, by simp only; omega, h3, ?_, h5, h6, fun hlt => ?_, h8⟩
    · exact hcomplete.trans (h8 _)
    · simp only at hlt
      omega

/-! ## The words of a rank -/

variable (c) in
/-- What the words that a worker writes for its peers say of it. -/
structure OwnWords (r : ℕ) (words : Words) (w : Worker) : Prop where
  readyLe : ∀ x, words.readySeq r x ≤ w.passed .ready
  ready : w.finished < w.passed .ready → words.readySeq r (c.slot w.finished) = workSeq w.finished
  stageLe : ∀ x, words.stageSeq r x ≤ w.passed .stage
  stage : w.finished < w.passed .stage → words.stageSeq r (c.slot w.finished) = workSeq w.finished
  okLe : ∀ x, words.directOkSeq r x ≤ w.finished + 1
  missingLe : ∀ x, words.directMissingSeq r x ≤ w.finished + 1
  ok : words.directOkSeq r (c.slot w.finished) = workSeq w.finished →
    c.localNeedsAllDirectSources w.finished r = true
  missing : words.directMissingSeq r (c.slot w.finished) = workSeq w.finished →
    c.localNeedsAllDirectSources w.finished r = false
  status : c.collectiveTopologyCanAllDirect w.finished = true →
    w.finished < w.passed .publishStatus →
      words.directOkSeq r (c.slot w.finished) = workSeq w.finished ∨
        words.directMissingSeq r (c.slot w.finished) = workSeq w.finished

theorem OwnWords.congr (h : c.OwnWords r words w) (hfinished : w'.finished = w.finished)
    (hready : w'.passed .ready = w.passed .ready) (hstage : w'.passed .stage = w.passed .stage)
    (hstatus : w'.passed .publishStatus = w.passed .publishStatus)
    (hreadySeq : words'.readySeq r = words.readySeq r)
    (hstageSeq : words'.stageSeq r = words.stageSeq r)
    (hok : words'.directOkSeq r = words.directOkSeq r)
    (hmissing : words'.directMissingSeq r = words.directMissingSeq r) :
    c.OwnWords r words' w' := by
  obtain ⟨h1, h2, h3, h4, h5, h6, h7, h8, h9⟩ := h
  constructor <;>
    simpa only [hfinished, hready, hstage, hstatus, hreadySeq, hstageSeq, hok, hmissing]

theorem publishStatus_mem (h : c.collectiveTopologyCanAllDirect k = true) :
    HostOp.publishStatus ∈ c.execute k r := by
  simp [execute, resolveDirectMode, h]

theorem OwnWords.move (hl : c.Lists r w) (h : c.OwnWords r words w)
    (hm : c.Move r mem words w mem' words' w') : c.OwnWords r words' w' := by
  have hpop : ∀ {op : HostOp} {rest : List HostOp} {w' : Worker} {words' : Words},
      w.todo = op :: rest → op ∉ [.ready, .stage, .publishStatus, .finish] → w'.todo = rest →
      w'.finished = w.finished → words'.readySeq r = words.readySeq r →
      words'.stageSeq r = words.stageSeq r → words'.directOkSeq r = words.directOkSeq r →
      words'.directMissingSeq r = words.directMissingSeq r → c.OwnWords r words' w' := by
    intro op rest w' words' htodo hop htodo' hfinished hready hstage hok hmissing
    simp only [List.mem_cons, List.not_mem_nil, or_false, not_or] at hop
    have hpassed := passed_pop (htodo ▸ hl.todo) htodo hop.2.2.2 htodo' hfinished
    exact h.congr hfinished (by rw [hpassed, if_neg (Ne.symm hop.1)])
      (by rw [hpassed, if_neg (Ne.symm hop.2.1)]) (by rw [hpassed, if_neg (Ne.symm hop.2.2.1)])
      hready hstage hok hmissing
  obtain ⟨h1, h2, h3, h4, h5, h6, h7, h8, h9⟩ := id h
  cases hm with
  | take hidle =>
    have hpassed : ∀ x, ({ w with
        todo := c.execute w.finished r
        allDirect := c.collectiveTopologyCanAllDirect w.finished } : Worker).passed x = _ :=
      passed_take hidle rfl rfl
    refine { h with
      readyLe := fun x => ?_, ready := fun hlt => ?_, stageLe := fun x => ?_,
      stage := fun hlt => ?_, status := fun htopo hlt => ?_ }
    · rw [hpassed, if_pos ready_mem]; exact h1 x
    · rw [hpassed, if_pos ready_mem] at hlt; exact h2 hlt
    · rw [hpassed, if_pos stage_mem]; exact h3 x
    · rw [hpassed, if_pos stage_mem] at hlt; exact h4 hlt
    · rw [hpassed, if_pos (publishStatus_mem htopo)] at hlt; exact h9 htopo hlt
  | @ready rest htodo =>
    have hpassed : ∀ x, ({ w with todo := rest } : Worker).passed x = _ :=
      passed_pop (htodo ▸ hl.todo) htodo (by simp) rfl rfl
    refine { h with
      readyLe := fun x => ?_, ready := fun _ => ?_, stageLe := fun x => ?_,
      stage := fun hlt => ?_, status := fun htopo hlt => ?_ }
    · dsimp only
      rw [hpassed, if_pos rfl, store_self]
      split
      · exact le_rfl
      · exact (h1 x).trans (passed_le w _)
    · dsimp only
      rw [store_self, if_pos rfl]
    · rw [hpassed, if_neg (by simp)]; exact h3 x
    · rw [hpassed, if_neg (by simp)] at hlt; exact h4 hlt
    · rw [hpassed, if_neg (by simp)] at hlt; exact h9 htopo hlt
  | @publishStatus rest htodo =>
    have hpassed : ∀ x, ({ w with todo := rest } : Worker).passed x = _ :=
      passed_pop (htodo ▸ hl.todo) htodo (by simp) rfl rfl
    have hseq : (0 : ℕ) ≠ workSeq w.finished := (Nat.succ_ne_zero _).symm
    -- one word gets the number of the request, the other one is cleared
    have hword : ∀ word : ℕ → ℕ → ℕ, (∀ x, word r x ≤ w.finished + 1) → ∀ v, v ≤ w.finished + 1 →
        ∀ x, store word r (c.slot w.finished) v r x ≤ w.finished + 1 := fun word hle v hv x => by
      rw [store_self]
      split
      · exact hv
      · exact hle x
    unfold publishFastpathDirectStatus
    split
    · next hlocal =>
      refine { h with
        readyLe := fun x => ?_, ready := fun hlt => ?_, stageLe := fun x => ?_,
        stage := fun hlt => ?_, okLe := hword _ h5 _ le_rfl,
        missingLe := hword _ h6 _ (Nat.zero_le _), ok := fun _ => hlocal,
        missing := fun heq => ?_, status := fun _ _ => Or.inl ?_ }
      · rw [hpassed, if_neg (by simp)]; exact h1 x
      · rw [hpassed, if_neg (by simp)] at hlt; exact h2 hlt
      · rw [hpassed, if_neg (by simp)]; exact h3 x
      · rw [hpassed, if_neg (by simp)] at hlt; exact h4 hlt
      · simp only [store_self, if_true] at heq
        exact absurd heq hseq
      · simp only [store_self, if_true]
    · next hlocal =>
      refine { h with
        readyLe := fun x => ?_, ready := fun hlt => ?_, stageLe := fun x => ?_,
        stage := fun hlt => ?_, okLe := hword _ h5 _ (Nat.zero_le _),
        missingLe := hword _ h6 _ le_rfl, ok := fun heq => ?_,
        missing := fun _ => by simpa using hlocal, status := fun _ _ => Or.inr ?_ }
      · rw [hpassed, if_neg (by simp)]; exact h1 x
      · rw [hpassed, if_neg (by simp)] at hlt; exact h2 hlt
      · rw [hpassed, if_neg (by simp)]; exact h3 x
      · rw [hpassed, if_neg (by simp)] at hlt; exact h4 hlt
      · simp only [store_self, if_true] at heq
        exact absurd heq hseq
      · simp only [store_self, if_true]
  | @stage rest htodo =>
    have hpassed : ∀ x, ({ w with todo := rest } : Worker).passed x = _ :=
      passed_pop (htodo ▸ hl.todo) htodo (by simp) rfl rfl
    refine { h with
      readyLe := fun x => ?_, ready := fun hlt => ?_, stageLe := fun x => ?_,
      stage := fun _ => ?_, status := fun htopo hlt => ?_ }
    · rw [hpassed, if_neg (by simp)]; exact h1 x
    · rw [hpassed, if_neg (by simp)] at hlt; exact h2 hlt
    · dsimp only
      rw [hpassed, if_pos rfl, store_self]
      split
      · exact le_rfl
      · exact (h3 x).trans (passed_le w _)
    · dsimp only
      rw [store_self, if_pos rfl]
    · rw [hpassed, if_neg (by simp)] at hlt; exact h9 htopo hlt
  | @finish rest htodo =>
    have hpassed : ∀ x, ({ w with todo := rest, finished := w.finished + 1 } : Worker).passed x =
        _ := passed_finish (htodo ▸ hl.todo) htodo rfl rfl
    have hnot : ∀ {x}, x ≠ .finish → ¬ w.finished + 1 <
        ({ w with todo := rest, finished := w.finished + 1 } : Worker).passed x := fun hx => by
      rw [hpassed, if_neg hx]
      exact Nat.not_lt.2 (passed_le w _)
    refine ⟨fun x => ?_, fun hlt => absurd hlt (hnot (by simp)), fun x => ?_,
      fun hlt => absurd hlt (hnot (by simp)), fun x => (h5 x).trans (Nat.le_succ _),
      fun x => (h6 x).trans (Nat.le_succ _), fun heq => ?_, fun heq => ?_,
      fun _ hlt => absurd hlt (hnot (by simp))⟩
    · rw [hpassed, if_neg (by simp)]; exact h1 x
    · rw [hpassed, if_neg (by simp)]; exact h3 x
    · exact absurd (heq ▸ h5 _) (Nat.not_le.2 (Nat.lt_succ_self _))
    · exact absurd (heq ▸ h6 _) (Nat.not_le.2 (Nat.lt_succ_self _))
  | resolve htodo => exact hpop htodo (by simp) rfl rfl rfl rfl rfl rfl
  | launch htodo hop =>
    refine hpop htodo ?_ rfl rfl rfl rfl rfl rfl
    rcases hop with rfl | ⟨s, rfl, -⟩ <;> simp
  | synchronize htodo => exact hpop htodo (by simp) rfl rfl rfl rfl rfl rfl
  | arrive htodo =>
    refine hpop htodo (by simp) rfl rfl ?_ ?_ ?_ ?_ <;>
      (unfold arriveBarrier; split <;> rfl)
  | leave htodo => exact hpop htodo (by simp) rfl rfl rfl rfl rfl rfl
  | signal htodo => exact hpop htodo (by simp) rfl rfl rfl rfl rfl rfl
  | submit | element | retire | write | reach | release =>
    exact ⟨h1, h2, h3, h4, h5, h6, h7, h8, h9⟩

/-! ## The barrier -/

/-- **The workers are in lock step**: a rank has arrived at the barrier as often as the generation
was raised, or once more and waits. -/
structure Barrier (c : Comm V) (st : State V) : Prop where
  bounds : ∀ r < c.worldSize, st.words.barrierGeneration ≤ (st.worker r).passed .arrive ∧
    (st.worker r).passed .arrive ≤ st.words.barrierGeneration + 1
  waiting : ∀ r < c.worldSize, (st.worker r).passed .arrive = st.words.barrierGeneration + 1 →
    (st.worker r).finished = st.words.barrierGeneration ∧ .leave ∈ (st.worker r).todo ∧
      (st.worker r).generation = st.words.barrierGeneration
  raised : ∀ r < c.worldSize, (st.worker r).passed .arrive = st.words.barrierGeneration →
    (st.worker r).finished < (st.worker r).passed .arrive → .leave ∈ (st.worker r).todo →
      (st.worker r).generation < st.words.barrierGeneration
  count : st.words.barrierCount = ((Finset.range c.worldSize).filter fun r =>
    (st.worker r).passed .arrive = st.words.barrierGeneration + 1).card
  lt_worldSize : st.words.barrierCount < c.worldSize

variable {st : State V}

/-- A step of a rank that does not arrive. -/
theorem Barrier.congr (h : c.Barrier st)
    (hpassed : w'.passed .arrive = (st.worker r).passed .arrive)
    (hwaiting : r < c.worldSize → w'.passed .arrive = st.words.barrierGeneration + 1 →
      w'.finished = (st.worker r).finished ∧ (.leave ∈ (st.worker r).todo → .leave ∈ w'.todo) ∧
        w'.generation = (st.worker r).generation)
    (hraised : w'.finished < w'.passed .arrive → .leave ∈ w'.todo →
      w'.finished = (st.worker r).finished ∧ .leave ∈ (st.worker r).todo ∧
        w'.generation = (st.worker r).generation)
    (hcount : words'.barrierCount = st.words.barrierCount)
    (hgeneration : words'.barrierGeneration = st.words.barrierGeneration) :
    c.Barrier ⟨mem', words', Function.update st.worker r w'⟩ := by
  have hsame : ∀ s, (Function.update st.worker r w' s).passed .arrive =
      (st.worker s).passed .arrive := fun s => by
    by_cases hs : s = r
    · subst hs; rw [Function.update_self, hpassed]
    · rw [Function.update_of_ne hs]
  refine ⟨fun s hs => ?_, fun s hs heq => ?_, fun s hs heq hlt hleave => ?_, ?_, ?_⟩
  · simp only [hsame, hgeneration]
    exact h.bounds s hs
  · simp only [hsame, hgeneration] at heq ⊢
    by_cases hsr : s = r
    · subst hsr
      obtain ⟨hf, hl, hg⟩ := hwaiting hs (hpassed.trans heq)
      obtain ⟨hf', hl', hg'⟩ := h.waiting s hs heq
      rw [Function.update_self]
      exact ⟨hf.trans hf', hl hl', hg.trans hg'⟩
    · rw [Function.update_of_ne hsr]
      exact h.waiting s hs heq
  · simp only [hsame, hgeneration] at heq ⊢
    by_cases hsr : s = r
    · subst hsr
      simp only [Function.update_self] at hlt hleave ⊢
      obtain ⟨hf, hl, hg⟩ := hraised hlt hleave
      rw [hpassed, hf] at hlt
      rw [hg]
      exact h.raised s hs heq hlt hl
    · simp only [Function.update_of_ne hsr] at hlt hleave ⊢
      exact h.raised s hs heq hlt hleave
  · simp only [hsame, hgeneration, hcount]
    exact h.count
  · rw [hcount]
    exact h.lt_worldSize

/-- A rank that has begun a request and not arrived is at the request that the barrier is for. -/
theorem Barrier.finished_eq (h : c.Barrier st) (hr : r < c.worldSize)
    (harrive : .arrive ∈ (st.worker r).todo) :
    (st.worker r).finished = st.words.barrierGeneration := by
  have hpassed := passed_of_mem harrive
  obtain ⟨hle, hle'⟩ := h.bounds r hr
  by_contra hne
  have heq : (st.worker r).passed .arrive = st.words.barrierGeneration + 1 := by omega
  have := (h.waiting r hr heq).1
  omega

/-- **No rank is ahead of a rank that has not arrived.** -/
theorem Barrier.same_request (h : c.Barrier st) (hr : r < c.worldSize) {s : ℕ}
    (hs : s < c.worldSize) (harrive : .arrive ∈ (st.worker r).todo)
    (hle : (st.worker r).finished ≤ (st.worker s).finished) :
    (st.worker s).finished = (st.worker r).finished := by
  have hfinished := h.finished_eq hr harrive
  obtain ⟨-, hs1⟩ := h.bounds s hs
  have hpassed := finished_le_passed (st.worker s) .arrive
  by_contra hne
  have heq : (st.worker s).passed .arrive = st.words.barrierGeneration + 1 := by omega
  have := (h.waiting s hs heq).1
  omega

/-- The arrival of a rank. -/
theorem Barrier.arrive (hl : c.Lists r (st.worker r)) (h : c.Barrier st) (hr : r < c.worldSize)
    (htodo : (st.worker r).todo = .arrive :: rest) (htodo' : w'.todo = rest)
    (hfinished : w'.finished = (st.worker r).finished)
    (hgeneration : w'.generation = st.words.barrierGeneration) :
    c.Barrier ⟨mem', c.arriveBarrier st.words, Function.update st.worker r w'⟩ := by
  have hsuf : .arrive :: rest <:+ c.execute (st.worker r).finished r := htodo ▸ hl.todo
  have hmem : .arrive ∈ (st.worker r).todo := by simp [htodo]
  have hbefore : (st.worker r).passed .arrive = st.words.barrierGeneration := by
    rw [passed_of_mem hmem, h.finished_eq hr hmem]
  have hfin : (st.worker r).finished = st.words.barrierGeneration := h.finished_eq hr hmem
  have hafter : w'.passed .arrive = st.words.barrierGeneration + 1 := by
    rw [passed_pop hsuf htodo (by simp) htodo' hfinished, if_pos rfl, hfin]
  have hleave : .leave ∈ w'.todo := htodo' ▸ mem_rest hsuf (end_mem (by simp)) (by decide)
  have hother : ∀ s, s ≠ r → Function.update st.worker r w' s = st.worker s := fun s hs =>
    Function.update_of_ne hs ..
  have hself : Function.update st.worker r w' r = w' := Function.update_self ..
  have hset : ((Finset.range c.worldSize).filter fun s =>
      (Function.update st.worker r w' s).passed .arrive = st.words.barrierGeneration + 1) =
      insert r ((Finset.range c.worldSize).filter fun s =>
        (st.worker s).passed .arrive = st.words.barrierGeneration + 1) := by
    ext s
    by_cases hs : s = r
    · subst hs; simp [hafter, hr]
    · simp [hs]
  have hnew : r ∉ (Finset.range c.worldSize).filter fun s =>
      (st.worker s).passed .arrive = st.words.barrierGeneration + 1 := by
    simp [hbefore]
  unfold arriveBarrier
  split
  · next hlast =>
    -- everybody has arrived
    have hall : ∀ s < c.worldSize,
        (Function.update st.worker r w' s).passed .arrive = st.words.barrierGeneration + 1 := by
      have hcard := congrArg Finset.card hset
      rw [Finset.card_insert_of_notMem hnew, ← h.count, hlast] at hcard
      have hfull := (Finset.filter_card_eq (hcard.trans (Finset.card_range _).symm))
      exact fun s hs => hfull s (Finset.mem_range.2 hs)
    refine ⟨fun s hs => ?_, fun s hs heq => ?_, fun s hs _ _ _ => ?_, ?_,
      Nat.zero_lt_one.trans c.one_lt_worldSize⟩
    · simp only [hall s hs]; omega
    · have := hall s hs; simp only at heq; omega
    · by_cases hsr : s = r
      · subst hsr; simp only [hself, hgeneration]; omega
      · have heq := hall s hs
        simp only [hother s hsr] at heq ⊢
        have := (h.waiting s hs heq).2.2
        omega
    · refine (Finset.card_eq_zero.2 (Finset.filter_eq_empty_iff.2 fun s hs => ?_)).symm
      have := hall s (Finset.mem_range.1 hs)
      simp only
      omega
  · next hlast =>
    have hcount : st.words.barrierCount + 1 = ((Finset.range c.worldSize).filter fun s =>
        (Function.update st.worker r w' s).passed .arrive =
          st.words.barrierGeneration + 1).card := by
      rw [hset, Finset.card_insert_of_notMem hnew, h.count]
    refine ⟨fun s hs => ?_, fun s hs heq => ?_, fun s hs heq hlt hl => ?_, hcount, ?_⟩
    · by_cases hsr : s = r
      · subst hsr; simp only [hself, hafter]; omega
      · simp only [hother s hsr]; exact h.bounds s hs
    · by_cases hsr : s = r
      · subst hsr
        simp only [hself]
        exact ⟨hfinished.trans hfin, hleave, hgeneration⟩
      · simp only [hother s hsr] at heq ⊢
        exact h.waiting s hs heq
    · by_cases hsr : s = r
      · subst hsr; simp only [hself, hafter] at heq; omega
      · simp only [hother s hsr] at heq hlt hl ⊢
        exact h.raised s hs heq hlt hl
    · have := h.lt_worldSize
      simp only
      omega

theorem Barrier.move (hl : c.Lists r (st.worker r)) (h : c.Barrier st) (hr : r < c.worldSize)
    (hm : c.Move r st.mem st.words (st.worker r) mem' words' w') :
    c.Barrier ⟨mem', words', Function.update st.worker r w'⟩ := by
  generalize hw : st.worker r = w at hl hm
  have hpop : ∀ {op : HostOp} {rest : List HostOp} {w' : Worker} {words' : Words},
      w.todo = op :: rest → op ∉ [.arrive, .leave, .finish] → w'.todo = rest →
      w'.finished = w.finished → w'.generation = w.generation →
      words'.barrierCount = st.words.barrierCount →
      words'.barrierGeneration = st.words.barrierGeneration →
      c.Barrier ⟨mem', words', Function.update st.worker r w'⟩ := by
    intro op rest w' words' htodo hop htodo' hfinished hgen hcount hgeneration
    simp only [List.mem_cons, List.not_mem_nil, or_false, not_or] at hop
    have hpassed := passed_pop (htodo ▸ hl.todo) htodo hop.2.2 htodo' hfinished .arrive
    rw [if_neg (Ne.symm hop.1)] at hpassed
    have hleave : HostOp.leave ∈ w.todo ↔ .leave ∈ w'.todo := by
      rw [htodo, htodo', List.mem_cons, or_iff_right (Ne.symm hop.2.1)]
    subst hw
    exact h.congr hpassed (fun _ _ => ⟨hfinished, hleave.1, hgen⟩)
      (fun _ hmem => ⟨hfinished, hleave.2 hmem, hgen⟩) hcount hgeneration
  have hkeep : ∀ {w' : Worker} {words' : Words}, w'.todo = w.todo → w'.finished = w.finished →
      w'.generation = w.generation → words'.barrierCount = st.words.barrierCount →
      words'.barrierGeneration = st.words.barrierGeneration →
      c.Barrier ⟨mem', words', Function.update st.worker r w'⟩ := by
    intro w' words' htodo hfinished hgen hcount hgeneration
    subst hw
    exact h.congr (passed_congr htodo hfinished _)
      (fun _ _ => ⟨hfinished, fun hmem => htodo ▸ hmem, hgen⟩)
      (fun _ hmem => ⟨hfinished, htodo ▸ hmem, hgen⟩) hcount hgeneration
  cases hm with
  | submit => exact hkeep rfl rfl rfl rfl rfl
  | take hidle =>
    have hpassed : ∀ x, ({ w with
        todo := c.execute w.finished r
        allDirect := c.collectiveTopologyCanAllDirect w.finished } : Worker).passed x = _ :=
      passed_take hidle rfl rfl
    replace hpassed := (hpassed .arrive).trans (if_pos (end_mem (by simp)))
    subst hw
    refine h.congr hpassed (fun _ heq => ?_) (fun hlt => ?_) rfl rfl
    · have := (h.waiting r hr (hpassed ▸ heq)).2.1
      simp [hidle] at this
    · rw [hpassed, passed_of_idle hidle] at hlt
      exact absurd hlt (lt_irrefl _)
  | ready htodo => exact hpop htodo (by simp) rfl rfl rfl rfl rfl
  | publishStatus htodo =>
    refine hpop htodo (by simp) rfl rfl rfl ?_ ?_ <;>
      (unfold publishFastpathDirectStatus; split <;> rfl)
  | resolve htodo => exact hpop htodo (by simp) rfl rfl rfl rfl rfl
  | stage htodo => exact hpop htodo (by simp) rfl rfl rfl rfl rfl
  | launch htodo hop =>
    refine hpop htodo ?_ rfl rfl rfl rfl rfl
    rcases hop with rfl | ⟨s, rfl, -⟩ <;> simp
  | synchronize htodo => exact hpop htodo (by simp) rfl rfl rfl rfl rfl
  | arrive htodo =>
    subst hw
    exact h.arrive hl hr htodo rfl rfl rfl
  | @leave rest htodo hraised =>
    have hsuf : .leave :: rest <:+ c.execute w.finished r := htodo ▸ hl.todo
    have hpassed : ∀ x, ({ w with todo := rest } : Worker).passed x = _ :=
      passed_pop hsuf htodo (by simp) rfl rfl
    replace hpassed := (hpassed .arrive).trans (if_neg (by simp))
    subst hw
    refine h.congr hpassed (fun _ heq => ?_) (fun _ hmem => absurd hmem (notMem_rest hsuf)) rfl rfl
    have := (h.waiting r hr (hpassed ▸ heq)).2.2
    omega
  | signal htodo => exact hpop htodo (by simp) rfl rfl rfl rfl rfl
  | @finish rest htodo =>
    have hsuf : .finish :: rest <:+ c.execute w.finished r := htodo ▸ hl.todo
    obtain rfl := rest_of_finish hsuf
    have hpassed : ∀ x, ({ w with todo := [], finished := w.finished + 1 } : Worker).passed x =
        _ := passed_finish hsuf htodo rfl rfl
    replace hpassed := (hpassed .arrive).trans (if_neg (by simp))
    subst hw
    refine h.congr hpassed (fun _ heq => ?_) (fun _ hmem => absurd hmem List.not_mem_nil) rfl rfl
    have := (h.waiting r hr (hpassed ▸ heq)).2.1
    simp [htodo] at this
  | element => exact hkeep rfl rfl rfl rfl rfl
  | retire => exact hkeep rfl rfl rfl rfl rfl
  | write => exact hkeep rfl rfl rfl rfl rfl
  | reach => exact hkeep rfl rfl rfl rfl rfl
  | release => exact hkeep rfl rfl rfl rfl rfl

end Comm
end Series
end Fastpath
end HyLink
