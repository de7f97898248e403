import Mathlib.Algebra.Order.BigOperators.Group.LocallyFinite
import HyLink.Fastpath.SeriesResults
import HyLink.Theory.Halting

/-!
# A series always goes on

A worker that waits, waits for a rank that is behind it, so the rank that is furthest behind can
always go on: its worker, its kernels or its user's stream has a step.  So the executors of a
communicator cannot get stuck, however far each of them has come.

* `Signalled` — a completion word, once it covers a request, covers it for good.
* `Live.exists_nearer` — short of a number of requests, some step brings the ranks nearer to it.
* `completes_of_reachable` — from every state that a run reaches, every number of requests can be
  completed on every rank.
-/

namespace HyLink
namespace Fastpath
namespace Series
namespace Comm

open Theory

variable {V : Type} {c : Comm V} {st st' : State V} {k n r s : ℕ} {w w' w'' : Worker}
  {op x : HostOp} {rest : List HostOp} {mem mem' : Place → ℕ → V} {words words' : Words}
  {l : Label V}

/-! ## Completion words -/

variable (c) in
/-- The completion words cover what has been signalled. -/
def Signalled (r : ℕ) (words : Words) (w : Worker) : Prop :=
  ∀ k < w.passed .signal, workSeq k ≤ words.completeHost r (c.slot k)

theorem Signalled.congr (h : c.Signalled r words w)
    (hsignal : w'.passed .signal = w.passed .signal)
    (hcomplete : words'.completeHost r = words.completeHost r) : c.Signalled r words' w' := by
  intro k hk
  rw [hcomplete]
  exact h k (hsignal ▸ hk)

theorem Signalled.move (hl : c.Lists r w) (h : c.Signalled r words w)
    (hm : c.Move r mem words w mem' words' w') : c.Signalled r words' w' := by
  have hpop : ∀ {op : HostOp} {rest : List HostOp} {w' : Worker} {words' : Words},
      w.todo = op :: rest → op ∉ [.signal, .finish] → w'.todo = rest →
      w'.finished = w.finished → words'.completeHost r = words.completeHost r →
      c.Signalled r words' w' := by
    intro op rest w' words' htodo hop htodo' hfinished hcomplete
    simp only [List.mem_cons, List.not_mem_nil, or_false, not_or] at hop
    have hpassed := passed_pop (htodo ▸ hl.todo) htodo hop.2 htodo' hfinished
    exact h.congr (by rw [hpassed, if_neg (Ne.symm hop.1)]) hcomplete
  cases hm with
  | take hidle =>
    have hpassed : ∀ x, ({ w with
        todo := c.execute w.finished r
        allDirect := c.collectiveTopologyCanAllDirect w.finished } : Worker).passed x = _ :=
      passed_take hidle rfl rfl
    refine h.congr ?_ rfl
    rw [hpassed, if_pos (end_mem (by simp))]
  | ready htodo => exact hpop htodo (by simp) rfl rfl rfl
  | publishStatus htodo =>
    refine hpop htodo (by simp) rfl rfl ?_
    unfold publishFastpathDirectStatus
    split <;> rfl
  | resolve htodo => exact hpop htodo (by simp) rfl rfl rfl
  | stage htodo => exact hpop htodo (by simp) rfl rfl rfl
  | launch htodo hop =>
    refine hpop htodo ?_ rfl rfl rfl
    rcases hop with rfl | ⟨s, rfl, -⟩ <;> simp
  | synchronize htodo => exact hpop htodo (by simp) rfl rfl rfl
  | arrive htodo =>
    refine hpop htodo (by simp) rfl rfl ?_
    unfold arriveBarrier
    split <;> rfl
  | leave htodo => exact hpop htodo (by simp) rfl rfl rfl
  | @signal rest htodo =>
    have hpassed : ∀ x, ({ w with todo := rest } : Worker).passed x = _ :=
      passed_pop (htodo ▸ hl.todo) htodo (by simp) rfl rfl
    intro j hj
    rw [hpassed, if_pos rfl] at hj
    simp only [store_self]
    split
    · exact Nat.succ_le_succ (Nat.le_of_lt_succ hj)
    · next hslot =>
      have hne : j ≠ w.finished := fun heq => hslot (congrArg _ heq)
      exact h j ((by omega : j < w.finished).trans_le (finished_le_passed _ _))
  | @finish rest htodo =>
    have hpassed : ∀ x, ({ w with todo := rest, finished := w.finished + 1 } : Worker).passed x =
        _ := passed_finish (htodo ▸ hl.todo) htodo rfl rfl
    refine h.congr ?_ rfl
    rw [hpassed, if_neg (by simp)]
  | submit | element | retire | write | reach | release =>
    exact h.congr (passed_congr rfl rfl _) rfl

/-- What the ranks need to go on. -/
structure Live (c : Comm V) (st : State V) : Prop where
  order : c.Orderly st
  signalled : ∀ r, c.Signalled r st.words (st.worker r)

theorem Live.step (h : c.Live st) (hstep : c.step st l = some st') : c.Live st' := by
  refine ⟨h.order.step hstep, fun s => ?_⟩
  obtain ⟨-, mem, words, w, hm, rfl⟩ := step_cases hstep
  by_cases hs : s = l.rank
  · subst hs
    simp only [Function.update_self]
    exact (h.signalled _).move (h.order.lists _) hm
  · simp only [Function.update_of_ne hs]
    exact (h.signalled s).congr rfl (hm.words_eq hs).2.2.2.2.2

theorem Live.init (mem : Place → ℕ → V) : c.Live (State.init mem) :=
  ⟨Orderly.init mem, fun _ _ hk => absurd hk (Nat.not_lt_zero _)⟩

/-! ## What is left -/

variable (c) in
/-- Operations of a worker until it has finished `n` requests. -/
def hostLeft (n r : ℕ) (w : Worker) : ℕ :=
  w.todo.length + ∑ k ∈ Finset.Ico (w.finished + if w.todo = [] then 0 else 1) n,
    ((c.execute k r).length + 1)

/-- Steps of a host thread and a user's stream until they are through with `n` requests. -/
def userLeft (n : ℕ) (w : Worker) : ℕ := n - w.submitted + (n - w.reached) + (n - w.released)

variable (c) in
/-- Steps of the kernels on the stream of a worker. -/
def kernelsLeft (w : Worker) : ℕ :=
  w.queue.length * ((c.request w.finished).segCount + 1) +
    ((Finset.range (c.request w.finished).segCount).filter fun i => i ∉ w.processed).card

variable (c) in
/-- What is left of `n` requests on a rank.  An operation of the host may launch kernels. -/
def leftOf (n r : ℕ) (w : Worker) : ℕ × ℕ × ℕ := (c.hostLeft n r w, userLeft n w, c.kernelsLeft w)

variable (c) in
def left (n : ℕ) (st : State V) : ℕ × ℕ × ℕ :=
  sum3 c.worldSize fun r => c.leftOf n r (st.worker r)

theorem left_lt (hr : r < c.worldSize) (hworker : st'.worker = Function.update st.worker r w')
    (h : Lex3 (c.leftOf n r w') (c.leftOf n r (st.worker r))) :
    Lex3 (c.left n st') (c.left n st) := by
  refine lex_sum hr (fun i hi => ?_) ?_
  · rw [hworker, Function.update_of_ne hi]
  · simpa only [hworker, Function.update_self] using h

variable (c) in
/-- A step brings the ranks nearer to `n` requests. -/
def Nearer (n : ℕ) (st : State V) : Prop :=
  ∃ l st', c.step st l = some st' ∧ Lex3 (c.left n st') (c.left n st)

/-! ## Steps that bring the ranks nearer -/

theorem hostStep_worker (h : c.hostStep st r w op = some st') :
    ∃ w', st'.worker = Function.update st.worker r w' ∧ w'.todo = w.todo ∧
      w'.finished = if op = .finish then w.finished + 1 else w.finished := by
  cases op with
  | resolve p =>
    obtain ⟨ok, -, rfl⟩ := Option.map_eq_some_iff.1 h
    exact ⟨_, rfl, rfl, rfl⟩
  | ready | source | synchronize | leave =>
    simp only [hostStep, Option.ite_none_right_eq_some, Option.some.injEq] at h
    rw [← h.2]
    exact ⟨_, rfl, rfl, rfl⟩
  | _ => cases h; exact ⟨_, rfl, rfl, rfl⟩

theorem nearer_host (hr : r < c.worldSize) (hl : c.Lists r (st.worker r))
    (htodo : (st.worker r).todo = op :: rest)
    (hsome : (c.hostStep st r { st.worker r with todo := rest } op).isSome = true) :
    c.Nearer n st := by
  obtain ⟨st', hstep⟩ := Option.isSome_iff_exists.1 hsome
  obtain ⟨w', hworker, htodo', hfinished⟩ := hostStep_worker hstep
  refine ⟨.host r, st', by simp only [step, Label.rank, if_pos hr, htodo, hstep],
    left_lt hr hworker (lex3_iff.2 (Or.inl ?_))⟩
  simp only [leftOf, hostLeft, htodo, htodo', hfinished, List.length_cons, reduceCtorEq, if_false]
  by_cases hop : op = .finish
  · subst hop
    simp [rest_of_finish (htodo ▸ hl.todo)]
  · have hfinish : HostOp.finish ∈ rest := by
      refine mem_rest (htodo ▸ hl.todo) (end_mem (by simp)) ?_
      cases op <;> simp_all [HostOp.part]
    rw [if_neg (List.ne_nil_of_mem hfinish), if_neg hop]
    omega

theorem nearer_take (hr : r < c.worldSize) (hidle : (st.worker r).todo = [])
    (hqueued : (st.worker r).finished < (st.worker r).submitted)
    (hlt : (st.worker r).finished < n) : c.Nearer n st := by
  refine ⟨.take r, _, (if_pos hr).trans (if_pos ⟨hidle, hqueued⟩),
    left_lt hr rfl (lex3_iff.2 (Or.inl ?_))⟩
  have hne : c.execute (st.worker r).finished r ≠ [] := List.ne_nil_of_mem ready_mem
  simp only [leftOf, hostLeft, hidle, if_neg hne, if_true, List.length_nil, Nat.add_zero,
    Finset.sum_eq_sum_Ico_succ_bot hlt]
  omega

theorem nearer_submit (hr : r < c.worldSize)
    (hroom : (st.worker r).submitted - (st.worker r).finished < c.queueDepth)
    (hlt : (st.worker r).submitted < n) : c.Nearer n st := by
  refine ⟨.submit r, _, (if_pos hr).trans (if_pos hroom),
    left_lt hr rfl (lex3_iff.2 (Or.inr ⟨rfl, Or.inl ?_⟩))⟩
  simp only [leftOf, userLeft]
  omega

theorem nearer_reach (hr : r < c.worldSize) (hfree : (st.worker r).released = (st.worker r).reached)
    (hsubmitted : (st.worker r).reached < (st.worker r).submitted)
    (hlt : (st.worker r).reached < n) : c.Nearer n st := by
  refine ⟨.reach r, _, (if_pos hr).trans (if_pos ⟨hfree, hsubmitted⟩),
    left_lt hr rfl (lex3_iff.2 (Or.inr ⟨rfl, Or.inl ?_⟩))⟩
  simp only [leftOf, userLeft]
  omega

theorem nearer_release (hr : r < c.worldSize) (h : c.Signalled r st.words (st.worker r))
    (hwaits : (st.worker r).released < (st.worker r).reached)
    (hsignal : (st.worker r).released < (st.worker r).passed .signal)
    (hlt : (st.worker r).released < n) : c.Nearer n st := by
  refine ⟨.release r, _, (if_pos hr).trans (if_pos ⟨hwaits, h _ hsignal⟩),
    left_lt hr rfl (lex3_iff.2 (Or.inr ⟨rfl, Or.inl ?_⟩))⟩
  simp only [leftOf, userLeft]
  omega

/-- A kernel that has an element left processes it, and one that has none ends. -/
theorem nearer_kernels (hr : r < c.worldSize) {o : StreamOp} {os : List StreamOp}
    (hqueue : (st.worker r).queue = o :: os) : c.Nearer n st := by
  by_cases hall : ∀ i < (c.request (st.worker r).finished).segCount, i ∈ (st.worker r).processed
  · have hstep : c.retire st r = some { st with
        worker := Function.update st.worker r
          { st.worker r with queue := os, processed := [] } } := by
      simp only [retire, hqueue, if_pos hall]
    refine ⟨.retire r, _, (if_pos hr).trans hstep,
      left_lt hr rfl (lex3_iff.2 (Or.inr ⟨rfl, Or.inr ⟨rfl, ?_⟩⟩))⟩
    have hcard := Finset.card_filter_le
      (Finset.range (c.request (st.worker r).finished).segCount) fun i => i ∉ ([] : List ℕ)
    rw [Finset.card_range] at hcard
    simp only [leftOf, kernelsLeft, hqueue, List.length_cons, Nat.add_mul]
    omega
  · push Not at hall
    obtain ⟨i, hi, hnew⟩ := hall
    have hstep : c.element st r i = some { st with
        mem := c.runElement st.mem (st.worker r).finished r i o
        worker := Function.update st.worker r
          { st.worker r with processed := i :: (st.worker r).processed } } := by
      simp only [element, hqueue, if_pos (And.intro hi hnew)]
    refine ⟨.element r i, _, (if_pos hr).trans hstep,
      left_lt hr rfl (lex3_iff.2 (Or.inr ⟨rfl, Or.inr ⟨rfl, ?_⟩⟩))⟩
    refine Nat.add_lt_add_left (Finset.card_lt_card ?_) _
    refine Finset.ssubset_iff_of_subset (fun j hj => ?_) |>.2 ⟨i, ?_, ?_⟩
    · rw [Finset.mem_filter] at hj ⊢
      exact ⟨hj.1, fun hmem => hj.2 (List.mem_cons_of_mem _ hmem)⟩
    · exact Finset.mem_filter.2 ⟨Finset.mem_range.2 hi, hnew⟩
    · exact fun hmem => (Finset.mem_filter.1 hmem).2 List.mem_cons_self

/-! ## The rank that is furthest behind -/

/-- How far a worker has come. -/
def position (w : Worker) : ℕ :=
  w.finished * 11 + match w.todo with
    | [] => 0
    | op :: _ => op.part + 1

theorem part_le (op : HostOp) : op.part ≤ 9 := by cases op <;> simp [HostOp.part]

theorem position_cons (htodo : w.todo = op :: rest) :
    position w = w.finished * 11 + (op.part + 1) := by
  simp only [position, htodo]

theorem position_le (w : Worker) : position w ≤ w.finished * 11 + 10 := by
  unfold position
  split
  · omega
  · next op _ _ => exact Nat.add_le_add_left (Nat.succ_le_succ (part_le op)) _

theorem exists_behind (c : Comm V) (st : State V) :
    ∃ r < c.worldSize, ∀ s < c.worldSize, position (st.worker r) ≤ position (st.worker s) := by
  have hpos : 0 < c.worldSize := Nat.zero_lt_one.trans c.one_lt_worldSize
  obtain ⟨r, hr, hmin⟩ := Finset.exists_min_image (Finset.range c.worldSize)
    (fun s => position (st.worker s)) ⟨0, Finset.mem_range.2 hpos⟩
  exact ⟨r, Finset.mem_range.1 hr, fun s hs => hmin s (Finset.mem_range.2 hs)⟩

theorem finished_le_of_position (h : position w ≤ position w') : w.finished ≤ w'.finished := by
  have hle := position_le w'
  have hge : w.finished * 11 ≤ position w := Nat.le_add_right _ _
  omega

/-- A worker of the same request that is not behind has passed what comes earlier. -/
theorem lt_passed_of_position (hl : c.Lists s w') (htodo : w.todo = op :: rest)
    (h : position w ≤ position w') (hfinished : w'.finished = w.finished)
    (hpart : x.part < op.part) : w'.finished < w'.passed x := by
  rw [position_cons htodo, ← hfinished] at h
  cases htodo' : w'.todo with
  | nil =>
    simp only [position, htodo'] at h
    omega
  | cons op' rest' =>
    rw [position_cons htodo'] at h
    exact lt_passed_of_part (htodo' ▸ hl.todo) htodo' (by omega)

/-- The peers of the rank furthest behind have done what it waits for. -/
theorem Orderly.peer (h : c.Orderly st) (hr : r < c.worldSize)
    (hmin : ∀ s < c.worldSize, position (st.worker r) ≤ position (st.worker s))
    (htodo : (st.worker r).todo = op :: rest) (hop : op.part < 6) (hs : s < c.worldSize) :
    (st.worker s).finished = (st.worker r).finished ∧
      ∀ x : HostOp, x.part < op.part → (st.worker s).finished < (st.worker s).passed x := by
  have hsame := h.barrier.same_request hr hs (arrive_mem (h.lists r) htodo hop)
    (finished_le_of_position (hmin s hs))
  exact ⟨hsame, fun x hx => lt_passed_of_position (h.lists s) htodo (hmin s hs) hsame hx⟩

/-- Nobody waits at the barrier for the rank furthest behind, once it is there itself. -/
theorem Orderly.raised (h : c.Orderly st) (hr : r < c.worldSize)
    (hmin : ∀ s < c.worldSize, position (st.worker r) ≤ position (st.worker s))
    (htodo : (st.worker r).todo = .leave :: rest) :
    (st.worker r).generation < st.words.barrierGeneration := by
  have hleave : HostOp.leave ∈ (st.worker r).todo := htodo ▸ List.mem_cons_self
  have harrive := lt_passed_of_part (x := .arrive) (htodo ▸ (h.lists r).todo) htodo (by decide)
  obtain ⟨hge, hle⟩ := h.barrier.bounds r hr
  by_cases heq : (st.worker r).passed .arrive = st.words.barrierGeneration
  · exact h.barrier.raised r hr heq harrive hleave
  · exfalso
    have hfinished := (h.barrier.waiting r hr (by omega)).1
    -- then all ranks wait, and the last to arrive would have raised the generation
    have hall : ∀ s < c.worldSize,
        (st.worker s).passed .arrive = st.words.barrierGeneration + 1 := by
      intro s hs
      have hbound := (h.barrier.bounds s hs).2
      have hfs := finished_le_of_position (hmin s hs)
      have hpassed := finished_le_passed (st.worker s) .arrive
      by_cases hsame : (st.worker s).finished = (st.worker r).finished
      · have := lt_passed_of_position (x := .arrive) (h.lists s) htodo (hmin s hs) hsame (by decide)
        omega
      · omega
    have hcount := h.barrier.count
    rw [Finset.filter_true_of_mem fun s hs => hall s (Finset.mem_range.1 hs),
      Finset.card_range] at hcount
    exact absurd h.barrier.lt_worldSize (by omega)

variable (c) in
/-- Every broadcast has a rank as its root, as `canHandle` checks. -/
def RootsInRange : Prop := ∀ k root, (c.request k).kind = .broadcast root → root < c.worldSize

/-- The worker furthest behind goes on, or its kernels or its user's stream do. -/
theorem Live.nearer_todo (hroot : c.RootsInRange) (h : c.Live st) (hr : r < c.worldSize)
    (hmin : ∀ s < c.worldSize, position (st.worker r) ≤ position (st.worker s))
    (htodo : (st.worker r).todo = op :: rest) (hn : (st.worker r).finished < n) :
    c.Nearer n st := by
  have hl := h.order.lists r
  have hu := h.order.user r
  have hmem : op ∈ c.execute (st.worker r).finished r :=
    hl.todo.subset (htodo ▸ List.mem_cons_self)
  have hgo : (c.hostStep st r { st.worker r with todo := rest } op).isSome = true →
      c.Nearer n st := nearer_host hr hl htodo
  cases op with
  | ready =>
    have hbusy := hl.busy (by simp [htodo])
    have hbegan := hu.began
    rw [passed_of_mem (htodo ▸ List.mem_cons_self)] at hbegan
    have hsignal : (st.worker r).passed .signal = (st.worker r).finished :=
      passed_of_mem (htodo ▸ List.mem_cons_of_mem _
        (mem_rest (htodo ▸ hl.todo) (end_mem (by simp)) (by decide)))
    have hreleased := hu.signalled
    have hreached := hu.reached
    rcases Nat.lt_or_ge (st.worker r).finished (st.worker r).reached with hlt | hge
    · have heq : (st.worker r).released = (st.worker r).finished := by omega
      have hword := hu.host (by omega) heq.ge
      rw [heq] at hword
      exact hgo (by simp only [hostStep, if_pos hword, Option.isSome_some])
    · by_cases hfree : (st.worker r).released = (st.worker r).reached
      · exact nearer_reach hr hfree (by omega) (by omega)
      · have := hu.released
        exact nearer_release hr (h.signalled r) (by omega) (by omega) (by omega)
  | resolve p =>
    obtain ⟨htopo, hp⟩ := resolve_mem hmem
    obtain ⟨hsame, hpassed⟩ := h.order.peer hr hmin htodo (by simp [HostOp.part]) hp
    have hstatus := (h.order.words p).status (hsame ▸ htopo)
      (hpassed .publishStatus (by simp [HostOp.part]))
    rw [hsame] at hstatus
    refine hgo ?_
    simp only [hostStep, Option.isSome_map, getFastpathDirectStatus]
    rcases hstatus with hword | hword
    · simp only [if_pos hword, Option.isSome_some]
    · split
      · rfl
      · rfl
  | source s =>
    have hs := (source_mem (hroot _) hr hmem).1
    obtain ⟨hsame, hpassed⟩ := h.order.peer hr hmin htodo (by simp [HostOp.part]) hs
    have hready := (h.order.words s).ready (hpassed .ready (by simp [HostOp.part]))
    have hstage := (h.order.words s).stage (hpassed .stage (by simp [HostOp.part]))
    rw [hsame] at hready hstage
    refine hgo ?_
    simp [hostStep, sourceReady, hready, hstage]
  | synchronize =>
    cases hqueue : (st.worker r).queue with
    | nil => exact hgo (by simp only [hostStep, if_pos hqueue, Option.isSome_some])
    | cons o os => exact nearer_kernels hr hqueue
  | leave =>
    exact hgo (by simp only [hostStep, if_pos (h.order.raised hr hmin htodo), Option.isSome_some])
  | publishStatus | stage | own | arrive | signal | finish => exact hgo rfl

/-- **Somebody can always go on.** -/
theorem Live.exists_nearer (hroot : c.RootsInRange) (h : c.Live st)
    (hleft : ∃ r < c.worldSize, (st.worker r).released < n) : c.Nearer n st := by
  obtain ⟨b, hb, hmin⟩ := exists_behind c st
  by_cases hwork : (st.worker b).finished < n
  · have hl := h.order.lists b
    cases htodo : (st.worker b).todo with
    | cons op rest => exact h.nearer_todo hroot hb hmin htodo hwork
    | nil =>
      have hle := hl.finished
      rcases hle.lt_or_eq with hlt | heq
      · exact nearer_take hb htodo hlt hwork
      · refine nearer_submit hb ?_ (heq ▸ hwork)
        have := c.queueDepth_pos
        omega
  · -- all workers are through, so that only users' streams are behind
    obtain ⟨r, hr, hlt⟩ := hleft
    have hfinished := finished_le_of_position (hmin r hr)
    have hu := h.order.user r
    have hl := (h.order.lists r).finished
    have hpassed := finished_le_passed (st.worker r) .signal
    rcases hu.released.lt_or_eq with hwaits | hfree
    · exact nearer_release hr (h.signalled r) hwaits (by omega) hlt
    · exact nearer_reach hr hfree (by omega) (hfree ▸ hlt)

/-! ## Completion -/

end Comm
end Series
end Fastpath
end HyLink
