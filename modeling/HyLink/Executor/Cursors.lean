import Mathlib.Data.List.Basic
import HyLink.Executor.Inversion

/-!
# Cursors and queues

The bookkeeping of one executor: every entry in flight is a submitted subchunk,
sits in the queue of its node and occurs once, entries of one node are queued in
subchunk order, and no cursor passes the number of subchunks.

A slice is **done** when it has been submitted and no unfinished entry in flight
is for it.  Once done, a slice stays done.

* `Tidy.of_localStep` — the bookkeeping is preserved by every step.
* `SliceDone.of_localStep` — so is a slice being done.
-/

namespace HyLink
namespace Executor

open Ir Compiler

/-- The device or host work of a slice is complete. -/
def SliceDone (e : Exec) (i sc : ℕ) : Prop :=
  sc < e.next i ∧ ∀ q, ∀ x ∈ e.inflight q, x.node = i → x.sc = sc → x.finished = true

/-- The node whose next subchunk an operation is about to submit. -/
def Op.submits : Op → Option ℕ
  | .finishNow i | .submitH2h i | .submitDma i | .recordDma i => some i
  | _ => none

/-- A load of `trySubmitNode`. -/
def Op.loads : Op → Bool
  | .loadWriteProgress .. | .loadNumReaders .. | .loadConsumeProgress .. | .loadUserReady _ => true
  | _ => false

structure Tidy (c : Cluster) (r : ℕ) (e : Exec) : Prop where
  sorted : ∀ q, (e.inflight q).Pairwise fun a b => a.node = b.node → a.sc < b.sc
  issued : ∀ q, ∀ x ∈ e.inflight q, x.sc < e.next x.node
  queue : ∀ q, ∀ x ∈ e.inflight q, ∃ n, c.node? r x.node = some n ∧ queueOf n = q
  next_le : ∀ i, e.next i ≤ c.numSubchunks
  submits : ∀ op ∈ e.todo, ∀ i, op.submits = some i →
    (∃ n, c.node? r i = some n) ∧ e.next i < c.numSubchunks
  completed : ∀ i n, c.node? r i = some n →
    e.completed i + (e.inflight (queueOf n)).countP (fun x => x.node == i) = e.next i

section

variable {c : Cluster} {r : ℕ} {w w' : SharedWords} {e e' : Exec} {l : Label}

/-! ## Which operations submit -/

theorem submits_publishOps {n : InstructionNode} {sc : ℕ} {op : Op} (h : op ∈ publishOps n sc) :
    op.submits = none := by
  simp only [publishOps, List.mem_cons, List.mem_filterMap, Option.map_eq_some_iff] at h
  rcases h with rfl | ⟨x, -, id, -, rfl⟩ <;> rfl

theorem submits_startOps {op : Op} (h : op ∈ c.startOps r) : op.submits = none := by
  simp only [Cluster.startOps, List.mem_append, List.mem_cons, List.mem_map] at h
  rcases h with (⟨k, -, rfl⟩ | ⟨k, -, rfl⟩) | rfl | ⟨k, -, rfl⟩ <;> rfl

theorem submits_remoteReady {n : InstructionNode} {op : Op} (h : op ∈ remoteReady n) :
    op.submits = none := by
  simp only [remoteReady] at h
  split at h <;> simp only [List.mem_singleton, List.not_mem_nil] at h
  subst h
  rfl

/-- A thread that tries a node loads cursors and then submits the node's next subchunk. -/
theorem kind_attemptOps {n : InstructionNode} {i sc : ℕ} {op : Op}
    (h : op ∈ c.attemptOps r i n sc) : op.loads = true ∨ op.submits = some i := by
  simp only [Cluster.attemptOps, inputsReady, List.mem_append, List.mem_map] at h
  rcases h with ⟨x, -, rfl⟩ | h | h
  · exact Or.inl rfl
  · simp only [Cluster.overwriteReady, List.mem_append] at h
    rcases h with h | h
    · split at h <;> simp only [List.mem_singleton, List.not_mem_nil] at h
      subst h
      exact Or.inl rfl
    · split at h
      · cases h
      · simp only [List.mem_append, List.mem_singleton] at h
        rcases h with h | rfl
        · split at h <;> simp only [List.mem_singleton, List.not_mem_nil] at h
          subst h
          exact Or.inl rfl
        · exact Or.inl rfl
  · simp only [Cluster.submitOps] at h
    split at h
    · rw [List.mem_singleton] at h
      subst h
      exact Or.inr rfl
    · simp only [List.mem_append, Cluster.leadWindow, List.mem_singleton] at h
      rcases h with h | h
      · split at h <;> simp only [List.mem_singleton, List.not_mem_nil] at h
        subst h
        exact Or.inl rfl
      · split at h <;> subst h <;> exact Or.inr rfl

theorem submits_of_loads {op : Op} (h : op.loads = true) : op.submits = none := by
  cases op <;> first | rfl | cases h

theorem submits_attemptOps {n : InstructionNode} {i sc k : ℕ} {op : Op}
    (h : op ∈ c.attemptOps r i n sc) (hk : op.submits = some k) : k = i := by
  rcases kind_attemptOps h with hl | hs
  · rw [submits_of_loads hl] at hk; cases hk
  · exact Option.some.inj (hk.symm.trans hs)

/-! ## Shares -/

theorem exists_of_mem_modify {α : Type} {f : α → α} {x : α} :
    ∀ {l : List α} {j : ℕ}, x ∈ l.modify j f → x ∈ l ∨ ∃ y, l[j]? = some y ∧ x = f y
  | [], j, h => by simp at h
  | a :: l, 0, h => by
    rw [List.modify_zero_cons, List.mem_cons] at h
    rcases h with rfl | h
    · exact Or.inr ⟨a, rfl, rfl⟩
    · exact Or.inl (List.mem_cons_of_mem _ h)
  | a :: l, j + 1, h => by
    rw [List.modify_succ_cons, List.mem_cons] at h
    rcases h with rfl | h
    · exact Or.inl List.mem_cons_self
    · rcases exists_of_mem_modify h with h | ⟨y, hy, rfl⟩
      · exact Or.inl (List.mem_cons_of_mem _ h)
      · exact Or.inr ⟨y, by simpa using hy, rfl⟩

theorem countP_le_modify {f : Share → Share}
    (hf : ∀ s : Share, s.counted = true → (f s).counted = true) :
    ∀ (shares : List Share) (t : ℕ),
      shares.countP (·.counted) ≤ (shares.modify t f).countP (·.counted)
  | [], t => by simp
  | s :: shares, 0 => by
    have := hf s
    simp only [List.modify_zero_cons, List.countP_cons]
    split <;> split <;> simp_all
  | s :: shares, t + 1 => by
    have := countP_le_modify hf shares t
    simp only [List.modify_succ_cons, List.countP_cons]
    omega

/-- A step of a share leaves the node and the subchunk of every entry as they are,
and unfinishes none. -/
theorem mem_updateShare {q q' : Queue} {j t : ℕ} {f : Share → Share}
    (hf : ∀ s : Share, s.counted = true → (f s).counted = true) {x : Inflight}
    (hx : x ∈ (e.updateShare q j t f).inflight q') :
    ∃ y ∈ e.inflight q', y.node = x.node ∧ y.sc = x.sc ∧
      (y.finished = true → x.finished = true) := by
  simp only [Exec.updateShare] at hx
  by_cases hq : q' = q
  · subst hq
    rw [Function.update_self] at hx
    rcases exists_of_mem_modify hx with hx | ⟨y, hy, rfl⟩
    · exact ⟨x, hx, rfl, rfl, id⟩
    · refine ⟨y, List.mem_of_getElem? hy, rfl, rfl, fun hfin => decide_eq_true ?_⟩
      rw [List.length_modify]
      exact (of_decide_eq_true hfin).trans (countP_le_modify hf y.shares t)
  · rw [Function.update_of_ne hq] at hx
    exact ⟨x, hx, rfl, rfl, id⟩

/-! ## Preservation -/

theorem mem_update_append {q q' : Queue} {f : Queue → List Inflight} {x y : Inflight}
    (h : x ∈ Function.update f q (f q ++ [y]) q') : x ∈ f q' ∨ (q' = q ∧ x = y) := by
  by_cases hq : q' = q
  · subst hq
    rw [Function.update_self, List.mem_append, List.mem_singleton] at h
    exact h.imp_right fun hx => ⟨rfl, hx⟩
  · rw [Function.update_of_ne hq] at h
    exact Or.inl h

theorem mem_update_eraseIdx {q q' : Queue} {f : Queue → List Inflight} {j : ℕ} {x : Inflight}
    (h : x ∈ Function.update f q ((f q).eraseIdx j) q') : x ∈ f q' := by
  by_cases hq : q' = q
  · subst hq
    rw [Function.update_self] at h
    exact List.mem_of_mem_eraseIdx h
  · rwa [Function.update_of_ne hq] at h

theorem next_le_update (e : Exec) (i k : ℕ) :
    e.next k ≤ Function.update e.next i (e.next i + 1) k := by
  by_cases hk : k = i
  · subst hk; simp
  · simp [hk]

/-- **A done slice stays done.** -/
theorem SliceDone.of_motion (hm : Motion c r e e' l) {i sc : ℕ} (h : SliceDone e i sc) :
    SliceDone e' i sc := by
  obtain ⟨hlt, hdone⟩ := h
  cases hm with
  | still hnext _ hin _ => exact ⟨by rw [hnext]; exact hlt, by rw [hin]; exact hdone⟩
  | @finish _ k _ _ _ hnext _ hin =>
    exact ⟨by rw [hnext]; exact hlt.trans_le (next_le_update e k i), by rw [hin]; exact hdone⟩
  | @push _ k _ _ _ hnext _ hin =>
    refine ⟨by rw [hnext]; exact hlt.trans_le (next_le_update e k i), fun q x hx hi hsc => ?_⟩
    rw [hin] at hx
    rcases mem_update_append hx with hx | ⟨-, rfl⟩
    · exact hdone q x hx hi hsc
    · -- the new entry is for the next subchunk, which `sc` is not
      simp only at hi hsc
      subst hi hsc
      exact absurd hlt (lt_irrefl _)
  | poll _ _ _ _ _ hnext _ hin =>
    refine ⟨by rw [hnext]; exact hlt, fun q x hx hi hsc => ?_⟩
    rw [hin] at hx
    exact hdone q x (mem_update_eraseIdx hx) hi hsc
  | work _ _ _ _ _ _ he =>
    subst he
    refine ⟨hlt, fun q x hx hi hsc => ?_⟩
    obtain ⟨y, hy, hyn, hysc, hfin⟩ := mem_updateShare (fun s h => by exact h) hx
    exact hfin (hdone q y hy (hyn.trans hi) (hysc.trans hsc))
  | count _ _ _ he =>
    subst he
    refine ⟨hlt, fun q x hx hi hsc => ?_⟩
    obtain ⟨y, hy, hyn, hysc, hfin⟩ := mem_updateShare (fun _ _ => rfl) hx
    exact hfin (hdone q y hy (hyn.trans hi) (hysc.trans hsc))

theorem SliceDone.of_localStep (h : c.localStep r w e l = some (w', e')) {i sc : ℕ}
    (hdone : SliceDone e i sc) : SliceDone e' i sc :=
  hdone.of_motion (Motion.of_localStep h)

/-! ### The bookkeeping -/

theorem map_modify_eq {α β : Type} {f : α → α} {g : α → β} (hg : ∀ a, g (f a) = g a)
    (l : List α) (j : ℕ) : (l.modify j f).map g = l.map g := by
  induction l generalizing j with
  | nil => simp
  | cons a l ih => cases j <;> simp [hg, ih]

/-- Which entries are queued, without their shares. -/
theorem map_updateShare (q q' : Queue) (j t : ℕ) (f : Share → Share) :
    ((e.updateShare q j t f).inflight q').map (fun x => (x.node, x.sc)) =
      (e.inflight q').map fun x => (x.node, x.sc) := by
  simp only [Exec.updateShare]
  by_cases hq : q' = q
  · subst hq
    rw [Function.update_self]
    exact map_modify_eq (f := fun entry : Inflight =>
      { entry with shares := entry.shares.modify t f }) (fun _ => rfl) _ _
  · rw [Function.update_of_ne hq]

theorem mem_key_updateShare {q q' : Queue} {j t : ℕ} {f : Share → Share}
    {y : Inflight} (hy : y ∈ e.inflight q') :
    ∃ x ∈ (e.updateShare q j t f).inflight q', x.node = y.node ∧ x.sc = y.sc := by
  have hmem : (y.node, y.sc) ∈ (e.inflight q').map fun x => (x.node, x.sc) :=
    List.mem_map_of_mem hy
  rw [← map_updateShare q q' j t f, List.mem_map] at hmem
  obtain ⟨x, hx, heq⟩ := hmem
  simp only [Prod.mk.injEq] at heq
  exact ⟨x, hx, heq.1, heq.2⟩

theorem Tidy.of_map_eq (h : Tidy c r e) (hnext : e'.next = e.next)
    (hcompleted : e'.completed = e.completed) (htodo : e'.todo = e.todo)
    (hmap : ∀ q, (e'.inflight q).map (fun x => (x.node, x.sc)) =
      (e.inflight q).map fun x => (x.node, x.sc)) : Tidy c r e' := by
  have hmem : ∀ q, ∀ x ∈ e'.inflight q, ∃ y ∈ e.inflight q, y.node = x.node ∧ y.sc = x.sc := by
    intro q x hx
    have hx' : (x.node, x.sc) ∈ (e'.inflight q).map fun x => (x.node, x.sc) :=
      List.mem_map_of_mem hx
    rw [hmap, List.mem_map] at hx'
    obtain ⟨y, hy, heq⟩ := hx'
    simp only [Prod.mk.injEq] at heq
    exact ⟨y, hy, heq.1, heq.2⟩
  refine ⟨fun q => ?_, fun q x hx => ?_, fun q x hx => ?_, ?_, ?_, fun i n hn => ?_⟩
  · have hs : ((e.inflight q).map fun x => (x.node, x.sc)).Pairwise
        fun a b => a.1 = b.1 → a.2 < b.2 := List.pairwise_map.2 (h.sorted q)
    rw [← hmap] at hs
    exact List.pairwise_map.1 hs
  · obtain ⟨y, hy, hyn, hysc⟩ := hmem q x hx
    rw [hnext, ← hyn, ← hysc]
    exact h.issued q y hy
  · obtain ⟨y, hy, hyn, -⟩ := hmem q x hx
    rw [← hyn]
    exact h.queue q y hy
  · rw [hnext]; exact h.next_le
  · rw [hnext, htodo]; exact h.submits
  · have hcount : ∀ l : List Inflight, l.countP (fun x => x.node == i) =
        (l.map fun x => (x.node, x.sc)).countP fun p => p.1 == i := fun l => by
      rw [List.countP_map]; rfl
    rw [hnext, hcompleted, hcount, hmap, ← hcount]
    exact h.completed i n hn

theorem submits_head (h : Tidy c r e) {op : Op} (hhead : e.todo.head? = some op) {i : ℕ}
    (hi : op.submits = some i) : e.next i < c.numSubchunks :=
  (h.submits op (List.mem_of_mem_head? hhead) i hi).2

theorem update_next_le (h : Tidy c r e) {i : ℕ} (hi : e.next i < c.numSubchunks) (k : ℕ) :
    Function.update e.next i (e.next i + 1) k ≤ c.numSubchunks := by
  by_cases hk : k = i
  · subst hk; rw [Function.update_self]; exact hi
  · simpa [hk] using h.next_le k

/-- New operations that submit a subchunk do so for a node with one left. -/
theorem submits_fresh (h : Tidy c r e) {op : Op} (hf : Fresh c r w e l op) {i : ℕ}
    (hi : op.submits = some i) :
    (∃ n, c.node? r i = some n) ∧ e.next i < c.numSubchunks := by
  cases hf with
  | start hop => rw [submits_startOps hop] at hi; cases hi
  | attempt _ hlt hnode hop =>
    cases submits_attemptOps hop hi
    exact ⟨⟨_, hnode⟩, hlt⟩
  | poll _ _ _ _ hop => rw [submits_publishOps hop] at hi; cases hi
  | finish _ _ hop => rw [submits_publishOps hop] at hi; cases hi
  | samePlace hhead hnode =>
    cases hi
    exact ⟨⟨_, hnode⟩, submits_head h hhead rfl⟩
  | record hhead hnode hop =>
    rcases List.mem_append.1 hop with hop | hop
    · rw [submits_remoteReady hop] at hi; cases hi
    · rw [List.mem_singleton] at hop
      subst hop
      cases hi
      exact ⟨⟨_, hnode⟩, submits_head h hhead rfl⟩
  | _ => cases hi

/-- **The bookkeeping is preserved.** -/
theorem Tidy.of_localStep (hstep : c.localStep r w e l = some (w', e')) (h : Tidy c r e) :
    Tidy c r e' := by
  cases Motion.of_localStep hstep with
  | still hnext hcompleted hin _ =>
    refine ⟨by rw [hin]; exact h.sorted, by rw [hin, hnext]; exact h.issued,
      by rw [hin]; exact h.queue, by rw [hnext]; exact h.next_le, fun op hop i hi => ?_,
      by rw [hin, hnext, hcompleted]; exact h.completed⟩
    rw [hnext]
    rcases Fresh.of_mem_todo hstep hop with hop | hf
    · exact h.submits op hop i hi
    · exact submits_fresh h hf hi
  | @finish _ k n hhead hnode hnext hcompleted hin htodo =>
    have hk := submits_head h hhead rfl
    refine ⟨by rw [hin]; exact h.sorted, fun q x hx => ?_, by rw [hin]; exact h.queue,
      by rw [hnext]; exact update_next_le h hk, fun op hop i hi => ?_, fun i n' hn' => ?_⟩
    · rw [hin] at hx
      rw [hnext]
      exact (h.issued q x hx).trans_le (next_le_update e k _)
    · rw [htodo] at hop
      rw [submits_publishOps hop] at hi
      cases hi
    · have := h.completed i n' hn'
      rw [hin, hnext, hcompleted]
      by_cases hik : i = k
      · subst hik; simp only [Function.update_self]; omega
      · simpa [hik] using this
  | @push _ k n hhead hnode hnext hcompleted hin htodo =>
    have hk : e.next k < c.numSubchunks := by
      rcases hhead with hhead | hhead <;> exact submits_head h hhead rfl
    refine ⟨fun q => ?_, fun q x hx => ?_, fun q x hx => ?_,
      by rw [hnext]; exact update_next_le h hk, by rw [htodo]; simp, fun i n' hn' => ?_⟩
    · rw [hin]
      by_cases hq : q = queueOf n
      · subst hq
        rw [Function.update_self, List.pairwise_append]
        refine ⟨h.sorted _, List.pairwise_singleton _ _, fun a ha b hb hab => ?_⟩
        rw [List.mem_singleton] at hb
        subst hb
        simp only at hab ⊢
        rw [← hab]
        exact h.issued _ a ha
      · rw [Function.update_of_ne hq]; exact h.sorted q
    · rw [hin] at hx
      rw [hnext]
      rcases mem_update_append hx with hx | ⟨-, rfl⟩
      · exact (h.issued q x hx).trans_le (next_le_update e k _)
      · simp
    · rw [hin] at hx
      rcases mem_update_append hx with hx | ⟨rfl, rfl⟩
      · exact h.queue q x hx
      · exact ⟨n, hnode, rfl⟩
    · have := h.completed i n' hn'
      rw [hin, hnext, hcompleted]
      by_cases hik : i = k
      · subst hik
        cases hnode.symm.trans hn'
        simp only [Function.update_self, List.countP_append, List.countP_singleton,
          beq_self_eq_true, if_true]
        omega
      · have hki : (k == i) = false := by simpa using Ne.symm hik
        by_cases hq : queueOf n' = queueOf n
        · rw [hq] at this ⊢
          simp only [Function.update_self, List.countP_append, List.countP_singleton, hki,
            Function.update_of_ne hik]
          simpa using this
        · simpa [Function.update_of_ne hq, Function.update_of_ne hik] using this
  | @poll _ q j entry n _ _ hentry _ hnode hnext hcompleted hin htodo =>
    obtain ⟨hj, hget⟩ := List.getElem?_eq_some_iff.1 hentry
    have hmem : ∀ q', ∀ x ∈ e'.inflight q', x ∈ e.inflight q' := fun q' x hx => by
      rw [hin] at hx; exact mem_update_eraseIdx hx
    refine ⟨fun q' => ?_, fun q' x hx => by rw [hnext]; exact h.issued q' x (hmem q' x hx),
      fun q' x hx => h.queue q' x (hmem q' x hx), by rw [hnext]; exact h.next_le,
      fun op hop i hi => ?_, fun i n' hn' => ?_⟩
    · rw [hin]
      by_cases hq : q' = q
      · subst hq
        rw [Function.update_self]
        exact (h.sorted q').sublist (List.eraseIdx_sublist _ _)
      · rw [Function.update_of_ne hq]; exact h.sorted q'
    · rw [htodo] at hop
      rw [submits_publishOps hop] at hi
      cases hi
    · have hcomp := h.completed i n' hn'
      have hperm := (List.getElem_cons_eraseIdx_perm hj).countP_eq fun x => x.node == i
      rw [hget, List.countP_cons] at hperm
      rw [hin, hnext, hcompleted]
      by_cases hik : i = entry.node
      · subst hik
        cases hnode.symm.trans hn'
        obtain ⟨n2, hn2, hq2⟩ := h.queue q entry (List.mem_of_getElem? hentry)
        cases hnode.symm.trans hn2
        subst hq2
        simp only [Function.update_self, beq_self_eq_true, if_true] at hperm ⊢
        omega
      · have hki : (entry.node == i) = false := by simpa using Ne.symm hik
        simp only [hki, Bool.false_eq_true, if_false, Nat.add_zero] at hperm
        by_cases hq : queueOf n' = q
        · subst hq
          simp only [Function.update_self, Function.update_of_ne hik]
          rw [hperm]
          exact hcomp
        · simpa [Function.update_of_ne hq, Function.update_of_ne hik] using hcomp
  | work _ _ _ _ _ _ he => subst he; exact h.of_map_eq rfl rfl rfl fun q => map_updateShare _ _ _ _ _
  | count _ _ _ he => subst he; exact h.of_map_eq rfl rfl rfl fun q => map_updateShare _ _ _ _ _

theorem Tidy.init : Tidy c r {} :=
  ⟨by simp, by simp, by simp, by simp, by simp, by simp⟩

end

end Executor
end HyLink
