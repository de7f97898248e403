import HyLink.Executor.Origin

/-!
# The ledger of executed work

The effects of a run: which bytes of which slices have been worked through, in
order.  A piece is recorded when a share moves on; a device copy onto itself,
which is published without being issued, is recorded as a whole when it is
published.

* `Ledger.step` — the ledger agrees with the entries in flight after every step.
* `Ledger.executed` — of a done slice every worker has worked through its whole
  share.
* `threadShare_cover` — the shares of the workers cover the slice, up to its last
  whole unit.
-/

namespace HyLink
namespace Executor

open Ir Compiler

/-- The bytes from `start` to `stop` of slice `sc` of node `node` of a rank. -/
structure Piece where
  rank : ℕ
  node : ℕ
  sc : ℕ
  start : ℕ
  stop : ℕ
  deriving DecidableEq, Repr

/-- Byte `x` of the slice is in the ledger. -/
def Executed (tr : List Piece) (r i sc x : ℕ) : Prop :=
  ∃ p ∈ tr, p.rank = r ∧ p.node = i ∧ p.sc = sc ∧ p.start ≤ x ∧ x < p.stop

namespace Cluster

variable (c : Cluster)

/-- What a step works through. -/
def effects (s : State) : Label → List Piece
  | .work r q j t k =>
      match ((s.execs r).inflight q)[j]? with
      | none => []
      | some entry =>
          match entry.shares[t]? with
          | none => []
          | some share => [⟨r, entry.node, entry.sc, share.pos, share.pos + k⟩]
  | .run r =>
      match (s.execs r).todo.head? with
      | some (.finishNow i) =>
          match c.node? r i with
          | none => []
          | some n =>
              if c.immediate n ((s.execs r).next i) then []
              else [⟨r, i, (s.execs r).next i, 0, c.subchunkSize n ((s.execs r).next i)⟩]
      | _ => []
  | _ => []

/-- The diagnostic switch keeps this node's work from being issued. -/
def skipped (n : InstructionNode) : Prop :=
  c.env.skipDma = true ∧ (n.op = .d2h ∨ n.op = .h2d ∨ n.op = .d2d ∨ n.op = .d2dReduce)

/-- Every share of slice `sc` of a node has been worked through. -/
def SliceExecuted (tr : List Piece) (r i : ℕ) (n : InstructionNode) (sc : ℕ) : Prop :=
  ∀ share ∈ c.sharesOf n (c.subchunkSize n sc), ∀ x, share.start ≤ x → x < share.stop →
    Executed tr r i sc x

end Cluster

/-- A share's bounds, which never change. -/
def Share.range (s : Share) : ℕ × ℕ := (s.start, s.stop)

/-- A share in flight: where it is, and that its bytes up to there are in the
ledger. -/
structure ShareOk (tr : List Piece) (r i sc : ℕ) (s : Share) : Prop where
  start_le : s.start ≤ s.pos
  counted : s.counted = true → s.pos = s.stop
  executed : ∀ x, s.start ≤ x → x < s.pos → Executed tr r i sc x

/-- The ledger agrees with the work in flight. -/
structure Ledger (c : Cluster) (tr : List Piece) (s : State) : Prop where
  ranges : ∀ r q, ∀ e ∈ (s.execs r).inflight q, ∀ n, c.node? r e.node = some n →
    e.shares.map Share.range = (c.sharesOf n (c.subchunkSize n e.sc)).map Share.range
  shares : ∀ r q, ∀ e ∈ (s.execs r).inflight q, ∀ share ∈ e.shares,
    ShareOk tr r e.node e.sc share
  done : ∀ r i n, c.node? r i = some n → ¬ c.skipped n → ∀ sc < (s.execs r).next i,
    (∀ q, ∀ e ∈ (s.execs r).inflight q, ¬ (e.node = i ∧ e.sc = sc)) →
    c.SliceExecuted tr r i n sc

section

variable {c : Cluster} {tr : List Piece} {s s' : State} {l : Label}

/-! ## Shares -/

theorem sharesOf_start {n : InstructionNode} {bytes : ℕ} {share : Share}
    (h : share ∈ c.sharesOf n bytes) :
    share.pos = share.start ∧ share.counted = false ∧ share.stop ≤ bytes := by
  simp only [Cluster.sharesOf] at h
  split at h
  · obtain ⟨tid, -, rfl⟩ := List.mem_map.1 h
    exact ⟨rfl, rfl, min_le_right _ _⟩
  · rw [List.mem_singleton] at h
    subst h
    exact ⟨rfl, rfl, le_rfl⟩

/-- The ranges of the workers' shares cover the slice up to its last whole unit. -/
theorem threadShare_cover {n : InstructionNode} {bytes x : ℕ}
    (hx : x < bytes / c.workUnit n * c.workUnit n) :
    ∃ tid < c.h2hThreads, (c.threadShare n bytes tid).start ≤ x ∧
      x < (c.threadShare n bytes tid).stop := by
  have hunit : 0 < c.workUnit n := by
    simp only [Cluster.workUnit]; split <;> omega
  have hle : bytes / c.workUnit n * c.workUnit n ≤ bytes := Nat.div_mul_le_self _ _
  have hthreads := c.h2hThreads_pos
  simp only [Cluster.threadShare]
  generalize c.workUnit n = unit at hunit hx hle ⊢
  generalize hunits : bytes / unit = units at hx hle ⊢
  generalize c.h2hThreads = T at hthreads ⊢
  set per := (units + T - 1) / T with hper
  -- `per` threads' worth of units reach past the last unit
  have hTper : units ≤ T * per := by
    have h1 := Nat.lt_div_mul_add (a := units + T - 1) hthreads
    rw [← hper, Nat.mul_comm] at h1
    omega
  have hper0 : 0 < per := by
    rcases Nat.eq_zero_or_pos per with h0 | h0
    · rw [h0, Nat.mul_zero, Nat.le_zero] at hTper
      rw [hTper, Nat.zero_mul] at hx
      exact absurd hx (Nat.not_lt_zero _)
    · exact h0
  have hspan : 0 < per * unit := Nat.mul_pos hper0 hunit
  refine ⟨x / (per * unit), ?_, ?_, ?_⟩
  · rw [Nat.div_lt_iff_lt_mul hspan, ← Nat.mul_assoc]
    exact hx.trans_le (Nat.mul_le_mul_right _ hTper)
  · refine (min_le_left _ _).trans ?_
    rw [Nat.mul_assoc]
    exact Nat.div_mul_le_self _ _
  · have h1 := Nat.lt_div_mul_add (a := x) hspan
    have h2 : x / (per * unit) * per * unit ≤ x := by
      rw [Nat.mul_assoc]; exact Nat.div_mul_le_self _ _
    rw [min_eq_left (by omega : x / (per * unit) * per * unit ≤ bytes)]
    refine lt_min ?_ (by omega)
    rw [Nat.mul_assoc]
    exact h1

theorem Executed.mono {tr' : List Piece} {r i sc x : ℕ} (h : Executed tr r i sc x) :
    Executed (tr ++ tr') r i sc x := by
  obtain ⟨p, hp, hrest⟩ := h
  exact ⟨p, List.mem_append_left _ hp, hrest⟩

theorem ShareOk.mono {tr' : List Piece} {r i sc : ℕ} {share : Share}
    (h : ShareOk tr r i sc share) : ShareOk (tr ++ tr') r i sc share :=
  ⟨h.start_le, h.counted, fun x h1 h2 => (h.executed x h1 h2).mono⟩

theorem Cluster.SliceExecuted.mono {tr' : List Piece} {r i sc : ℕ} {n : InstructionNode}
    (h : c.SliceExecuted tr r i n sc) : c.SliceExecuted (tr ++ tr') r i n sc :=
  fun share hs x h1 h2 => (h share hs x h1 h2).mono

/-- Once all shares are worked through, so is every byte up to the last whole unit. -/
theorem Cluster.SliceExecuted.covers {r i sc : ℕ} {n : InstructionNode}
    (h : c.SliceExecuted tr r i n sc) {x : ℕ}
    (hx : x < c.subchunkSize n sc / c.workUnit n * c.workUnit n) : Executed tr r i sc x := by
  by_cases hop : n.op = .h2h ∨ n.op = .h2hReduce
  · obtain ⟨tid, htid, hstart, hstop⟩ := threadShare_cover hx
    refine h _ ?_ x hstart hstop
    simp only [Cluster.sharesOf, if_pos hop]
    exact List.mem_map_of_mem (List.mem_range.2 htid)
  · refine h ⟨0, 0, c.subchunkSize n sc, false⟩ ?_ x (Nat.zero_le _)
      (hx.trans_le (Nat.div_mul_le_self _ _))
    simp only [Cluster.sharesOf, if_neg hop, List.mem_singleton]

/-- Of a finished entry every share has been worked through. -/
theorem sliceExecuted_of_finished {r : ℕ} {e : Inflight} {n : InstructionNode}
    (hranges : e.shares.map Share.range =
      (c.sharesOf n (c.subchunkSize n e.sc)).map Share.range)
    (hok : ∀ share ∈ e.shares, ShareOk tr r e.node e.sc share)
    (hfinished : e.finished = true) : c.SliceExecuted tr r e.node n e.sc := by
  intro share hshare x h1 h2
  have hall : ∀ s ∈ e.shares, s.counted = true :=
    List.countP_eq_length.1 (le_antisymm List.countP_le_length (of_decide_eq_true hfinished))
  have hmem : share.range ∈ e.shares.map Share.range := by
    rw [hranges]; exact List.mem_map_of_mem hshare
  obtain ⟨s, hs, heq⟩ := List.mem_map.1 hmem
  simp only [Share.range, Prod.mk.injEq] at heq
  have hs' := hok s hs
  refine hs'.executed x (by omega) ?_
  rw [hs'.counted (hall s hs), heq.2]
  exact h2

theorem Ledger.executed (h : Ledger c tr s) {r i sc : ℕ} {n : InstructionNode}
    (hn : c.node? r i = some n) (hskip : ¬ c.skipped n) (hdone : SliceDone (s.execs r) i sc) :
    c.SliceExecuted tr r i n sc := by
  by_cases hentry : ∃ q, ∃ e ∈ (s.execs r).inflight q, e.node = i ∧ e.sc = sc
  · obtain ⟨q, e, he, rfl, rfl⟩ := hentry
    exact sliceExecuted_of_finished (h.ranges r q e he n hn) (h.shares r q e he)
      (hdone.2 q e he rfl rfl)
  · refine h.done r i n hn hskip sc hdone.1 fun q e he heq => hentry ⟨q, e, he, heq⟩

/-! ## The ledger after a step -/

theorem op_ne_nop_of_node? {r i : ℕ} {n : InstructionNode} (h : c.node? r i = some n) :
    n.op ≠ .nop := by
  rcases (c.plan.mem_nodes_iff).1 (mem_nodes_of_node? h) with ⟨a, ha, -, rfl⟩ | ⟨k, -, -, rfl⟩
  · exact c.plan.op_ne_nop ha
  · exact nofun

theorem exists_of_mem_updateShare {e : Exec} {q q' : Queue} {j t : ℕ} {f : Share → Share}
    {x : Inflight} (hx : x ∈ (e.updateShare q j t f).inflight q') :
    x ∈ e.inflight q' ∨ ∃ y, (e.inflight q)[j]? = some y ∧
      x = { y with shares := y.shares.modify t f } := by
  simp only [Exec.updateShare] at hx
  by_cases hq : q' = q
  · subst hq
    rw [Function.update_self] at hx
    exact exists_of_mem_modify hx
  · rw [Function.update_of_ne hq] at hx
    exact Or.inl hx

/-- The ledger after a step of rank `r₀`, from what holds of its executor. -/
theorem Ledger.update (h : Ledger c tr s) {r₀ : ℕ} {e' : Exec} {w : SharedWords}
    {tr' : List Piece}
    (hranges : ∀ q, ∀ x ∈ e'.inflight q, ∀ n, c.node? r₀ x.node = some n →
      x.shares.map Share.range = (c.sharesOf n (c.subchunkSize n x.sc)).map Share.range)
    (hshares : ∀ q, ∀ x ∈ e'.inflight q, ∀ share ∈ x.shares,
      ShareOk (tr ++ tr') r₀ x.node x.sc share)
    (hdone : ∀ i n, c.node? r₀ i = some n → ¬ c.skipped n → ∀ sc < e'.next i,
      (∀ q, ∀ x ∈ e'.inflight q, ¬ (x.node = i ∧ x.sc = sc)) →
      c.SliceExecuted (tr ++ tr') r₀ i n sc) :
    Ledger c (tr ++ tr') { words := w, execs := Function.update s.execs r₀ e' } := by
  refine ⟨fun r => ?_, fun r => ?_, fun r => ?_⟩ <;> by_cases hr : r = r₀
  · subst hr; simpa using hranges
  · simpa [hr] using h.ranges r
  · subst hr; simpa using hshares
  · simp only [Function.update_of_ne hr]
    exact fun q x hx share hs => (h.shares r q x hx share hs).mono
  · subst hr; simpa using hdone
  · simp only [Function.update_of_ne hr]
    exact fun i n hn hskip sc hsc hno => (h.done r i n hn hskip sc hsc hno).mono

/-- A share step: one share of one entry changes, and stays in order. -/
theorem Ledger.updateShare (h : Ledger c tr s) {r₀ : ℕ} {w : SharedWords} {tr' : List Piece}
    {q : Queue} {j t : ℕ} {f : Share → Share} {entry : Inflight} {share : Share}
    (hentry : ((s.execs r₀).inflight q)[j]? = some entry) (hshare : entry.shares[t]? = some share)
    (hf : ∀ s : Share, (f s).range = s.range)
    (hok : ShareOk tr r₀ entry.node entry.sc share →
      ShareOk (tr ++ tr') r₀ entry.node entry.sc (f share)) :
    Ledger c (tr ++ tr')
      { words := w
        execs := Function.update s.execs r₀ ((s.execs r₀).updateShare q j t f) } := by
  have hmem : entry ∈ (s.execs r₀).inflight q := List.mem_of_getElem? hentry
  refine h.update (fun q' x hx n hn => ?_) (fun q' x hx s' hs' => ?_)
    fun i n hn hskip sc hsc hno => ?_
  · rcases exists_of_mem_updateShare hx with hx | ⟨y, hy, rfl⟩
    · exact h.ranges r₀ q' x hx n hn
    · rw [map_modify_eq hf]
      exact h.ranges r₀ q y (List.mem_of_getElem? hy) n hn
  · rcases exists_of_mem_updateShare hx with hx | ⟨y, hy, rfl⟩
    · exact (h.shares r₀ q' x hx s' hs').mono
    · cases hy.symm.trans hentry
      rcases exists_of_mem_modify hs' with hs' | ⟨z, hz, rfl⟩
      · exact (h.shares r₀ q entry hmem s' hs').mono
      · cases hz.symm.trans hshare
        exact hok (h.shares r₀ q entry hmem share (List.mem_of_getElem? hshare))
  · refine (h.done r₀ i n hn hskip sc hsc fun q' y hy hkey => ?_).mono
    obtain ⟨x, hx, hxn, hxsc⟩ := mem_key_updateShare (q := q) (j := j) (t := t) (f := f) hy
    exact hno q' x hx ⟨hxn.trans hkey.1, hxsc.trans hkey.2⟩

/-- **The ledger after a step.** -/
theorem Ledger.step (h : Ledger c tr s) (hstep : c.machine.step s l = some s') :
    Ledger c (tr ++ c.effects s l) s' := by
  obtain ⟨-, w, e, hlocal, rfl⟩ := step_cases hstep
  have hm := Motion.of_localStep hlocal
  generalize htr' : c.effects s l = tr'
  generalize hr : l.rank = r₀ at hm
  cases hm with
  | still hnext _ hin _ =>
    refine h.update (fun q x hx n hn => ?_) (fun q x hx share hs => ?_)
      fun i n hn hskip sc hsc hno => ?_
    · rw [hin] at hx; exact h.ranges r₀ q x hx n hn
    · rw [hin] at hx; exact (h.shares r₀ q x hx share hs).mono
    · rw [hnext] at hsc
      rw [hin] at hno
      exact (h.done r₀ i n hn hskip sc hsc hno).mono
  | @finish r' k n₀ hhead hnode hnext _ hin _ =>
    have hr' : r' = r₀ := hr
    subst hr'
    refine h.update (fun q x hx n hn => ?_) (fun q x hx share hs => ?_)
      fun i n hn hskip sc hsc hno => ?_
    · rw [hin] at hx; exact h.ranges r' q x hx n hn
    · rw [hin] at hx; exact (h.shares r' q x hx share hs).mono
    · rw [hin] at hno
      by_cases hlt : sc < (s.execs r').next i
      · exact (h.done r' i n hn hskip sc hlt hno).mono
      · -- the slice that was just published
        have hik : i = k := by
          by_contra hne
          rw [hnext, Function.update_of_ne hne] at hsc
          exact hlt hsc
        subst hik
        cases hnode.symm.trans hn
        have hsc : sc = (s.execs r').next i := by
          rw [hnext, Function.update_self] at hsc
          omega
        subst hsc
        simp only [Cluster.effects, hhead, hn] at htr'
        intro share hshare x _ h2
        have hbytes := (sharesOf_start hshare).2.2
        split at htr'
        · next himm =>
          exfalso
          simp only [Cluster.immediate, decide_eq_true_eq] at himm
          rcases himm with hop | hop | h0
          · exact op_ne_nop_of_node? hn hop
          · exact hskip hop
          · omega
        · subst htr'
          exact ⟨_, List.mem_append_right _ (List.mem_singleton_self _), rfl, rfl, rfl,
            Nat.zero_le _, by simp only; omega⟩
  | @push _ k n₀ _ hnode hnext _ hin _ =>
    refine h.update (fun q x hx n hn => ?_) (fun q x hx share hs => ?_)
      fun i n hn hskip sc hsc hno => ?_
    · rw [hin] at hx
      rcases mem_update_append hx with hx | ⟨-, rfl⟩
      · exact h.ranges r₀ q x hx n hn
      · cases hnode.symm.trans hn
        rfl
    · rw [hin] at hx
      rcases mem_update_append hx with hx | ⟨-, rfl⟩
      · exact (h.shares r₀ q x hx share hs).mono
      · obtain ⟨hpos, hcounted, -⟩ := sharesOf_start hs
        exact ⟨hpos.ge, by simp [hcounted], by omega⟩
    · have hlt : sc < (s.execs r₀).next i := by
        by_contra hnot
        have hik : i = k := by
          by_contra hne
          rw [hnext, Function.update_of_ne hne] at hsc
          exact hnot hsc
        subst hik
        rw [hnext, Function.update_self] at hsc
        have hsc' : (s.execs r₀).next i = sc := by omega
        refine hno (queueOf n₀)
          ⟨i, (s.execs r₀).next i, c.sharesOf n₀ (c.subchunkSize n₀ ((s.execs r₀).next i))⟩
          ?_ ⟨rfl, hsc'⟩
        rw [hin, Function.update_self]
        exact List.mem_append_right _ (List.mem_singleton_self _)
      refine (h.done r₀ i n hn hskip sc hlt fun q x hx hkey => hno q x ?_ hkey).mono
      rw [hin]
      by_cases hq : q = queueOf n₀
      · subst hq; rw [Function.update_self]; exact List.mem_append_left _ hx
      · rwa [Function.update_of_ne hq]
  | @poll _ q₀ j entry n₀ _ _ hentry hfinished hnode hnext _ hin _ =>
    have hmem : ∀ q, ∀ x ∈ e.inflight q, x ∈ (s.execs r₀).inflight q := fun q x hx => by
      rw [hin] at hx; exact mem_update_eraseIdx hx
    have hmem₀ : entry ∈ (s.execs r₀).inflight q₀ := List.mem_of_getElem? hentry
    refine h.update (fun q x hx n hn => h.ranges r₀ q x (hmem q x hx) n hn)
      (fun q x hx share hs => (h.shares r₀ q x (hmem q x hx) share hs).mono)
      fun i n hn hskip sc hsc hno => ?_
    rw [hnext] at hsc
    by_cases hkey : entry.node = i ∧ entry.sc = sc
    · obtain ⟨rfl, rfl⟩ := hkey
      exact (sliceExecuted_of_finished (h.ranges r₀ q₀ entry hmem₀ n hn)
        (h.shares r₀ q₀ entry hmem₀) hfinished).mono
    · refine (h.done r₀ i n hn hskip sc hsc fun q x hx hxkey => ?_).mono
      refine hno q x ?_ hxkey
      rw [hin]
      by_cases hq : q = q₀
      · subst hq
        rw [Function.update_self]
        obtain ⟨hj, hget⟩ := List.getElem?_eq_some_iff.1 hentry
        have hperm := (List.getElem_cons_eraseIdx_perm hj).mem_iff.2 hx
        rw [hget, List.mem_cons] at hperm
        rcases hperm with rfl | hx
        · exact absurd hxkey hkey
        · exact hx
      · rwa [Function.update_of_ne hq]
  | @work r' q j t k entry n₀ share hentry hshare _ hpos hle _ he =>
    have hr' : r' = r₀ := hr
    subst hr'
    subst he
    simp only [Cluster.effects, hentry, hshare] at htr'
    subst htr'
    refine h.updateShare hentry hshare (fun _ => rfl) fun hok => ?_
    refine ⟨hok.start_le.trans (Nat.le_add_right _ _), fun hcounted => ?_, fun x h1 h2 => ?_⟩
    · -- a counted share has no bytes left to move over
      have := hok.counted hcounted
      omega
    · by_cases hx : x < share.pos
      · exact (hok.executed x h1 hx).mono
      · exact ⟨_, List.mem_append_right _ (List.mem_singleton_self _), rfl, rfl, rfl,
          Nat.le_of_not_lt hx, h2⟩
  | @count _ q j t entry share hentry hshare hpos he =>
    subst he
    exact h.updateShare hentry hshare (fun _ => rfl) fun hok =>
      ⟨hok.start_le, fun _ => hpos, fun x h1 h2 => (hok.executed x h1 h2).mono⟩

theorem Ledger.init (stale : Word → ℕ) : Ledger c [] (State.init stale) :=
  ⟨by simp [State.init], by simp [State.init], by simp [State.init]⟩

end

end Executor
end HyLink
