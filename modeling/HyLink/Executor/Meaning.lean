import HyLink.Theory.Segments
import HyLink.Executor.Containment
import HyLink.Executor.Hazards

/-!
# The executors compute what the versions mean

The cursors order the accesses, the hazards are excluded, and so the bytes are right: whatever the
interleaving of threads, workers and engines, every operand byte that is read is the one the
version is meant to contain, wherever the ring has put it, and every byte that is written is the
one the next version is meant to contain.

* `Enters` — what holds of a piece when it is worked through.
* `Faithful.step` — storage that has not been overwritten holds what it is meant to hold.
* `operands_mean` — so does every operand byte that a node reads.
* `finished_means` — and every chunk without a ring, when all nodes are through.
-/

namespace HyLink
namespace Executor

open Ir Compiler

/-! ## Pieces are fresh -/

/-- No byte of a slice is worked through before it is submitted, and a device reduce, which writes
what it reads, goes through its elements once. -/
structure Ahead (c : Cluster) (tr : List Piece) (s : State) : Prop where
  issued : ∀ p ∈ tr, p.sc < (s.execs p.rank).next p.node
  shares : ∀ r q, ∀ e ∈ (s.execs r).inflight q, ∀ n, c.node? r e.node = some n → n.op = .d2dReduce →
    ∀ share ∈ e.shares, (share.pos = share.stop ∨ c.element ∣ share.pos) ∧
      ∀ p ∈ tr, p.rank = r → p.node = e.node → p.sc = e.sc → p.stop ≤ share.pos

/-- A piece of node `n` that is about to be worked through. -/
structure Enters (c : Cluster) (tr : List Piece) (s : State) (p : Piece) (n : InstructionNode) :
    Prop where
  rank_lt : p.rank < c.worldSize
  node : c.node? p.rank p.node = some n
  inSlice : p.stop ≤ c.subchunkSize n p.sc
  admitted : c.Admitted s.words n p.sc
  unfinished : ¬ SliceDone (s.execs p.rank) p.node p.sc
  fresh : n.op = .d2dReduce → ∀ x, p.start ≤ x → x < p.stop →
    ∀ y, y / c.element = x / c.element → ¬ Executed tr p.rank p.node p.sc y

section

variable {c : Cluster} {tr : List Piece} {s s' : State} {l : Label} {r i sc x y : ℕ}
  {n : InstructionNode} {p : Piece}

theorem subchunkSize_le_slice (n : InstructionNode) (sc : ℕ) : c.subchunkSize n sc ≤ c.slice := by
  unfold Cluster.subchunkSize
  split
  · exact Nat.zero_le _
  · exact min_le_left _ _

/-- What is read and written with a byte lies behind a boundary of elements before it. -/
theorem le_of_same_element {pos : ℕ} (hpos : c.element ∣ pos) (hx : pos ≤ x)
    (h : y / c.element = x / c.element) : pos ≤ y := by
  obtain ⟨k, rfl⟩ := hpos
  have hk : k ≤ x / c.element := (Nat.le_div_iff_mul_le c.element_pos).2 (by rwa [Nat.mul_comm])
  rw [← h] at hk
  have := (Nat.le_div_iff_mul_le c.element_pos).1 hk
  rwa [Nat.mul_comm] at this

/-- A share in flight stays in the slice. -/
theorem Ledger.stop_le (h : Ledger c tr s) {q : Queue} {e : Inflight}
    (he : e ∈ (s.execs r).inflight q) (hn : c.node? r e.node = some n) {share : Share}
    (hs : share ∈ e.shares) : share.stop ≤ c.subchunkSize n e.sc := by
  have hmem : share.range ∈ e.shares.map Share.range := List.mem_map_of_mem hs
  rw [h.ranges r q e he n hn] at hmem
  obtain ⟨share', hs', heq⟩ := List.mem_map.1 hmem
  have hle := (sharesOf_start hs').2.2
  simp only [Share.range, Prod.mk.injEq] at heq
  omega

/-- An entry with a share that has bytes left is not finished. -/
theorem not_done_of_share (h : Disciplined c tr s) {q : Queue} {e : Inflight}
    (he : e ∈ (s.execs r).inflight q) {share : Share} (hs : share ∈ e.shares)
    (hlt : share.pos < share.stop) : ¬ SliceDone (s.execs r) e.node e.sc := by
  intro hdone
  have hfinished := hdone.2 q e he rfl rfl
  have hall : ∀ s ∈ e.shares, s.counted = true :=
    List.countP_eq_length.1 (le_antisymm List.countP_le_length (of_decide_eq_true hfinished))
  have := (h.ledger.shares r q e he share hs).counted (hall share hs)
  omega

/-- **What a step works through.** -/
theorem Disciplined.enters (h : Disciplined c tr s) (hf : Ahead c tr s)
    (hstep : c.machine.step s l = some s') :
    c.effects s l = [] ∨ ∃ p n, c.effects s l = [p] ∧ Enters c tr s p n := by
  obtain ⟨hr, w, e, hlocal, -⟩ := step_cases hstep
  cases l with
  | work r q j t k =>
    obtain ⟨entry, share, n, hentry, hshare, hn, hk, hle, -⟩ := work_eq hlocal
    simp only [Label.rank] at hr hentry hn
    have hmem := List.mem_of_getElem? hentry
    have hs := List.mem_of_getElem? hshare
    refine Or.inr ⟨⟨r, entry.node, entry.sc, share.pos, share.pos + k⟩, n, ?_, hr, hn, ?_, ?_, ?_, ?_⟩
    · simp only [Cluster.effects, hentry, hshare]
    · exact hle.trans (h.ledger.stop_le hmem hn hs)
    · exact h.guarded.admitted r hr _ n hn _ ((h.base.tidy r).issued q entry hmem)
    · exact not_done_of_share h hmem hs (by omega)
    · rintro hop x hx - y hy ⟨p, hp, hrank, hnode, hsc, -, hstop⟩
      obtain ⟨hdvd, hold⟩ := hf.shares r q entry hmem n hn hop share hs
      have hdvd : c.element ∣ share.pos := hdvd.resolve_left (by omega)
      have hge := le_of_same_element hdvd hx hy
      have := hold p hp hrank hnode hsc
      omega
  | run r =>
    simp only [Label.rank] at hr
    cases hhead : (s.execs r).todo.head? with
    | none => exact Or.inl (by simp only [Cluster.effects, hhead])
    | some op =>
      cases op with
      | finishNow i =>
        cases hn : c.node? r i with
        | none => exact Or.inl (by simp only [Cluster.effects, hhead, hn])
        | some n =>
          by_cases himm : c.immediate n ((s.execs r).next i) = true
          · exact Or.inl (by simp only [Cluster.effects, hhead, hn, if_pos himm])
          · refine Or.inr ⟨⟨r, i, (s.execs r).next i, 0, c.subchunkSize n ((s.execs r).next i)⟩, n,
              ?_, hr, hn, le_rfl, ?_, fun hdone => absurd hdone.1 (lt_irrefl _), ?_⟩
            · simp only [Cluster.effects, hhead, hn, if_neg himm]
            · exact (h.guarded.ahead r hr).admitted hhead rfl hn
            · rintro - x - - y - ⟨p, hp, hrank, hnode, hsc, -⟩
              have hissued := hf.issued p hp
              rw [hrank, hnode, hsc] at hissued
              exact absurd hissued (lt_irrefl _)
      | _ => exact Or.inl (by simp only [Cluster.effects, hhead])
  | _ => exact Or.inl rfl

theorem Ahead.init (stale : Word → ℕ) : Ahead c [] (State.init stale) :=
  ⟨by simp, by simp [State.init]⟩

/-- Where an entry of an updated queue comes from. -/
theorem getElem?_of_mem_modify {α : Type} {f : α → α} {l : List α} {j : ℕ} {z : α}
    (h : z ∈ l.modify j f) : (∃ k ≠ j, l[k]? = some z) ∨ ∃ z₀, l[j]? = some z₀ ∧ z = f z₀ := by
  obtain ⟨k, hk⟩ := List.getElem?_of_mem h
  rw [List.getElem?_modify] at hk
  by_cases hjk : j = k
  · subst hjk
    simp only [if_true] at hk
    obtain ⟨z₀, hz₀, rfl⟩ := Option.map_eq_some_iff.1 hk
    exact Or.inr ⟨z₀, hz₀, rfl⟩
  · exact Or.inl ⟨k, fun hkj => hjk hkj.symm, by simpa [hjk] using hk⟩

/-- Two entries of a queue are for different slices. -/
theorem Tidy.entry_ne {e : Exec} (h : Tidy c r e) {q : Queue} {j k : ℕ} {a b : Inflight}
    (ha : (e.inflight q)[j]? = some a) (hb : (e.inflight q)[k]? = some b) (hjk : k ≠ j)
    (hnode : b.node = a.node) : b.sc ≠ a.sc := by
  obtain ⟨hj, rfl⟩ := List.getElem?_eq_some_iff.1 ha
  obtain ⟨hk, rfl⟩ := List.getElem?_eq_some_iff.1 hb
  have hp := List.pairwise_iff_getElem.1 (h.sorted q)
  rcases Nat.lt_or_gt_of_ne hjk with hlt | hlt
  · exact Nat.ne_of_lt (hp k j hk hj hlt hnode)
  · exact Nat.ne_of_gt (hp j k hj hk hlt hnode.symm)

/-- A device reduce is one share. -/
theorem Ledger.one_share (h : Ledger c tr s) {q : Queue} {e : Inflight}
    (he : e ∈ (s.execs r).inflight q) (hn : c.node? r e.node = some n) (hop : n.op = .d2dReduce) :
    ∃ share, e.shares = [share] := by
  have hlen := congrArg List.length (h.ranges r q e he n hn)
  simp only [Cluster.sharesOf, hop, reduceCtorEq, or_self, if_false, List.map_cons, List.map_nil,
    List.length_cons, List.length_nil, List.length_map] at hlen
  exact List.length_eq_one_iff.1 hlen

/-- The facts about shares after a step of rank `r₀`, from what holds of its executor. -/
theorem Ahead.update (h : Ahead c tr s) {r₀ : ℕ} {e' : Exec} {w : SharedWords} {tr' : List Piece}
    (hnext : ∀ i, (s.execs r₀).next i ≤ e'.next i)
    (hissued : ∀ p ∈ tr', p.rank = r₀ ∧ p.sc < e'.next p.node)
    (hshares : ∀ q, ∀ x ∈ e'.inflight q, ∀ n, c.node? r₀ x.node = some n → n.op = .d2dReduce →
      ∀ share ∈ x.shares, (share.pos = share.stop ∨ c.element ∣ share.pos) ∧
        ∀ p ∈ tr ++ tr', p.rank = r₀ → p.node = x.node → p.sc = x.sc → p.stop ≤ share.pos) :
    Ahead c (tr ++ tr') { words := w, execs := Function.update s.execs r₀ e' } := by
  refine ⟨fun p hp => ?_, fun r => ?_⟩
  · rcases List.mem_append.1 hp with hp | hp
    · by_cases hr : p.rank = r₀
      · have := h.issued p hp
        rw [hr] at this ⊢
        simp only [Function.update_self]
        exact this.trans_le (hnext _)
      · simpa only [Function.update_of_ne hr] using h.issued p hp
    · obtain ⟨hr, hlt⟩ := hissued p hp
      rw [hr]
      simpa only [Function.update_self] using hlt
  · by_cases hr : r = r₀
    · subst hr
      simpa only [Function.update_self] using hshares
    · simp only [Function.update_of_ne hr]
      intro q x hx n hn hop share hs
      obtain ⟨hdvd, hold⟩ := h.shares r q x hx n hn hop share hs
      refine ⟨hdvd, fun p hp hrank => ?_⟩
      rcases List.mem_append.1 hp with hp | hp
      · exact hold p hp hrank
      · exact absurd (hrank.symm.trans (hissued p hp).1) hr

/-- Entries that are left as they are, in a step that works through nothing of theirs. -/
theorem Ahead.kept (h : Ahead c tr s) {tr' : List Piece} {q : Queue} {e : Inflight}
    (he : e ∈ (s.execs r).inflight q)
    (hother : ∀ p ∈ tr', ¬ (p.node = e.node ∧ p.sc = e.sc)) (hn : c.node? r e.node = some n)
    (hop : n.op = .d2dReduce) {share : Share} (hs : share ∈ e.shares) :
    (share.pos = share.stop ∨ c.element ∣ share.pos) ∧
      ∀ p ∈ tr ++ tr', p.rank = r → p.node = e.node → p.sc = e.sc → p.stop ≤ share.pos := by
  obtain ⟨hdvd, hold⟩ := h.shares r q e he n hn hop share hs
  refine ⟨hdvd, fun p hp hrank hnode hsc => ?_⟩
  rcases List.mem_append.1 hp with hp | hp
  · exact hold p hp hrank hnode hsc
  · exact absurd ⟨hnode, hsc⟩ (hother p hp)

/-- A thread that publishes nothing works through nothing. -/
theorem effects_run_eq_nil
    (hquiet : ∀ i sc n, (s.execs r).published (.run r) = some (i, sc) → c.node? r i ≠ some n) :
    c.effects s (.run r) = [] := by
  simp only [Cluster.effects]
  split
  · next i hhead =>
    have hpub : (s.execs r).published (.run r) = some (i, (s.execs r).next i) := by
      simp only [Exec.published, hhead]
    split
    · rfl
    · next n hn => exact absurd hn (hquiet i _ n hpub)
  · rfl

theorem Ahead.step (hd : Disciplined c tr s) (h : Ahead c tr s)
    (hstep : c.machine.step s l = some s') : Ahead c (tr ++ c.effects s l) s' := by
  obtain ⟨-, w, e, hlocal, rfl⟩ := step_cases hstep
  have ht := hd.base.tidy l.rank
  have hsame : ∀ {tr' : List Piece}, e.next = (s.execs l.rank).next →
      e.inflight = (s.execs l.rank).inflight → tr' = [] →
      Ahead c (tr ++ tr') { words := w, execs := Function.update s.execs l.rank e } := by
    rintro tr' hnext hin rfl
    refine h.update (fun i => by rw [hnext]) (by simp) fun q x hx n hn hop share hs => ?_
    rw [hin] at hx
    exact h.kept hx (by simp) hn hop hs
  cases l with
  | start r =>
    obtain ⟨-, -, rfl⟩ := start_eq hlocal
    exact hsame rfl rfl rfl
  | attempt r i =>
    obtain ⟨-, -, n, -, -, rfl⟩ := attempt_eq hlocal
    exact hsame rfl rfl rfl
  | run r =>
    cases Motion.of_localStep hlocal with
    | still hnext _ hin hquiet => exact hsame hnext hin (effects_run_eq_nil hquiet)
    | @finish _ k n₀ hhead hnode hnext _ hin _ =>
      simp only [Label.rank] at ht hhead hnode hnext hin ⊢
      -- the slice that is finished at once was not submitted before
      have heffects : ∀ p ∈ c.effects s (.run r), p.rank = r ∧ p.node = k ∧
          p.sc = (s.execs r).next k := by
        intro p hp
        simp only [Cluster.effects, hhead, hnode] at hp
        split at hp
        · cases hp
        · rw [List.mem_singleton.1 hp]
          exact ⟨rfl, rfl, rfl⟩
      refine h.update (fun i => ?_) (fun p hp => ?_) fun q x hx n hn hop share hs => ?_
      · rw [hnext]; exact next_le_update _ _ _
      · obtain ⟨hrank, hnode', hsc⟩ := heffects p hp
        refine ⟨hrank, ?_⟩
        rw [hsc, hnode', hnext, Function.update_self]
        exact Nat.lt_succ_self _
      · rw [hin] at hx
        refine h.kept hx (fun p hp hsame => ?_) hn hop hs
        obtain ⟨-, hnode', hsc⟩ := heffects p hp
        have := ht.issued q x hx
        rw [← hsame.1, hnode', ← hsame.2, hsc] at this
        exact absurd this (lt_irrefl _)
    | @push _ k n₀ hhead hnode hnext _ hin _ =>
      simp only [Label.rank] at ht hhead hnode hnext hin ⊢
      have hnil : c.effects s (.run r) = [] := by
        rcases hhead with hhead | hhead <;> simp only [Cluster.effects, hhead]
      rw [hnil]
      refine h.update (fun i => ?_) (by simp) fun q x hx n hn hop share hs => ?_
      · rw [hnext]; exact next_le_update _ _ _
      · rw [hin] at hx
        rcases mem_update_append hx with hx | ⟨-, rfl⟩
        · exact h.kept hx (by simp) hn hop hs
        · cases hnode.symm.trans hn
          have hshare : share = ⟨0, 0, c.subchunkSize n₀ ((s.execs r).next k), false⟩ := by
            simpa [Cluster.sharesOf, hop] using hs
          subst hshare
          refine ⟨Or.inr (dvd_zero _), fun p hp hrank hnode' hsc => ?_⟩
          rw [List.append_nil] at hp
          have := h.issued p hp
          rw [hrank, hnode', hsc] at this
          exact absurd this (lt_irrefl _)
  | poll r q₀ j =>
    obtain ⟨-, -, entry, n₀, hentry, -, -, -, rfl⟩ := poll_eq hlocal
    refine h.update (fun i => le_rfl) (by simp [Cluster.effects]) fun q x hx n hn hop share hs => ?_
    exact h.kept (mem_update_eraseIdx hx) (by simp [Cluster.effects]) hn hop hs
  | count r q j t =>
    obtain ⟨entry, share₀, hentry, hshare, hpos, -, rfl⟩ := count_eq hlocal
    refine h.update (fun i => le_rfl) (by simp [Cluster.effects]) fun q' x hx n hn hop share hs => ?_
    rcases exists_of_mem_updateShare hx with hx | ⟨y, hy, rfl⟩
    · exact h.kept hx (by simp [Cluster.effects]) hn hop hs
    · have hy' := List.mem_of_getElem? hy
      rcases exists_of_mem_modify hs with hs | ⟨z, hz, rfl⟩
      · exact h.kept hy' (by simp [Cluster.effects]) hn hop hs
      · obtain ⟨hdvd, hold⟩ := h.shares _ q y hy' n hn hop z (List.mem_of_getElem? hz)
        exact ⟨hdvd, fun p hp => hold p (by simpa [Cluster.effects] using hp)⟩
  | work r q j t k =>
    obtain ⟨entry, share₀, n₀, hentry, hshare, hn₀, hk, hle, hunits, -, rfl⟩ := work_eq hlocal
    simp only [Label.rank] at ht hentry hn₀ ⊢
    have hmem := List.mem_of_getElem? hentry
    have heffects : c.effects s (.work r q j t k) =
        [⟨r, entry.node, entry.sc, share₀.pos, share₀.pos + k⟩] := by
      simp only [Cluster.effects, hentry, hshare]
    rw [heffects]
    refine h.update (fun i => le_rfl) (fun p hp => ?_) fun q' x hx n hn hop share hs => ?_
    · rw [List.mem_singleton.1 hp]
      exact ⟨rfl, ht.issued q entry hmem⟩
    · have hother : ∀ {q' : Queue} {x : Inflight}, x ∈ (s.execs r).inflight q' →
          (x.node = entry.node → x.sc ≠ entry.sc) → ∀ p ∈
            [(⟨r, entry.node, entry.sc, share₀.pos, share₀.pos + k⟩ : Piece)],
            ¬ (p.node = x.node ∧ p.sc = x.sc) := by
        rintro q' x - hne p hp ⟨hnode', hsc'⟩
        rw [List.mem_singleton.1 hp] at hnode' hsc'
        exact hne hnode'.symm hsc'.symm
      simp only [Exec.updateShare] at hx
      by_cases hq : q' = q
      · subst hq
        rw [Function.update_self] at hx
        rcases getElem?_of_mem_modify hx with ⟨j', hj', hx⟩ | ⟨y, hy, rfl⟩
        · have hx' := List.mem_of_getElem? hx
          exact h.kept hx' (hother hx' fun hnode' => ht.entry_ne hentry hx hj' hnode') hn hop hs
        · -- the share that moves on
          cases hy.symm.trans hentry
          cases hn₀.symm.trans hn
          obtain ⟨share₁, hone⟩ := hd.ledger.one_share hmem hn hop
          rw [hone] at hshare hs
          obtain ⟨ht0, rfl⟩ := List.getElem?_eq_some_iff.1 hshare
          have ht0 : t = 0 := by simpa using ht0
          subst ht0
          have hs : share = { share₁ with pos := share₁.pos + k } := by simpa using hs
          subst hs
          obtain ⟨hdvd, hold⟩ := h.shares r q' entry hmem n₀ hn hop share₁ (by rw [hone]; simp)
          refine ⟨?_, fun p hp hrank hnode' hsc => ?_⟩
          · have hdvd : c.element ∣ share₁.pos := hdvd.resolve_left (by simp at hle; omega)
            simp only [Cluster.wholeUnits, hop, decide_eq_true_eq] at hunits
            rcases hunits (Or.inr trivial) with hk' | hk'
            · exact Or.inr (Nat.dvd_add hdvd hk')
            · exact Or.inl hk'
          · rcases List.mem_append.1 hp with hp | hp
            · exact (hold p hp hrank hnode' hsc).trans (Nat.le_add_right _ _)
            · rw [List.mem_singleton.1 hp]
              exact le_rfl
      · rw [Function.update_of_ne hq] at hx
        refine h.kept hx (hother hx fun hnode' _ => ?_) hn hop hs
        -- the entries of a node are in one queue
        obtain ⟨n₁, hn₁, hq₁⟩ := ht.queue q' x hx
        obtain ⟨n₂, hn₂, hq₂⟩ := ht.queue q entry hmem
        rw [hnode', hn₂, Option.some.injEq] at hn₁
        subst hn₁
        exact hq (hq₁.symm.trans hq₂)

/-! ## Storage that holds what it is meant to hold -/

variable {B : Type} {reduce : c.Reduction B} {m : Memory B} {V : Valuation B} {key : ProgressKey}

/-- Byte `x` of slice `sc` of a version has been written, or is there from the start. -/
def Produced (c : Cluster) (tr : List Piece) (key : ProgressKey) (sc x : ℕ) : Prop :=
  key.version = 0 ∨ ∃ r < c.worldSize, ∃ i n, c.node? r i = some n ∧ n.output = key ∧
    Executed tr r i sc x

/-- A later version, or a later slice in the same slot, has been written over it. -/
def Overwritten (c : Cluster) (tr : List Piece) (key : ProgressKey) (sc x : ℕ) : Prop :=
  ∃ r < c.worldSize, ∃ i n, c.node? r i = some n ∧ n.output.base = key.base ∧
    ∃ sc' x', x' < c.slice ∧ c.place key.base sc' x' = c.place key.base sc x ∧
      (key.version < n.output.version ∨ key.version = n.output.version ∧ sc < sc') ∧
      Executed tr r i sc' x'

/-- Storage that has not been overwritten holds what it is meant to hold.  A ring that nobody reads
is not waited for, and says nothing. -/
def Faithful (c : Cluster) (reduce : c.Reduction B) (m : Memory B) (V : Valuation B)
    (tr : List Piece) : Prop :=
  ∀ key sc x b, V key sc x = some b → (c.ring key.base = true → 0 < c.plan.numReaders key) →
    Produced c tr key sc x → ¬ Overwritten c tr key sc x →
    c.memory reduce m tr key.base (c.place key.base sc x) = b

/-- Without a ring every byte has its own place. -/
theorem place_of_not_ring {base : BaseKey} (h : c.ring base = false) (sc x : ℕ) :
    c.place base sc x = sc * c.slice + x := by
  simp [Cluster.place, Cluster.subOffset, h]

theorem eq_of_place_eq {sc' x' : ℕ} {base : BaseKey} (h : c.ring base = false) (hx : x < c.slice)
    (hx' : x' < c.slice) (heq : c.place base sc' x' = c.place base sc x) : sc' = sc ∧ x' = x := by
  rw [place_of_not_ring h, place_of_not_ring h] at heq
  exact Theory.step_unique hx' hx heq

/-- In a ring, slices with a place in common are a whole round apart. -/
theorem slot_apart {sc' x' : ℕ} {base : BaseKey} (h : c.ring base = true) (hx : x < c.slice)
    (hx' : x' < c.slice) (heq : c.place base sc' x' = c.place base sc x) (hlt : sc < sc') :
    sc + c.ringSlots ≤ sc' := by
  simp only [Cluster.place, Cluster.subOffset, h, if_true] at heq
  have hmod := (Theory.step_unique hx' hx heq).1
  have hdvd : c.ringSlots ∣ sc' - sc := Nat.dvd_of_mod_eq_zero (Nat.sub_mod_eq_zero_of_mod_eq hmod)
  have := Nat.le_of_dvd (by omega) hdvd
  omega

/-- A meaning speaks of the bytes of a slice only. -/
theorem Cluster.Meaning.inSlice (hV : c.Meaning reduce m V) {b : B} (h : V key sc x = some b) :
    x < c.slice := by
  rcases hV key sc x b h with hi | ⟨r, -, i, n, -, -, hn⟩
  · exact hi.inSlice
  · exact (hn.inSlice.trans_le (Nat.div_mul_le_self _ _)).trans_le (subchunkSize_le_slice n sc)

/-- A done slice is written up to its last grain. -/
theorem Disciplined.executed (hc : c.Plain) (h : Disciplined c tr s)
    (hn : c.node? r i = some n) (hdone : SliceDone (s.execs r) i sc)
    (hx : x < c.subchunkSize n sc / c.grain n * c.grain n) : Executed tr r i sc x := by
  have hexec := h.ledger.executed hn (fun hskip => by
    have := hskip.1
    rw [hc.issued] at this
    cases this) hdone
  by_cases hop : n.op = .h2h ∨ n.op = .h2hReduce
  · refine hexec.covers ?_
    rcases hop with hop | hop <;>
      simpa [Cluster.workUnit, Cluster.grain, hop, Cluster.element] using hx
  · refine hexec ⟨0, 0, c.subchunkSize n sc, false⟩ ?_ x (Nat.zero_le _)
      (hx.trans_le (Nat.div_mul_le_self _ _))
    simp only [Cluster.sharesOf, if_neg hop, List.mem_singleton]

/-- What is in the ledger was submitted, and let through. -/
theorem Disciplined.admitted_of_executed (h : Disciplined c tr s) (ha : Ahead c tr s)
    (hr : r < c.worldSize) (hn : c.node? r i = some n) (hx : Executed tr r i sc x) :
    c.Admitted s.words n sc := by
  obtain ⟨p, hp, rfl, rfl, rfl, -⟩ := hx
  exact h.guarded.admitted _ hr _ n hn _ (ha.issued p hp)

/-- A device reduce writes no ring. -/
theorem Cluster.Plain.ring_of_reduce (hc : c.Plain) (hn : c.node? r i = some n)
    (hop : n.op = .d2dReduce) : c.ring n.output.base = false := by
  obtain ⟨a, ha, -, rfl⟩ := hc.exists_assignment hn
  obtain ⟨mid, post, -, hat⟩ := c.plan.assignedFrom.exists_split ha
  have hproduced := hat.produced
  have hop : a.inst.op = .d2dReduce := hop
  simp only [producedBase, hop, Option.some.injEq] at hproduced
  change c.ring a.output.base = false
  rw [← hproduced]
  simp only [Cluster.ring, ringChunk, deviceKey, Bool.and_eq_false_iff]
  left
  cases visibleBuf c.graphOptions c.program c.worldSize a.inst.dstBuf a.inst.rank
    a.inst.dst.chunkIdx <;> rfl

/-- **Operands are what they are meant to be**, when a piece of a node is worked through. -/
theorem Faithful.operand (hc : c.Plain) (hV : c.Meaning reduce m V) (hd : Disciplined c tr s)
    (ha : Ahead c tr s) (h : Faithful c reduce m V tr) (hp : Enters c tr s p n) {a : NodeInput}
    (hin : a ∈ n.inputs) (hx : p.start ≤ x) (hx' : x < p.stop)
    (hy : y / c.grain n = x / c.grain n) {b : B} (hb : V a.key p.sc y = some b) :
    c.operandByte (c.memory reduce m tr) p.sc a y = b := by
  have hslice := hV.inSlice hb
  have hreader : c.ring a.key.base = true → ∃ id, a.readerId = some id := fun hring => by
    cases hid : a.readerId with
    | some id => exact ⟨id, rfl⟩
    | none =>
      obtain ⟨hop, hown⟩ := hc.readerId_none hp.node hin hid
      rw [hown, hc.ring_of_reduce hp.node hop] at hring
      cases hring
  have hcount : ∀ {id}, a.readerId = some id → id < c.plan.numReaders a.key := fun hid =>
    c.plan.readerId_lt_numReaders (mem_nodes_of_node? hp.node) hin hid
  have hproduced : Produced c tr a.key p.sc y := by
    rcases hV _ _ _ _ hb with hi | ⟨r, hr, i, n', hn', hout, hcomp⟩
    · exact Or.inl hi.version
    · have hwritten := Disciplined.input_passed hp.admitted hin
      rw [← hout] at hwritten
      have hdone := hd.sound.write r hr i n' hn' rfl p.sc hwritten
      exact Or.inr ⟨r, hr, i, n', hn', hout, hd.executed hc hn' hdone hcomp.inSlice⟩
  have hkept : ¬ Overwritten c tr a.key p.sc y := by
    rintro ⟨r, hr, i, n', hn', hbase, sc', y', hy', hplace, hlater, hexec⟩
    have hadmitted := hd.admitted_of_executed ha hr hn' hexec
    cases hring : c.ring a.key.base with
    | false =>
      obtain ⟨rfl, rfl⟩ := eq_of_place_eq hring hslice hy' hplace
      have hlater : a.key.version < n'.output.version := by
        rcases hlater with hlt | ⟨-, hlt⟩
        · exact hlt
        · exact absurd hlt (lt_irrefl _)
      obtain ⟨hop, rfl, rfl⟩ := hd.no_later_writer hc hp.rank_lt hp.node hp.unfinished hin hr hn'
        hbase hlater hadmitted
      -- a reduce writes its own operand, element by element
      have hgrain : c.grain n = c.element := if_pos (Or.inr hop)
      rw [hgrain] at hy
      exact hp.fresh hop x hx hx' _ hy hexec
    | true =>
      obtain ⟨id, hid⟩ := hreader hring
      have hle := hc.ring_operand hp.node hin hring hn' hbase
      rcases hlater with hlt | ⟨hver, hlt⟩
      · omega
      · have hsame : n'.output = a.key := by
          cases hk : n'.output
          cases hk' : a.key
          simp_all
        have hslot := slot_apart hring hslice hy' hplace hlt
        have hpassed := Disciplined.slot_passed hc hn' (by rw [hbase]; exact hring) hadmitted hslot
          (by rw [hsame]; exact hcount hid)
        rw [hsame] at hpassed
        exact hp.unfinished (hd.sound.reader _ hp.rank_lt _ n hp.node rfl a.key id
          ⟨n, hp.node, a, hin, rfl, hid⟩ _ hpassed)
  rw [Cluster.operandByte, hc.input_ring hp.node hin]
  refine h a.key p.sc y b hb (fun hring => ?_) hproduced hkept
  obtain ⟨id, hid⟩ := hreader hring
  exact Nat.zero_lt_of_lt (hcount hid)

/-- **What a piece writes is what its version is meant to contain.** -/
theorem Faithful.written (hc : c.Plain) (hV : c.Meaning reduce m V) (hd : Disciplined c tr s)
    (ha : Ahead c tr s) (h : Faithful c reduce m V tr) (hp : Enters c tr s p n)
    (hx : p.start ≤ x) (hx' : x < p.stop) {b : B} (hb : V n.output p.sc x = some b) :
    c.result reduce n (c.operandByte (c.memory reduce m tr) p.sc) x = some b := by
  rcases hV _ _ _ _ hb with hi | ⟨r, -, i, n', hn', hout, hcomp⟩
  · exact absurd hi.version (version_pos_of_node? hp.node).ne'
  · obtain ⟨rfl, rfl⟩ := node?_injective hn' hp.node hout
    obtain rfl : n' = n := Option.some.inj (hn'.symm.trans hp.node)
    obtain ⟨read, hread, hres⟩ := hcomp.operands
    rw [← hres]
    exact Cluster.result_congr fun a hin y hy =>
      h.operand hc hV hd ha hp hin hx hx' hy (hread a hin y hy)

/-- **A piece never undoes what is already there.**  A version, or a slice of a ring, whose
successor has been written is not worked on any more. -/
theorem Enters.not_behind (hc : c.Plain) (hd : Disciplined c tr s) (ha : Ahead c tr s)
    (hp : Enters c tr s p n) (hbase : key.base = n.output.base) {x₀ : ℕ} (hx : x < c.slice)
    (hx₀ : x₀ < c.slice) (hplace : c.place key.base p.sc x₀ = c.place key.base sc x)
    (hread : c.ring key.base = true → 0 < c.plan.numReaders key)
    (hproduced : Produced c tr key sc x) :
    ¬ (n.output.version < key.version ∨ n.output.version = key.version ∧ p.sc < sc) := by
  intro hbehind
  have hpos := version_pos_of_node? hp.node
  rcases hproduced with hzero | ⟨r, hr, i, n', hn', rfl, hexec⟩
  · omega
  · have hadmitted := hd.admitted_of_executed ha hr hn' hexec
    cases hring : c.ring n'.output.base with
    | false =>
      obtain ⟨hsc, -⟩ := eq_of_place_eq hring hx hx₀ hplace
      subst hsc
      have hlt : n.output.version < n'.output.version := by
        rcases hbehind with hlt | ⟨-, hlt⟩
        · exact hlt
        · exact absurd hlt (lt_irrefl _)
      exact hp.unfinished (hd.done_of_later hc hp.rank_lt hp.node hr hn' hbase hlt hadmitted)
    | true =>
      have hone := hc.ring_version hn' hring
      rcases hbehind with hlt | ⟨-, hlt⟩
      · omega
      · -- some reader of the slot is through with the slice, so the slice is done
        have hslot := slot_apart hring hx₀ hx hplace.symm hlt
        have hpassed := Disciplined.slot_passed hc hn' hring hadmitted hslot (hread hring)
        obtain ⟨r₂, hr₂, i₂, n₂, hn₂, a, hin, hkey, hid⟩ :=
          c.plan.exists_reader_node hc.ranks (hread hring)
        have hdone := hd.sound.reader r₂ hr₂ i₂ n₂ hn₂ rfl _ 0 ⟨n₂, hn₂, a, hin, hkey, hid⟩ _ hpassed
        have hwritten := Disciplined.input_passed (hd.admitted hr₂ hn₂ hdone) hin
        have hout : a.key = n.output := by
          rw [hkey]
          have hver := hc.ring_version hp.node (by rw [← hbase]; exact hring)
          cases hk : n'.output
          cases hk' : n.output
          simp_all
        rw [hout] at hwritten
        exact hp.unfinished (hd.sound.write _ hp.rank_lt _ n hp.node rfl _ hwritten)

theorem Executed.of_snoc {p : Piece} (h : Executed (tr ++ [p]) r i sc x) : Executed tr r i sc x ∨
    p.rank = r ∧ p.node = i ∧ p.sc = sc ∧ p.start ≤ x ∧ x < p.stop := by
  obtain ⟨p', hp', hrest⟩ := h
  rcases List.mem_append.1 hp' with hp' | hp'
  · exact Or.inl ⟨p', hp', hrest⟩
  · rw [List.mem_singleton.1 hp'] at hrest
    exact Or.inr hrest

/-- **The memory stays faithful.** -/
theorem Faithful.snoc (hc : c.Plain) (hV : c.Meaning reduce m V) (hd : Disciplined c tr s)
    (ha : Ahead c tr s) (h : Faithful c reduce m V tr) (hp : Enters c tr s p n) :
    Faithful c reduce m V (tr ++ [p]) := by
  intro key sc x b hb hread hproduced hkept
  rw [Cluster.memory_snoc]
  have hx := hV.inSlice hb
  have hkept' : ¬ Overwritten c tr key sc x := by
    rintro ⟨r, hr, i, n', hn', hbase, sc', x', hx', hplace, hlater, hexec⟩
    exact hkept ⟨r, hr, i, n', hn', hbase, sc', x', hx', hplace, hlater, hexec.mono⟩
  have hring := hc.output_ring hp.node
  by_cases hhit : key.base = n.output.base ∧ ∃ x₀, p.start ≤ x₀ ∧ x₀ < p.stop ∧
      c.place key.base sc x = c.place key.base p.sc x₀
  · obtain ⟨hbase, x₀, hstart, hstop, hplace⟩ := hhit
    have hx₀ : x₀ < c.slice :=
      hstop.trans_le (hp.inSlice.trans (subchunkSize_le_slice n p.sc))
    have hself : Executed (tr ++ [p]) p.rank p.node p.sc x₀ :=
      ⟨p, by simp, rfl, rfl, rfl, hstart, hstop⟩
    have hnotlater : ¬ (key.version < n.output.version ∨
        key.version = n.output.version ∧ sc < p.sc) := fun hlater =>
      hkept ⟨_, hp.rank_lt, _, n, hp.node, hbase.symm, p.sc, x₀, hx₀, hplace.symm, hlater, hself⟩
    by_cases hsame : key.version = n.output.version ∧ sc = p.sc
    · -- the very byte
      obtain ⟨hver, rfl⟩ := hsame
      have hkey : key = n.output := by
        cases key
        cases hk : n.output
        simp_all
      subst hkey
      have hxx : x = x₀ := by simpa [Cluster.place] using hplace
      subst hxx
      have hwritten := h.written hc hV hd ha hp hstart hstop hb
      rw [Cluster.place, ← hring]
      exact Cluster.applyPiece_inside hp.node hstart hstop hwritten
    · -- something later is there already
      exfalso
      have hproduced' : Produced c tr key sc x := by
        rcases hproduced with hzero | ⟨r, hr, i, n', hn', hout, hexec⟩
        · exact Or.inl hzero
        · rcases hexec.of_snoc with hexec | ⟨rfl, rfl, hsc, -, -⟩
          · exact Or.inr ⟨r, hr, i, n', hn', hout, hexec⟩
          · rw [Option.some.inj (hn'.symm.trans hp.node)] at hout
            exact absurd ⟨by rw [← hout], hsc.symm⟩ hsame
      exact hp.not_behind hc hd ha hbase hx hx₀ hplace.symm hread hproduced' (by omega)
  · -- somewhere else
    rw [Cluster.applyPiece_outside hp.node fun x₀ hstart hstop hbase heq => hhit
      ⟨hbase, x₀, hstart, hstop, by rw [hring, ← hbase] at heq; exact heq⟩]
    refine h key sc x b hb hread ?_ hkept'
    rcases hproduced with hzero | ⟨r, hr, i, n', hn', hout, hexec⟩
    · exact Or.inl hzero
    · rcases hexec.of_snoc with hexec | ⟨rfl, rfl, rfl, hstart, hstop⟩
      · exact Or.inr ⟨r, hr, i, n', hn', hout, hexec⟩
      · rw [Option.some.inj (hn'.symm.trans hp.node)] at hout
        exact absurd ⟨by rw [hout], x, hstart, hstop, rfl⟩ hhit

/-! ## Runs -/

/-- The invariant of a disciplined run. -/
structure Right (c : Cluster) (reduce : c.Reduction B) (m : Memory B) (V : Valuation B)
    (tr : List Piece) (s : State) : Prop where
  disciplined : Disciplined c tr s
  ahead : Ahead c tr s
  faithful : Faithful c reduce m V tr

theorem Faithful.init (hV : c.Meaning reduce m V) : Faithful c reduce m V [] := by
  intro key sc x b hb _ hproduced _
  rcases hV _ _ _ _ hb with hi | ⟨r, -, i, n, hn, rfl, -⟩
  · exact hi.held
  · rcases hproduced with hzero | ⟨_, _, _, _, _, _, p, hp, -⟩
    · exact absurd hzero (version_pos_of_node? hn).ne'
    · cases hp

theorem Right.step (hc : c.Plain) (hV : c.Meaning reduce m V) (h : Right c reduce m V tr s)
    (hl : c.disciplined s l = true) (hstep : c.machine.step s l = some s') :
    Right c reduce m V (tr ++ c.effects s l) s' := by
  refine ⟨h.disciplined.step hc.words hl hstep, h.ahead.step h.disciplined hstep, ?_⟩
  rcases h.disciplined.enters h.ahead hstep with heffects | ⟨p, n, heffects, hp⟩
  · rw [heffects, List.append_nil]
    exact h.faithful
  · rw [heffects]
    exact h.faithful.snoc hc hV h.disciplined h.ahead hp

theorem right_of_run (hc : c.Plain) (hV : c.Meaning reduce m V) {stale : Word → ℕ}
    {ls : List Label} (hrun : c.machine.runFrom c.disciplined (State.init stale) ls = some s) :
    Right c reduce m V (c.machine.trace c.effects (State.init stale) ls) s :=
  c.machine.invariantTrace_init (fun _ _ _ _ h hl hstep => h.step hc hV hl hstep)
    ⟨Disciplined.init stale, Ahead.init stale, Faithful.init hV⟩ hrun

end

/-- Every node of the world has completed its slices. -/
def Finished (c : Cluster) (s : State) : Prop :=
  ∀ r < c.worldSize, ∀ i n, c.node? r i = some n → (s.execs r).completed i = c.numSubchunks

theorem Finished.done {c : Cluster} {s : State} (h : Finished c s) (hb : Base c s) {r i sc : ℕ}
    {n : InstructionNode} (hr : r < c.worldSize) (hn : c.node? r i = some n)
    (hsc : sc < c.numSubchunks) : SliceDone (s.execs r) i sc := by
  have ht := hb.tidy r
  have hcompleted := ht.completed i n hn
  have hnext := ht.next_le i
  rw [h r hr i n hn] at hcompleted
  have hnone : ((s.execs r).inflight (queueOf n)).countP (fun x => x.node == i) = 0 := by omega
  refine ⟨by omega, fun q x hx hnode _ => ?_⟩
  obtain ⟨n', hn', hq⟩ := ht.queue q x hx
  rw [hnode, hn, Option.some.injEq] at hn'
  subst hn'
  rw [← hq] at hx
  exact absurd (List.countP_eq_zero.1 hnone x hx) (by simp [hnode])

/-- **Every operand is what it is meant to be.**  In a run that publishes in order and reads settled
counts, whatever the interleaving, a byte that a node reads, at the place the ring gives it, is the
byte that the version it reads is meant to contain. -/
theorem operands_mean {c : Cluster} (hc : c.Plain) {B : Type} {reduce : c.Reduction B}
    {m : Memory B} {V : Valuation B} (hV : c.Meaning reduce m V) {stale : Word → ℕ}
    {ls : List Label} {s s' : State} {l : Label}
    (hrun : c.machine.runFrom c.disciplined (State.init stale) ls = some s)
    (hstep : c.machine.step s l = some s') {p : Piece} (hp : p ∈ c.effects s l)
    {n : InstructionNode} (hn : c.node? p.rank p.node = some n) {a : NodeInput} (ha : a ∈ n.inputs)
    {x y : ℕ} (hx : p.start ≤ x) (hx' : x < p.stop) (hy : y / c.grain n = x / c.grain n) {b : B}
    (hb : V a.key p.sc y = some b) :
    c.operandByte (c.memory reduce m (c.machine.trace c.effects (State.init stale) ls)) p.sc a y =
      b := by
  have h := right_of_run hc hV hrun
  rcases h.disciplined.enters h.ahead hstep with heffects | ⟨p', n', heffects, hp'⟩
  · rw [heffects] at hp
    cases hp
  · rw [heffects, List.mem_singleton] at hp
    subst hp
    obtain rfl : n' = n := Option.some.inj (hp'.node.symm.trans hn)
    exact h.faithful.operand hc hV h.disciplined h.ahead hp' ha hx hx' hy hb

/-- **The final contents are what they are meant to be.**  When every node is through, a chunk that
is not a ring holds its last version. -/
theorem finished_means {c : Cluster} (hc : c.Plain) {B : Type} {reduce : c.Reduction B}
    {m : Memory B} {V : Valuation B} (hV : c.Meaning reduce m V) {stale : Word → ℕ}
    {ls : List Label} {s : State}
    (hrun : c.machine.runFrom c.disciplined (State.init stale) ls = some s) (hs : Finished c s)
    {base : BaseKey} (hring : c.ring base = false) {sc x : ℕ} {b : B}
    (hb : V ⟨base, c.plan.finalVersion base⟩ sc x = some b) :
    c.memory reduce m (c.machine.trace c.effects (State.init stale) ls) base (sc * c.slice + x) =
      b := by
  have h := right_of_run hc hV hrun
  have hproduced : Produced c (c.machine.trace c.effects (State.init stale) ls)
      ⟨base, c.plan.finalVersion base⟩ sc x := by
    rcases hV _ _ _ _ hb with hi | ⟨r, hr, i, n, hn, hout, hcomp⟩
    · exact Or.inl hi.version
    · have hbytes : 0 < c.subchunkSize n sc := by
        have := hcomp.inSlice.trans_le (Nat.div_mul_le_self _ _)
        omega
      have hsc : sc < c.numSubchunks := by
        have hle := Cluster.workBytes_le (mem_nodes_of_node? hn)
        have hwork := (Cluster.subchunk_le hbytes).1
        have hlt : sc * c.slice < c.chunkSize := by omega
        have hcover : sc * c.slice / c.slice < c.numSubchunks := slice_cover hlt
        rwa [Nat.mul_div_cancel _ Cluster.slice_pos] at hcover
      exact Or.inr ⟨r, hr, i, n, hn, hout, h.disciplined.executed hc hn
        (hs.done h.disciplined.base hr hn hsc) hcomp.inSlice⟩
  rw [← place_of_not_ring hring]
  refine h.faithful _ sc x b hb (fun hr => ?_) hproduced ?_
  · rw [hring] at hr
    cases hr
  · rintro ⟨r, hr, i, n, hn, hbase, sc', x', hx', hplace, hlater, -⟩
    have hle := hc.version_le hn
    rw [hbase] at hle
    rcases hlater with hlt | ⟨-, hlt⟩
    · exact absurd hle (not_le.2 hlt)
    · obtain ⟨rfl, -⟩ := eq_of_place_eq hring (hV.inSlice hb) hx' hplace
      exact lt_irrefl _ hlt

end Executor
end HyLink
