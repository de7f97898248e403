import HyLink.Executor.InFlight

/-!
# Quiescence at completion

The records of the executor tell of everything in flight, up to the first call
of `finishCurrentWork`; where that call finds them empty, nothing is in flight.

* `Quiescence.Records` — no stream is ahead of its ring, and every subchunk that
  went to the workers is complete, flagged or on record.
* `Quiescence.Inv` — the invariant of a run; `Inv.step` keeps it.
* `Quiescence.quiet_of_reported` — nothing is in flight from the moment the item
  is reported finished, if nothing fails or gives up with a transfer on record.
* `Quiescence.fails_in_flight` — a launch that fails while another copy is in
  flight ends the item over it.
-/

namespace HyLink
namespace Executor
namespace Quiescence

open Function (update)

variable (cfg : Config)

/-! ## The records -/

/-- The subchunks of node `i` that works on record stand for. -/
def outstanding (numSubchunks i : ℕ) (works : List Work) : ℕ :=
  (works.map fun w =>
    if w.node = i then if w.subchunk = none then numSubchunks else 1 else 0).sum

/-- The records tell of everything in flight. -/
structure Records (node : ℕ → NodeState) (ring : ℕ → List ℕ) (stream : ℕ → ℕ)
    (inflight : List Work) (lost : ℕ) : Prop where
  lost : lost = 0
  bounded : ∀ lane, stream lane ≤ (ring lane).length
  inRange : ∀ lane, ring lane ≠ [] → lane < cfg.laneCount
  ringNode : ∀ lane, ∀ i ∈ ring lane, cfg.nodes[i]? ≠ some .h2h
  workNode : ∀ w ∈ inflight, cfg.nodes[w.node]? = some .h2h ∧ 0 < cfg.numSubchunks
  /-- The subchunks of a node for the workers are accounted for. -/
  account : ∀ i, cfg.nodes[i]? = some .h2h →
    (node i).completedSubchunks + (node i).pending.length +
        outstanding cfg.numSubchunks i inflight ≤ (node i).nextSubchunk ∧
      (node i).nextSubchunk ≤ cfg.numSubchunks

/-- No transfer is on record. -/
def NoRecords (s : State) : Prop := (∀ lane, s.ring lane = []) ∧ s.inflight = []

/-- What holds where the executor is. -/
def Stands (s : State) : Phase → Prop
  | .start | .userReady => s.busy = true ∧ NoRecords s
  | .lane false _ | .h2h false => s.busy = false → s.lastResult = false
  | .submit _ | .terminals => s.busy = true
  | .lane true lane =>
    (∀ j < lane, s.ring j = []) ∧ (cfg.backend = .ascend → s.inflight = [])
  | .h2h true => (∀ j, s.ring j = []) ∧ (cfg.backend = .ascend → s.inflight = [])
  | .conclude | .finish | .release | .done => NoRecords s

/-- The item is concluded. -/
def Phase.over : Phase → Bool
  | .finish | .release | .done => true
  | _ => false

structure Inv (s : State) : Prop where
  records : Records cfg s.node s.ring s.stream s.inflight s.lost
  idle : s.busy = false → NoRecords s
  stands : Stands cfg s s.phase
  signalled : s.signalled = true → s.busy = false ∨ s.phase.over = true
  released : s.released = true → s.phase = .done

variable {cfg} {s s' : State}

theorem outstanding_append (n i : ℕ) (works works' : List Work) :
    outstanding n i (works ++ works') = outstanding n i works + outstanding n i works' := by
  simp [outstanding]

theorem outstanding_singleton (n i : ℕ) (w : Work) : outstanding n i [w] =
    if w.node = i then if w.subchunk = none then n else 1 else 0 := by
  simp [outstanding]

theorem outstanding_eraseIdx {n i k : ℕ} {works : List Work} {w : Work}
    (h : works[k]? = some w) :
    outstanding n i works = outstanding n i (works.eraseIdx k) + outstanding n i [w] := by
  induction works generalizing k with
  | nil => simp at h
  | cons v works ih =>
    cases k with
    | zero =>
      obtain rfl : v = w := by simpa using h
      simp [outstanding, Nat.add_comm]
    | succ k =>
      have hrest := ih (k := k) (by simpa using h)
      simp only [outstanding, List.map_cons, List.sum_cons, List.eraseIdx_cons_succ] at hrest ⊢
      omega

/-- A worker's shard is not what the executor counts. -/
theorem outstanding_set {n i k : ℕ} {works : List Work} {w : Work} (h : works[k]? = some w)
    (shards : ℕ) : outstanding n i (works.set k { w with shards }) = outstanding n i works := by
  induction works generalizing k with
  | nil => simp at h
  | cons v works ih =>
    cases k with
    | zero =>
      obtain rfl : v = w := by simpa using h
      simp [outstanding]
    | succ k =>
      have hrest := ih (k := k) (by simpa using h)
      simp only [outstanding, List.set_cons_succ, List.map_cons, List.sum_cons] at hrest ⊢
      omega

theorem le_outstanding {n i : ℕ} {works : List Work} {w : Work} (h : w ∈ works)
    (hnode : w.node = i) (hn : 0 < n) : 0 < outstanding n i works := by
  induction works with
  | nil => cases h
  | cons v works ih =>
    simp only [outstanding, List.map_cons, List.sum_cons] at ih ⊢
    rcases List.mem_cons.1 h with rfl | h
    · rw [if_pos hnode]
      split_ifs <;> omega
    · have := ih h
      omega

/-- Flags that are taken up are subchunks that are complete. -/
theorem publishPending_length (n : ℕ) (x : NodeState) (fuel : ℕ) :
    (publishPending n x fuel).completedSubchunks + (publishPending n x fuel).pending.length =
        x.completedSubchunks + x.pending.length ∧
      (publishPending n x fuel).nextSubchunk = x.nextSubchunk := by
  induction fuel generalizing x with
  | zero => exact ⟨rfl, rfl⟩
  | succ fuel ih =>
    unfold publishPending
    split_ifs with h
    · obtain ⟨hsum, hnext⟩ := ih { x with
        completedSubchunks := x.completedSubchunks + 1
        pending := x.pending.erase x.completedSubchunks }
      refine ⟨hsum.trans ?_, hnext⟩
      have hlen := List.length_erase_of_mem h.2
      have hpos := List.length_pos_of_mem h.2
      dsimp only
      omega
    · exact ⟨rfl, rfl⟩

/-- A work that is done becomes complete subchunks, or flags for them. -/
theorem account_h2hDone {n c : ℕ} (hn : 0 < n) (backend : Backend) (w : Work) (x : NodeState)
    (h : x.completedSubchunks + x.pending.length + (c + outstanding n w.node [w]) ≤
        x.nextSubchunk ∧ x.nextSubchunk ≤ n) :
    (h2hDone backend n w x).completedSubchunks + (h2hDone backend n w x).pending.length + c ≤
        (h2hDone backend n w x).nextSubchunk ∧ (h2hDone backend n w x).nextSubchunk ≤ n := by
  rw [outstanding_singleton, if_pos rfl] at h
  cases backend with
  | cuda =>
    show (x.completedSubchunks + 1) + x.pending.length + c ≤ x.nextSubchunk ∧ x.nextSubchunk ≤ n
    split_ifs at h <;> omega
  | ascend =>
    cases hw : w.subchunk with
    | none =>
      rw [if_pos hw] at h
      simp only [h2hDone, hw]
      omega
    | some subchunk =>
      rw [if_neg (by rw [hw]; simp)] at h
      simp only [h2hDone, hw]
      obtain ⟨hsum, hnext⟩ := publishPending_length n
        { x with pending := if subchunk ∈ x.pending then x.pending else subchunk :: x.pending }
        (if subchunk ∈ x.pending then x.pending else subchunk :: x.pending).length
      have hlen : (if subchunk ∈ x.pending then x.pending else subchunk :: x.pending).length ≤
          x.pending.length + 1 := by
        split_ifs <;> simp
      rw [hnext, hsum]
      dsimp only
      omega

theorem NoRecords.quiet (hno : NoRecords s)
    (h : Records cfg s.node s.ring s.stream s.inflight s.lost) : s.Quiet where
  streams lane := by
    have hle := h.bounded lane
    rw [hno.1 lane] at hle
    simpa using hle
  works w hw := by
    rw [hno.2] at hw
    cases hw
  lost := h.lost

/-- Nothing is on record and nothing is in flight. -/
theorem Records.finish (h : Records cfg s.node s.ring s.stream s.inflight s.lost)
    (hno : NoRecords s) (ok : Bool) :
    Records cfg (finishCurrentWork ok s).node (finishCurrentWork ok s).ring
      (finishCurrentWork ok s).stream (finishCurrentWork ok s).inflight
      (finishCurrentWork ok s).lost := by
  refine ⟨?_, fun lane => ?_, fun lane hne => absurd rfl hne,
    fun lane i hi => absurd hi List.not_mem_nil, fun w hw => absurd hw List.not_mem_nil,
    fun i _ => ⟨Nat.le_refl 0, Nat.zero_le _⟩⟩
  · show s.lost + shards s.inflight = 0
    rw [h.lost, hno.2]
    rfl
  · exact (hno.quiet h).streams lane ▸ Nat.zero_le _

theorem noRecords_finish (ok : Bool) (s : State) : NoRecords (finishCurrentWork ok s) :=
  ⟨fun _ => rfl, rfl⟩

theorem noRecords_of_recordsNone (h : Records cfg s.node s.ring s.stream s.inflight s.lost)
    (hno : s.recordsNone cfg = true) : NoRecords s := by
  simp only [State.recordsNone, Bool.and_eq_true, List.all_eq_true, List.mem_range,
    List.isEmpty_iff] at hno
  refine ⟨fun lane => ?_, hno.2⟩
  by_contra hne
  exact hne (hno.1 lane (h.inRange lane hne))

/-! ## The device, the workers and a caller -/

/-- What changes neither the records nor where the executor is. -/
theorem Inv.aside (h : Inv cfg s)
    (hrecords : Records cfg s'.node s'.ring s'.stream s'.inflight s'.lost)
    (hring : s'.ring = s.ring) (hinflight : s'.inflight = [] ↔ s.inflight = [])
    (hphase : s'.phase = s.phase) (hbusy : s'.busy = s.busy)
    (hlast : s.lastResult = false → s'.lastResult = false)
    (hsignalled : s'.signalled = s.signalled) (hreleased : s'.released = s.released) :
    Inv cfg s' := by
  have hno : NoRecords s → NoRecords s' := fun hno => ⟨fun j => by rw [hring]; exact hno.1 j,
    hinflight.2 hno.2⟩
  refine ⟨hrecords, fun hb => hno (h.idle (hbusy ▸ hb)), ?_, ?_, ?_⟩
  · have hstands := h.stands
    rw [hphase]
    cases hph : s.phase with
    | start | userReady =>
      rw [hph] at hstands
      exact ⟨hbusy.trans hstands.1, hno hstands.2⟩
    | lane block lane =>
      rw [hph] at hstands
      cases block with
      | false => exact fun hb => hlast (hstands (hbusy ▸ hb))
      | true =>
        exact ⟨fun j hj => by rw [hring]; exact hstands.1 j hj,
          fun hasc => hinflight.2 (hstands.2 hasc)⟩
    | h2h block =>
      rw [hph] at hstands
      cases block with
      | false => exact fun hb => hlast (hstands (hbusy ▸ hb))
      | true =>
        exact ⟨fun j => by rw [hring]; exact hstands.1 j, fun hasc => hinflight.2 (hstands.2 hasc)⟩
    | submit i | terminals =>
      rw [hph] at hstands
      exact hbusy.trans hstands
    | conclude | finish | release | done =>
      rw [hph] at hstands
      exact hno hstands
  · rw [hsignalled, hbusy, hphase]
    exact h.signalled
  · rw [hreleased, hphase]
    exact h.released

theorem Inv.env (h : Inv cfg s) {l : Label}
    (hl : (∃ lane, l = .copied lane) ∨ (∃ i, l = .shard i) ∨ l = .lostShard ∨ l = .idleTimeout)
    (hstep : step cfg s l = some s') : Inv cfg s' := by
  rcases hl with ⟨lane, rfl⟩ | ⟨i, rfl⟩ | rfl | rfl
  · simp only [step, Option.ite_none_right_eq_some, Option.some.injEq] at hstep
    obtain ⟨hpos, rfl⟩ := hstep
    refine h.aside ⟨h.records.lost, fun j => ?_, h.records.inRange, h.records.ringNode,
      h.records.workNode, h.records.account⟩ rfl Iff.rfl rfl rfl id rfl rfl
    have hle := h.records.bounded j
    show update s.stream lane (s.stream lane - 1) j ≤ (s.ring j).length
    rw [Function.update_apply]
    split_ifs with hj
    · subst hj
      omega
    · exact hle
  · simp only [step] at hstep
    split at hstep
    · rename_i w hw
      simp only [Option.ite_none_right_eq_some, Option.some.injEq] at hstep
      obtain ⟨hpos, rfl⟩ := hstep
      refine h.aside ⟨h.records.lost, h.records.bounded, h.records.inRange, h.records.ringNode,
        fun v hv => ?_, fun j hj => ?_⟩ rfl (by simp [List.set_eq_nil_iff]) rfl rfl id rfl rfl
      · rcases List.mem_or_eq_of_mem_set hv with hv | rfl
        · exact h.records.workNode v hv
        · exact h.records.workNode w (List.mem_of_getElem? hw)
      · dsimp only
        rw [outstanding_set hw]
        exact h.records.account j hj
    · cases hstep
  · simp only [step, Option.ite_none_right_eq_some] at hstep
    have hlost := h.records.lost
    omega
  · simp only [step, Option.some.injEq] at hstep
    subst hstep
    exact h.aside h.records rfl Iff.rfl rfl rfl (fun _ => rfl) rfl rfl

/-! ## The executor -/

/-- The executor goes on with nothing else changed. -/
theorem Inv.goto (h : Inv cfg s) {phase : Phase} (result : Bool)
    (hover : s.phase.over = true → phase.over = true) (hdone : s.phase ≠ .done)
    (hstands : Stands cfg { s with phase, result } phase) :
    Inv cfg { s with phase, result } where
  records := h.records
  idle := h.idle
  stands := hstands
  signalled hs := (h.signalled hs).imp_right hover
  released hr := absurd (h.released hr) hdone

theorem Inv.giveUp (h : Inv cfg s) (hover : s.phase.over = false)
    (hinflight : cfg.backend = .ascend → s.inflight = []) : Inv cfg s.giveUp :=
  h.goto false (by simp [hover]) (fun hd => by rw [hd] at hover; cases hover)
    ⟨fun j hj => absurd hj (Nat.not_lt_zero j), hinflight⟩

theorem Inv.pollLane (h : Inv cfg s) {block : Bool} {lane : ℕ} {l : Label}
    (hphase : s.phase = .lane block lane) (hcalm : calm cfg s l = true)
    (hstep : pollLane cfg s block lane l = some s') : Inv cfg s' := by
  have hstands := h.stands
  rw [hphase] at hstands
  have hnot : s.phase.over = false := by rw [hphase]; rfl
  have hdone : s.phase ≠ .done := by rw [hphase]; simp
  cases l with
  | event =>
    simp only [Quiescence.pollLane] at hstep
    split at hstep
    · rename_i i rest hring
      simp only [Option.ite_none_right_eq_some, Option.some.injEq] at hstep
      obtain ⟨hlt, rfl⟩ := hstep
      have hmem : i ∈ s.ring lane := by rw [hring]; exact List.mem_cons_self ..
      have hbusy : s.busy = true := by
        by_contra hb
        have hempty := (h.idle (by simpa using hb)).1 lane
        rw [hring] at hempty
        cases hempty
      have hsub : ∀ j, ∀ n ∈ update s.ring lane rest j, n ∈ s.ring j := by
        intro j n hn
        rw [Function.update_apply] at hn
        split_ifs at hn with hj
        · subst hj
          rw [hring]
          exact List.mem_cons_of_mem _ hn
        · exact hn
      refine ⟨⟨h.records.lost, fun j => ?_, fun j hne => ?_,
        fun j n hn => h.records.ringNode j n (hsub j n hn), h.records.workNode,
        fun n hn => ?_⟩, fun hb => ?_, ?_, ?_, fun hr => absurd (h.released hr) hdone⟩
      · show s.stream j ≤ (update s.ring lane rest j).length
        rw [Function.update_apply]
        split_ifs with hj
        · subst hj
          rw [hring, List.length_cons] at hlt
          omega
        · exact h.records.bounded j
      · obtain ⟨n, hn⟩ := List.exists_mem_of_ne_nil _ hne
        exact h.records.inRange j (List.ne_nil_of_mem (hsub j n hn))
      · -- the node of a transfer has no H2H works
        have hni : n ≠ i := fun heq => h.records.ringNode lane i hmem (heq ▸ hn)
        show (update s.node i _ n).completedSubchunks + (update s.node i _ n).pending.length + _ ≤
          (update s.node i _ n).nextSubchunk ∧ (update s.node i _ n).nextSubchunk ≤ _
        rw [Function.update_of_ne hni]
        exact h.records.account n hn
      · rw [show s.busy = false from hb] at hbusy
        cases hbusy
      · rw [hphase]
        cases block with
        | false => exact hstands
        | true =>
          refine ⟨fun j hj => ?_, hstands.2⟩
          show update s.ring lane rest j = []
          rw [Function.update_of_ne hj.ne]
          exact hstands.1 j hj
      · exact fun hs => h.signalled hs
    · cases hstep
  | queryFails => simp [calm] at hcalm
  | eventTimeout =>
    simp only [Quiescence.pollLane, Option.ite_none_right_eq_some, Option.some.injEq] at hstep
    obtain ⟨-, rfl⟩ := hstep
    cases block with
    | true => simp [calm, hphase] at hcalm
    | false =>
      have haside : Inv cfg { s with lastResult := false } :=
        h.aside h.records rfl Iff.rfl rfl rfl (fun _ => rfl) rfl rfl
      exact haside.goto s.result (by simp [hnot]) hdone fun _ => rfl
  | leaveLane =>
    simp only [Quiescence.pollLane, Option.ite_none_right_eq_some, Option.some.injEq] at hstep
    obtain ⟨hempty, rfl⟩ := hstep
    refine h.goto s.result (by simp [hnot]) hdone ?_
    cases block with
    | false => exact hstands
    | true =>
      refine ⟨fun j hj => ?_, hstands.2⟩
      rcases Nat.lt_succ_iff_lt_or_eq.1 hj with hj | rfl
      · exact hstands.1 j hj
      · exact hempty.resolve_right (by simp)
  | _ => simp [Quiescence.pollLane] at hstep

/-- A work is done. -/
theorem Inv.h2hDone (h : Inv cfg s) {block : Bool} {i : ℕ} {w : Work}
    (hphase : s.phase = .h2h block) (hw : s.inflight[i]? = some w) :
    Inv cfg { s with
      inflight := s.inflight.eraseIdx i
      node := update s.node w.node
        (h2hDone cfg.backend cfg.numSubchunks w (s.node w.node)) } := by
  have hstands := h.stands
  rw [hphase] at hstands
  have hmem := List.mem_of_getElem? hw
  have hsome : s.inflight ≠ [] := List.ne_nil_of_mem hmem
  refine ⟨⟨h.records.lost, h.records.bounded, h.records.inRange, h.records.ringNode,
    fun v hv => h.records.workNode v (List.mem_of_mem_eraseIdx hv), fun n hn => ?_⟩,
    fun hb => absurd (h.idle hb).2 hsome, ?_, fun hs => h.signalled hs,
    fun hr => by rw [h.released hr] at hphase; cases hphase⟩
  · have haccount := h.records.account n hn
    rw [outstanding_eraseIdx hw] at haccount
    show (update s.node w.node _ n).completedSubchunks +
      (update s.node w.node _ n).pending.length + _ ≤ (update s.node w.node _ n).nextSubchunk ∧
        (update s.node w.node _ n).nextSubchunk ≤ _
    by_cases hnw : n = w.node
    · subst hnw
      rw [Function.update_self]
      exact account_h2hDone (h.records.workNode w hmem).2 _ w _ haccount
    · rw [Function.update_of_ne hnw]
      rw [outstanding_singleton, if_neg (Ne.symm hnw), Nat.add_zero] at haccount
      exact haccount
  · rw [hphase]
    cases block with
    | false => exact hstands
    | true => exact ⟨hstands.1, fun hasc => absurd (hstands.2 hasc) hsome⟩

/-- What ends the item in `trySubmitNode` finds nothing on record. -/
theorem Inv.refused (h : Inv cfg s) (hdone : s.phase ≠ .done) (hno : s.recordsNone cfg = true) :
    Inv cfg (finishCurrentWork false s).giveUp :=
  ⟨h.records.finish (noRecords_of_recordsNone h.records hno) false,
    fun _ => noRecords_finish false s, ⟨fun j hj => absurd hj (Nat.not_lt_zero j), fun _ => rfl⟩,
    fun _ => Or.inl rfl, fun hr => absurd (h.released hr) hdone⟩

/-- The next node is looked at, or the loop is left. -/
theorem Inv.submit {i : ℕ} (h : Inv cfg s) (hphase : s.phase = .submit i)
    (hinflight : s.lastResult = false → cfg.backend = .ascend → s.inflight = []) :
    Inv cfg (if s.lastResult then { s with phase := .submit (i + 1) } else s.giveUp) := by
  have hstands := h.stands
  rw [hphase] at hstands
  have hover : s.phase.over = false := by rw [hphase]; rfl
  split_ifs with hlast
  · exact h.goto s.result (by simp [hover]) (by rw [hphase]; simp) hstands
  · exact h.giveUp hover (hinflight (by simpa using hlast))

theorem Inv.trySubmitNode {i : ℕ} {o : Outcome} (h : Inv cfg s) (hphase : s.phase = .submit i)
    (hcalm : calm cfg s (.submit o) = true) (hstep : trySubmitNode cfg s i o = some s') :
    Inv cfg (if s'.lastResult then { s' with phase := .submit (i + 1) } else s'.giveUp) := by
  have hbusy : s.busy = true := by
    have hstands := h.stands
    rw [hphase] at hstands
    exact hstands
  -- nothing but the records changes
  have hsubmit : ∀ (node : ℕ → NodeState) (ring : ℕ → List ℕ) (stream : ℕ → ℕ)
      (inflight : List Work), Records cfg node ring stream inflight s.lost →
      (s.lastResult = false → cfg.backend = .ascend → inflight = []) →
      Inv cfg (if s.lastResult then
          { s with node, ring, stream, inflight, phase := .submit (i + 1) }
        else { s with node, ring, stream, inflight }.giveUp) := by
    intro node ring stream inflight hrecords hinflight
    refine Inv.submit (s := { s with node, ring, stream, inflight }) ⟨hrecords, fun hb => ?_, ?_,
      fun hs => h.signalled hs, fun hr => ?_⟩ hphase hinflight
    · rw [show s.busy = false from hb] at hbusy
      cases hbusy
    · show Stands cfg _ s.phase
      rw [hphase]
      exact hbusy
    · rw [h.released hr] at hphase
      cases hphase
  have hgiven : (s.lastResult || cfg.backend == .cuda || s.inflight.isEmpty) = true →
      s.lastResult = false → cfg.backend = .ascend → s.inflight = [] := by
    intro hc hlast hasc
    simpa [hlast, hasc] using hc
  have hstays : (s.lastResult || cfg.backend == .cuda) = true → s.lastResult = false →
      cfg.backend = .ascend → False := by
    intro hc hlast hasc
    simp [hlast, hasc] at hc
  obtain ⟨route, hn⟩ : ∃ route, cfg.nodes[i]? = some route := by
    cases hn : cfg.nodes[i]? with
    | none => cases o <;> simp [Quiescence.trySubmitNode, hn] at hstep
    | some route => exact ⟨route, rfl⟩
  have hrec := h.records
  cases o with
  | blocked =>
    simp only [Quiescence.trySubmitNode, hn, Option.some.injEq] at hstep
    subst hstep
    exact hsubmit _ _ _ _ hrec (hgiven hcalm)
  | immediate =>
    simp only [Quiescence.trySubmitNode, hn, Option.ite_none_right_eq_some,
      Option.some.injEq] at hstep
    obtain ⟨hlt, rfl⟩ := hstep
    refine hsubmit _ _ _ _ ⟨hrec.lost, hrec.bounded, hrec.inRange, hrec.ringNode, hrec.workNode,
      fun j hj => ?_⟩ (hgiven hcalm)
    have haccount := hrec.account j hj
    dsimp only
    rw [Function.update_apply]
    split_ifs with hji
    · subst hji
      dsimp only
      omega
    · exact haccount
  | refused =>
    simp only [Quiescence.trySubmitNode, hn, Option.ite_none_right_eq_some,
      Option.some.injEq] at hstep
    obtain ⟨-, rfl⟩ := hstep
    exact h.refused (by rw [hphase]; simp) hcalm
  | launchFails =>
    cases route with
    | h2h => simp [Quiescence.trySubmitNode, hn] at hstep
    | dma lane =>
      simp only [Quiescence.trySubmitNode, hn, Option.ite_none_right_eq_some,
        Option.some.injEq] at hstep
      obtain ⟨-, rfl⟩ := hstep
      exact h.refused (by rw [hphase]; simp) hcalm
  | recordFails => simp [calm] at hcalm
  | h2h shards =>
    cases route with
    | dma lane => simp [Quiescence.trySubmitNode, hn] at hstep
    | h2h =>
      simp only [Quiescence.trySubmitNode, hn, Option.ite_none_right_eq_some,
        Option.some.injEq] at hstep
      obtain ⟨hlt, rfl⟩ := hstep
      refine hsubmit _ _ _ _ ⟨hrec.lost, hrec.bounded, hrec.inRange, hrec.ringNode,
        fun w hw => ?_, fun j hj => ?_⟩ fun hlast hasc => (hstays hcalm hlast hasc).elim
      · rcases List.mem_append.1 hw with hw | hw
        · exact hrec.workNode w hw
        · obtain rfl := List.mem_singleton.1 hw
          exact ⟨hn, by omega⟩
      · have haccount := hrec.account j hj
        dsimp only
        rw [outstanding_append, outstanding_singleton]
        by_cases hji : j = i
        · subst hji
          rw [Function.update_self, if_pos rfl, if_neg (by simp)]
          dsimp only
          omega
        · rw [Function.update_of_ne hji, if_neg (Ne.symm hji), Nat.add_zero]
          exact haccount
  | h2hRange shards =>
    cases route with
    | dma lane => simp [Quiescence.trySubmitNode, hn] at hstep
    | h2h =>
      simp only [Quiescence.trySubmitNode, hn, Option.ite_none_right_eq_some,
        Option.some.injEq] at hstep
      obtain ⟨⟨-, hzero, hpos⟩, rfl⟩ := hstep
      refine hsubmit _ _ _ _ ⟨hrec.lost, hrec.bounded, hrec.inRange, hrec.ringNode,
        fun w hw => ?_, fun j hj => ?_⟩ fun hlast hasc => (hstays hcalm hlast hasc).elim
      · rcases List.mem_append.1 hw with hw | hw
        · exact hrec.workNode w hw
        · obtain rfl := List.mem_singleton.1 hw
          exact ⟨hn, hpos⟩
      · have haccount := hrec.account j hj
        dsimp only
        rw [outstanding_append, outstanding_singleton]
        by_cases hji : j = i
        · subst hji
          rw [Function.update_self, if_pos rfl, if_pos rfl]
          dsimp only
          omega
        · rw [Function.update_of_ne hji, if_neg (Ne.symm hji), Nat.add_zero]
          exact haccount
  | dma =>
    cases route with
    | h2h => simp [Quiescence.trySubmitNode, hn] at hstep
    | dma lane =>
      simp only [Quiescence.trySubmitNode, hn, Option.ite_none_right_eq_some,
        Option.some.injEq] at hstep
      obtain ⟨⟨hlt, -⟩, rfl⟩ := hstep
      refine hsubmit _ _ _ _ ⟨hrec.lost, fun j => ?_, fun j hj => ?_, fun j n hn' => ?_,
        hrec.workNode, fun j hj => ?_⟩ (hgiven hcalm)
      · have hle := hrec.bounded j
        dsimp only
        rw [Function.update_apply, Function.update_apply]
        split_ifs with hjl
        · subst hjl
          simpa using hle
        · exact hle
      · by_cases hjl : j = lane
        · subst hjl
          exact cfg.lane_lt j (List.mem_of_getElem? hn)
        · dsimp only at hj
          rw [Function.update_of_ne hjl] at hj
          exact hrec.inRange j hj
      · dsimp only at hn'
        rw [Function.update_apply] at hn'
        split_ifs at hn' with hjl
        · rcases List.mem_append.1 hn' with hn' | hn'
          · exact hrec.ringNode lane n hn'
          · obtain rfl := List.mem_singleton.1 hn'
            rw [hn]
            simp
        · exact hrec.ringNode j n hn'
      · have hji : j ≠ i := fun heq => by
          rw [heq, hn] at hj
          cases hj
        dsimp only
        rw [Function.update_of_ne hji]
        exact hrec.account j hj

/-- Where all nodes are through, no work of theirs is left. -/
theorem inflight_of_nodesComplete (h : Inv cfg s) (hall : s.nodesComplete cfg = true) :
    s.inflight = [] := by
  by_contra hne
  obtain ⟨w, hw⟩ := List.exists_mem_of_ne_nil _ hne
  obtain ⟨hn, hpos⟩ := h.records.workNode w hw
  obtain ⟨hsum, hnext⟩ := h.records.account w.node hn
  have hlt : w.node < cfg.nodes.length := (List.getElem?_eq_some_iff.1 hn).1
  have hdone : cfg.numSubchunks ≤ (s.node w.node).completedSubchunks := by
    simp only [State.nodesComplete, List.all_eq_true, List.mem_range, decide_eq_true_eq] at hall
    exact hall w.node hlt
  have hout := le_outstanding hw rfl hpos
  omega

theorem Inv.run {l : Label} (h : Inv cfg s) (hcalm : calm cfg s l = true)
    (hstep : run cfg s l = some s') : Inv cfg s' := by
  have hstands := h.stands
  cases hphase : s.phase with
  | start =>
    rw [hphase] at hstands
    cases l with
    | begin =>
      simp only [Quiescence.run, hphase, Option.some.injEq] at hstep
      subst hstep
      exact h.goto s.result (by rw [hphase]; simp [Phase.over]) (by rw [hphase]; simp) hstands
    | beginFails =>
      simp only [Quiescence.run, hphase, Option.ite_none_right_eq_some, Option.some.injEq] at hstep
      obtain ⟨-, rfl⟩ := hstep
      exact ⟨h.records.finish hstands.2 false, fun _ => noRecords_finish false s,
        noRecords_finish false s, fun _ => Or.inl rfl, fun _ => rfl⟩
    | _ => simp [Quiescence.run, hphase] at hstep
  | userReady =>
    rw [hphase] at hstands
    cases l with
    | userReady =>
      simp only [Quiescence.run, hphase, Option.some.injEq] at hstep
      subst hstep
      refine h.goto s.result (by rw [hphase]; simp [Phase.over]) (by rw [hphase]; simp)
        fun hb => ?_
      have hbusy := hstands.1.symm.trans hb
      cases hbusy
    | userReadyTimeout =>
      simp only [Quiescence.run, hphase, Option.some.injEq] at hstep
      subst hstep
      exact h.giveUp (by rw [hphase]; rfl) fun _ => hstands.2.2
    | _ => simp [Quiescence.run, hphase] at hstep
  | lane block lane =>
    simp only [Quiescence.run, hphase] at hstep
    by_cases hlt : lane < cfg.laneCount
    · rw [if_pos hlt] at hstep
      exact h.pollLane hphase hcalm hstep
    · rw [if_neg hlt] at hstep
      simp only [Option.ite_none_right_eq_some, Option.some.injEq] at hstep
      obtain ⟨-, rfl⟩ := hstep
      rw [hphase] at hstands
      refine h.goto _ (by rw [hphase]; simp [Phase.over]) (by rw [hphase]; simp) ?_
      cases block with
      | false => exact hstands
      | true =>
        refine ⟨fun j => ?_, hstands.2⟩
        by_contra hne
        have hj := h.records.inRange j hne
        exact hne (hstands.1 j (by omega))
  | h2h block =>
    rw [hphase] at hstands
    have hover : s.phase.over = false := by rw [hphase]; rfl
    have hdone : s.phase ≠ .done := by rw [hphase]; simp
    cases l with
    | h2hDone i =>
      have hstep' : ∃ w, s.inflight[i]? = some w ∧ s' = { s with
          inflight := s.inflight.eraseIdx i
          node := update s.node w.node
            (Quiescence.h2hDone cfg.backend cfg.numSubchunks w (s.node w.node)) } := by
        cases block <;> simp only [Quiescence.run, hphase] at hstep <;> split at hstep
        all_goals first
          | cases hstep
          | (rename_i w hw
             simp only [Option.ite_none_right_eq_some, Option.some.injEq] at hstep
             exact ⟨w, hw, by rw [hphase]; exact hstep.2.symm⟩)
      obtain ⟨w, hw, rfl⟩ := hstep'
      exact h.h2hDone hphase hw
    | leaveH2H =>
      cases block with
      | false =>
        simp only [Quiescence.run, hphase, Option.some.injEq] at hstep
        subst hstep
        simp only [calm, hphase] at hcalm
        split_ifs with hlast
        · refine h.goto s.result (by simp [hover]) hdone ?_
          show s.busy = true
          by_contra hb
          have hfailed : s.lastResult = false := hstands (by simpa using hb)
          rw [hlast] at hfailed
          cases hfailed
        · refine h.giveUp hover fun hasc => ?_
          simpa [hlast, hasc] using hcalm
      | true =>
        simp only [Quiescence.run, hphase] at hstep
        split at hstep
        · simp only [Option.ite_none_right_eq_some, Option.some.injEq] at hstep
          obtain ⟨hnone, rfl⟩ := hstep
          exact h.goto s.result (by simp [hover]) hdone ⟨hstands.1, hnone⟩
        · rename_i hasc
          simp only [Option.some.injEq] at hstep
          subst hstep
          exact h.goto _ (by simp [hover]) hdone ⟨hstands.1, hstands.2 hasc⟩
    | h2hTimeout => simp [calm] at hcalm
    | _ => cases block <;> simp [Quiescence.run, hphase] at hstep
  | submit i =>
    rw [hphase] at hstands
    cases l with
    | submit o =>
      simp only [Quiescence.run, hphase, Option.map_eq_some_iff] at hstep
      obtain ⟨t, ht, rfl⟩ := hstep
      exact h.trySubmitNode hphase hcalm ht
    | submitted =>
      simp only [Quiescence.run, hphase, Option.ite_none_right_eq_some, Option.some.injEq] at hstep
      obtain ⟨-, rfl⟩ := hstep
      exact h.goto s.result (by rw [hphase]; simp [Phase.over]) (by rw [hphase]; simp) hstands
    | _ => simp [Quiescence.run, hphase] at hstep
  | terminals =>
    rw [hphase] at hstands
    have hover : s.phase.over = false := by rw [hphase]; rfl
    have hdone : s.phase ≠ .done := by rw [hphase]; simp
    cases l with
    | terminalsComplete =>
      simp only [Quiescence.run, hphase, Option.ite_none_right_eq_some, Option.some.injEq] at hstep
      obtain ⟨hall, rfl⟩ := hstep
      have hnone := inflight_of_nodesComplete h hall
      exact h.goto s.result (by simp [hover]) hdone
        ⟨fun j hj => absurd hj (Nat.not_lt_zero j), fun _ => hnone⟩
    | again =>
      simp only [Quiescence.run, hphase, Option.some.injEq] at hstep
      subst hstep
      refine h.goto s.result (by simp [hover]) hdone fun hb => ?_
      rw [show s.busy = true from hstands] at hb
      cases hb
    | runTimeout =>
      simp only [Quiescence.run, hphase, Option.some.injEq] at hstep
      subst hstep
      refine h.giveUp hover fun hasc => ?_
      simpa [calm, hasc] using hcalm
    | _ => simp [Quiescence.run, hphase] at hstep
  | conclude =>
    rw [hphase] at hstands
    have hover : s.phase.over = false := by rw [hphase]; rfl
    have hdone : s.phase ≠ .done := by rw [hphase]; simp
    cases l with
    | barrierFails =>
      simp only [Quiescence.run, hphase, Option.ite_none_right_eq_some, Option.some.injEq] at hstep
      obtain ⟨-, rfl⟩ := hstep
      exact h.goto false (by simp [hover]) hdone hstands
    | signal ok =>
      simp only [Quiescence.run, hphase, Option.ite_none_right_eq_some, Option.some.injEq] at hstep
      obtain ⟨-, rfl⟩ := hstep
      exact ⟨h.records, h.idle, hstands, fun _ => Or.inr rfl,
        fun hr => absurd (h.released hr) hdone⟩
    | skip =>
      simp only [Quiescence.run, hphase, Option.ite_none_left_eq_some, Option.some.injEq] at hstep
      obtain ⟨-, rfl⟩ := hstep
      exact h.goto s.result (by simp [hover]) hdone hstands
    | _ => simp [Quiescence.run, hphase] at hstep
  | finish =>
    rw [hphase] at hstands
    cases l with
    | finish =>
      simp only [Quiescence.run, hphase, Option.some.injEq] at hstep
      subst hstep
      refine ⟨h.records.finish hstands s.result, fun _ => noRecords_finish s.result s,
        noRecords_finish s.result s, fun _ => Or.inl rfl, fun hr => ?_⟩
      have hdone := h.released hr
      rw [hphase] at hdone
      cases hdone
    | _ => simp [Quiescence.run, hphase] at hstep
  | release =>
    rw [hphase] at hstands
    cases l with
    | release =>
      simp only [Quiescence.run, hphase, Option.some.injEq] at hstep
      subst hstep
      exact ⟨h.records, h.idle, hstands, fun _ => Or.inr rfl, fun _ => rfl⟩
    | _ => simp [Quiescence.run, hphase] at hstep
  | done => simp [Quiescence.run, hphase] at hstep

theorem Inv.step {l : Label} (h : Inv cfg s) (hcalm : calm cfg s l = true)
    (hstep : step cfg s l = some s') : Inv cfg s' := by
  cases l with
  | copied lane => exact h.env (Or.inl ⟨lane, rfl⟩) hstep
  | shard i => exact h.env (Or.inr (Or.inl ⟨i, rfl⟩)) hstep
  | lostShard => exact h.env (Or.inr (Or.inr (Or.inl rfl))) hstep
  | idleTimeout => exact h.env (Or.inr (Or.inr (Or.inr rfl))) hstep
  | _ => exact h.run hcalm hstep

theorem Inv.init (cfg : Config) : Inv cfg State.init where
  records := ⟨rfl, fun _ => Nat.le_refl 0, fun _ hne => absurd rfl hne,
    fun _ _ hi => absurd hi List.not_mem_nil, fun _ hw => absurd hw List.not_mem_nil,
    fun _ _ => ⟨Nat.le_refl 0, Nat.zero_le _⟩⟩
  idle _ := ⟨fun _ => rfl, rfl⟩
  stands := ⟨rfl, fun _ => rfl, rfl⟩
  signalled hs := absurd hs Bool.false_ne_true
  released hr := absurd hr Bool.false_ne_true

theorem Inv.noRecords (h : Inv cfg s) (hreported : s.reported = true) : NoRecords s := by
  have hover : s.phase.over = true → NoRecords s := by
    have hstands := h.stands
    cases hphase : s.phase with
    | finish | release | done =>
      rw [hphase] at hstands
      exact fun _ => hstands
    | _ => exact fun hf => by cases hf
  simp only [State.reported, Bool.or_eq_true, Bool.not_eq_true'] at hreported
  rcases hreported with (hs | hb) | hr
  · rcases h.signalled hs with hb | hphase
    · exact h.idle hb
    · exact hover hphase
  · exact h.idle hb
  · exact hover (by rw [h.released hr]; rfl)

/-! ## Quiescence -/

/-- **Nothing is in flight once the item is reported.**  In every run of an item, on either
backend, in which nothing fails or gives up with a transfer on record: from the moment the
completion is signalled, the item is finished or the staging region is given back, no copy is left
in a stream and no shard with a worker. -/
theorem quiet_of_reported {ls : List Label}
    (hrun : (machine cfg).runFrom (calm cfg) State.init ls = some s)
    (hreported : s.reported = true) : s.Quiet := by
  have h := (machine cfg).invariant (I := Inv cfg)
    (fun s l s' h hcalm hstep => h.step hcalm hstep) (Inv.init cfg) hrun
  exact (h.noRecords hreported).quiet h.records

/-- Two copies in each direction, and nothing for the workers. -/
def copies (backend : Backend) : Config :=
  ⟨backend, 2, 64, [.dma 0, .dma 1], by simp, 1⟩

/-- The first node is launched, and is on its way when the second fails to launch. -/
def launchFails : List Label :=
  [.begin, .userReady, .leaveLane, .leaveLane, .lanesPolled, .leaveH2H, .submit .dma,
    .submit .launchFails]

/-- Both are launched, waited for and signalled. -/
def goesWell : List Label :=
  [.begin, .userReady, .leaveLane, .leaveLane, .lanesPolled, .leaveH2H, .submit .dma, .submit .dma,
    .submitted, .again, .copied 0, .event, .leaveLane, .leaveLane, .lanesPolled, .leaveH2H,
    .submit .blocked, .submit .blocked, .submitted, .again, .copied 1, .leaveLane, .event,
    .leaveLane, .lanesPolled, .leaveH2H, .submit .blocked, .submit .blocked, .submitted,
    .terminalsComplete, .leaveLane, .leaveLane, .lanesPolled, .leaveH2H, .signal true, .finish,
    .release]

theorem quiet_of_reported_goesWell :
    ∃ s, (machine (copies .ascend)).runFrom (calm (copies .ascend)) State.init goesWell = some s ∧
      s.released = true ∧ s.Quiet := by
  have hobs : ((machine (copies .ascend)).runFrom (calm (copies .ascend)) State.init goesWell).map
      (fun s => (s.released, s.reported)) = some (true, true) := by
    decide
  obtain ⟨s, hrun, hs⟩ := Option.map_eq_some_iff.1 hobs
  rw [Prod.mk.injEq] at hs
  exact ⟨s, hrun, hs.1, quiet_of_reported hrun hs.2⟩

theorem runFrom_launchFails (backend : Backend) :
    ((machine (copies backend)).runFrom Theory.Machine.anyStep State.init launchFails).map
      (fun s => (s.reported, s.stream 0)) = some (true, 1) := by
  cases backend <;> decide

/-- **A call that fails ends the item over what is in flight**, on both backends: a launch fails
and the completion is signalled while the copy launched before it is in its stream. -/
theorem fails_in_flight :
    (¬ ∀ (cfg : Config) (ls : List Label) (s : State), cfg.backend = .cuda →
      (machine cfg).runFrom Theory.Machine.anyStep State.init ls = some s →
      s.reported = true → s.Quiet) ∧
    ¬ ∀ (cfg : Config) (ls : List Label) (s : State), cfg.backend = .ascend →
      (machine cfg).runFrom Theory.Machine.anyStep State.init ls = some s →
      s.reported = true → s.Quiet := by
  have hfails : ∀ backend, ¬ ∀ (cfg : Config) (ls : List Label) (s : State),
      cfg.backend = backend →
      (machine cfg).runFrom Theory.Machine.anyStep State.init ls = some s →
      s.reported = true → s.Quiet := by
    intro backend hall
    obtain ⟨s, hrun, hs⟩ := Option.map_eq_some_iff.1 (runFrom_launchFails backend)
    rw [Prod.mk.injEq] at hs
    have hquiet := hall (copies backend) launchFails s rfl hrun hs.1
    have hstream := hquiet.streams 0
    rw [hs.2] at hstream
    cases hstream
  exact ⟨hfails .cuda, hfails .ascend⟩

end Quiescence
end Executor
end HyLink
