import HyLink.Orchestrator.SplitCalls

/-!
# The fast path of a split collective

* `FastPart` — the operations on the user's stream compute the first window of every
  segment, and touch nothing of the second one.
* `fastPart_native`, `fastPart_p2p_gather`, `fastPart_p2p_reduce`, `fastPart_staged_gather`,
  `fastPart_staged_reduce` — each way to do the fast part.
* `split_equal_of_fastPart` — with the PCIe call behind, before or among them the result is
  that of one call.
-/

namespace HyLink
namespace Orchestrator
namespace Split

open Theory
open Streams (Kind)

variable {c : Comm} {kind : Kind} {send recv tmp : ℕ → ℕ} {count fe t f lo hi r a : ℕ}
  {staging : ℕ → ℕ → Prop} {user : List Step} {w : Memories UInt8}

/-! ## Runs -/

/-- The libraries promise something for the operation. -/
def Op.Ok (c : Comm) : Op → Prop
  | .call f => f.Allowed c
  | .copy _ _ _ => True

theorem exec_eq {op : Op} {lib : Library} (h : op.Ok c) (hlib : lib.Computes c) (w : Memories UInt8) :
    op.exec c lib w = (op.writer c).apply w := by
  cases op with
  | call x => exact hlib x h w
  | copy dst src len => rfl

def writers (c : Comm) (l : List Step) : List (Writer UInt8) := l.map fun s => s.op.writer c

theorem runOps_eq {lib : Library} {l : List Step} (h : ∀ s ∈ l, s.op.Ok c) (hlib : lib.Computes c)
    (w : Memories UInt8) : runOps c lib l w = Writer.applyAll (writers c l) w := by
  induction l generalizing w with
  | nil => rfl
  | cons s l ih =>
    show runOps c lib l (s.op.exec c lib w) = _
    rw [exec_eq (h s List.mem_cons_self) hlib, ih fun s hs => h s (List.mem_cons_of_mem _ hs)]
    rfl

/-- The ranges of the output that the operations write. -/
def fastRanges (c : Comm) (user : List Step) (r : ℕ) : List (ℕ × ℕ) :=
  (user.filter fun s => s.output).flatMap fun s => ranges (s.op.writer c) r

theorem ranges_wants {segs : ℕ → List ℕ} (hr : r < c.nranks) :
    ranges (wants c kind send recv t lo hi segs) r =
      (segs r).map fun j => (recv r + (j * t + lo), hi - lo) := by
  unfold ranges wants
  rw [if_pos hr, List.map_map]
  rfl

theorem ranges_wantsAll (hr : r < c.nranks) :
    ranges (wantsAll c kind send recv t lo hi) r = windows (recv r) (recvSegs c kind) t lo hi :=
  ranges_wants hr

/-- The operations compute the window `[0, f)` of every segment. -/
structure FastPart (c : Comm) (kind : Kind) (send recv : ℕ → ℕ) (t f : ℕ)
    (staging : ℕ → ℕ → Prop) (user : List Step) : Prop where
  ok : ∀ s ∈ user, s.op.Ok c
  within : ∀ s ∈ user, (s.op.writer c).Within fun r a =>
    Part c kind send recv t 0 f r a ∨ staging r a
  result : ∀ w r a, ¬ staging r a →
    Writer.applyAll (writers c user) w r a = (wantsAll c kind send recv t 0 f).apply w r a
  ranges : ∀ r < c.nranks, ∀ a,
    coverage (fastRanges c user r) a = coverage (windows (recv r) (recvSegs c kind) t 0 f) a

/-! ## The PCIe part -/

theorem part_mono {lo' hi' : ℕ} (h : Part c kind send recv t lo hi r a) (hlo : lo' ≤ lo)
    (hhi : hi ≤ hi') : Part c kind send recv t lo' hi' r a := by
  obtain ⟨hr, j, i, hl, hh, ha⟩ := h
  exact ⟨hr, j, i, hlo.trans hl, hh.trans_le hhi, ha⟩

/-- The windows of both parts tile the segments. -/
theorem coverage_split (hf : f ≤ t) (m base : ℕ) :
    coverage (windows base m t 0 f ++ windows base m t f t) a = coverage (windows base m t 0 t) a := by
  rw [coverage_append]
  by_cases ha : ∃ j < m, ∃ i < t, a = base + (j * t + i)
  · obtain ⟨j, hj, i, hi', rfl⟩ := ha
    have hfirst := @coverage_windows base m t 0 f j i hj hi' hf
    have hsecond := @coverage_windows base m t f t j i hj hi' (Nat.le_refl t)
    have hwhole := @coverage_windows base m t 0 t j i hj hi' (Nat.le_refl t)
    rw [if_pos ⟨Nat.zero_le i, hi'⟩] at hwhole
    rw [hfirst, hsecond, hwhole]
    by_cases hif : i < f
    · rw [if_pos ⟨Nat.zero_le i, hif⟩, if_neg fun h => absurd h.1 (Nat.not_le_of_lt hif)]
    · rw [if_neg fun h => hif h.2, if_pos ⟨Nat.le_of_not_lt hif, hi'⟩]
  · have hno : ∀ j < m, ∀ i < t, a ≠ base + (j * t + i) :=
      fun j hj i hi' heq => ha ⟨j, hj, i, hi', heq⟩
    rw [coverage_windows_outside hf hno, coverage_windows_outside (Nat.le_refl t) hno,
      coverage_windows_outside (Nat.le_refl t) hno]

/-- Every address of the output is in one segment. -/
theorem coverage_unsplit (base m : ℕ) :
    coverage (windows base m t 0 t) a =
      if ∃ x ∈ windows base m t 0 t, x.1 ≤ a ∧ a < x.1 + x.2 then 1 else 0 := by
  by_cases ha : ∃ j < m, ∃ i < t, a = base + (j * t + i)
  · obtain ⟨j, hj, i, hi', rfl⟩ := ha
    rw [coverage_windows hj hi' (Nat.le_refl t), if_pos ⟨Nat.zero_le i, hi'⟩, if_pos]
    refine ⟨_, List.mem_map.2 ⟨j, List.mem_range.2 hj, rfl⟩, ?_⟩
    dsimp only
    omega
  · rw [coverage_windows_outside (Nat.le_refl t) fun j hj i hi' heq => ha ⟨j, hj, i, hi', heq⟩,
      if_neg]
    rintro ⟨x, hx, hcov⟩
    obtain ⟨j, hj, rfl⟩ := List.mem_map.1 hx
    dsimp only at hcov
    exact ha ⟨j, List.mem_range.1 hj, a - (base + j * t), by omega, by omega⟩

/-- **Both parts together.**  The fast part on the user's stream and the PCIe call at any
moment do what one call does. -/
theorem split_equal_of_fastPart {call pcieCall : LibCall} (hcall : call.Allowed c)
    (hcallw : call.writer c = wantsAll c kind send recv t 0 t)
    (hlayout : Layout c kind send recv t) (hf : f ≤ t) (hdvd : c.es ∣ f) (hdvd' : c.es ∣ t)
    (hstaging : ∀ r a, staging r a → ¬ Part c kind send recv t 0 t r a)
    (hfast : FastPart c kind send recv t f staging user) (hpcie : pcieCall.Allowed c)
    (hpciew : pcieCall.writer c = wantsAll c kind send recv t f t) :
    SplitEqual c call ⟨user, some pcieCall⟩ staging := by
  have hpciein : (pcieCall.writer c).Within (Part c kind send recv t f t) := by
    rw [hpciew]
    exact wantsAll_within hdvd hdvd'
  have hdisj : ∀ r a, Part c kind send recv t 0 f r a ∨ staging r a →
      ¬ Part c kind send recv t f t r a := by
    rintro r a (hp | hs) htail
    · exact part_disjoint hlayout (Nat.le_refl f) (Nat.le_refl t) hp htail
    · exact hstaging r a hs (part_mono htail (Nat.zero_le f) (Nat.le_refl t))
  refine ⟨fun r hr a => ?_, fun fast pcie hfastlib hpcielib w k hk r hr a ha => ?_⟩
  · show coverage (fastRanges c user r ++ ranges (pcieCall.writer c) r) a = _
    rw [hcallw, hpciew, ranges_wantsAll hr, ranges_wantsAll hr, ← coverage_unsplit,
      ← coverage_split hf, coverage_append, coverage_append, hfast.ranges r hr]
  · show runOps c fast (user.drop k) (pcie pcieCall (runOps c fast (user.take k) w)) r a = _
    rw [runOps_eq (fun s hs => hfast.ok s (List.mem_of_mem_take hs)) hfastlib,
      runOps_eq (fun s hs => hfast.ok s (List.mem_of_mem_drop hs)) hfastlib, hpcielib _ hpcie]
    -- the PCIe call may as well come last
    have hcomm := @Writer.applyAll_comm _ (pcieCall.writer c) _ _ (writers c (user.drop k))
      (fun W hW => by
        obtain ⟨s, hs, rfl⟩ := List.mem_map.1 hW
        exact hfast.within s (List.mem_of_mem_drop hs)) hpciein hdisj
      (Writer.applyAll (writers c (user.take k)) w)
    rw [hcomm, ← Writer.applyAll_append, writers, writers, ← List.map_append,
      List.take_append_drop]
    -- it reads nothing of the staging buffer
    have hcongr : (pcieCall.writer c).apply (Writer.applyAll (writers c user) w) r a =
        (pcieCall.writer c).apply ((wantsAll c kind send recv t 0 f).apply w) r a :=
      hpciein.apply_congr (fun p b hb => hfast.result w p b fun hs => hstaging p b hs
        (part_mono hb (Nat.zero_le f) (Nat.le_refl t))) (hfast.result w r a ha)
    have hlast : (pcieCall.writer c).apply (Writer.applyAll (writers c user) w) r a =
        (wantsAll c kind send recv t 0 t).apply w r a := by
      rw [hcongr, hpciew, wantsAll_wantsAll hlayout hf hdvd hdvd']
    rw [hfastlib call hcall, hcallw]
    exact hlast

/-- The fast library alone. -/
theorem split_equal_fastOnly {call : LibCall}
    (hcallw : call.writer c = wantsAll c kind send recv t 0 t) :
    SplitEqual c call (fastOnly call) staging := by
  refine ⟨fun r hr a => ?_, fun fast pcie _ _ w k _ r _ a _ => rfl⟩
  show coverage (([outputCall call].flatMap fun s => ranges (s.op.writer c) r) ++ []) a = _
  rw [List.append_nil, List.flatMap_singleton]
  show coverage (ranges (call.writer c) r) a = _
  rw [hcallw, ranges_wantsAll hr]
  exact coverage_unsplit _ _

/-! ## The library's own calls -/

/-- There is no fast part. -/
theorem fastPart_nil : FastPart c kind send recv t 0 staging [] where
  ok _ h := absurd h List.not_mem_nil
  within _ h := absurd h List.not_mem_nil
  result w r a _ := by
    unfold wantsAll
    rw [wants_empty]
    rfl
  ranges r _ a := by
    refine (coverage_eq_zero fun x hx hcov => ?_).symm
    obtain ⟨j, _, rfl⟩ := List.mem_map.1 hx
    dsimp only at hcov
    omega

/-- The ranges of the fast part are the first window of every segment. -/
def RangesOk (c : Comm) (kind : Kind) (recv : ℕ → ℕ) (t f : ℕ) (user : List Step) : Prop :=
  ∀ r < c.nranks, ∀ a,
    coverage (fastRanges c user r) a = coverage (windows (recv r) (recvSegs c kind) t 0 f) a

theorem ranges_native {call : LibCall} (hcallw : call.writer c = wantsAll c kind send recv t 0 f) :
    RangesOk c kind recv t f [outputCall call] := by
  intro r hr a
  show coverage ([outputCall call].flatMap fun s => ranges (s.op.writer c) r) a = _
  rw [List.flatMap_singleton]
  show coverage (ranges (call.writer c) r) a = _
  rw [hcallw, ranges_wantsAll hr]

/-- One call that computes the window. -/
theorem fastPart_native {call : LibCall} (hcall : call.Allowed c)
    (hcallw : call.writer c = wantsAll c kind send recv t 0 f) (hdvd : c.es ∣ f) :
    FastPart c kind send recv t f staging [outputCall call] where
  ok s hs := by
    rw [List.mem_singleton.1 hs]
    exact hcall
  within s hs := by
    rw [List.mem_singleton.1 hs]
    show (call.writer c).Within _
    rw [hcallw]
    exact (wantsAll_within (Nat.dvd_zero _) hdvd).mono fun _ _ h => .inl h
  result w r a _ := by
    show (call.writer c).apply w r a = _
    rw [hcallw]
  ranges := ranges_native hcallw

/-! ## Sends and receives -/

/-- The buffers of a rank do not overlap, or its own segment is in place. -/
def SelfInPlace (c : Comm) (kind : Kind) (send recv : ℕ → ℕ) (t : ℕ) : Prop := ∀ r < c.nranks,
  Apart (send r) (sendSegs c kind * t) (recv r) (recvSegs c kind * t) ∨
    send r + sourceSeg r kind * t = recv r + r * t ∧ ∀ r', sourceSeg r' kind = 0

/-- The copy of the own segment leaves the send buffers, also in place. -/
theorem copySelf_keeps {p r i : ℕ} (hkind : reduces kind = false)
    (hself : SelfInPlace c kind send recv t) (hp : p < c.nranks) (hr : r < c.nranks) (hf : f ≤ t)
    (hi' : i < f) (w : Memories UInt8) :
    (wants c kind send recv t 0 f fun r => [r]).apply w p (send p + (sourceSeg r kind * t + i)) =
      w p (send p + (sourceSeg r kind * t + i)) := by
  have hone : ∀ j ∈ [p], j = p := fun j hj => List.mem_singleton.1 hj
  have hrange : recvSegs c kind = c.nranks := recvSegs_of_not_reduces hkind
  rcases hself p hp with hapart | ⟨heq, hzero⟩
  · apply wants_apply_not
    intro j hj x _ hx heq
    rw [hone j hj] at heq
    have := step_le (t := t) (@sourceSeg_lt c kind r hr)
    have := step_le (t := t) hp
    rw [hrange] at hapart
    unfold Apart at hapart
    omega
  · rw [hzero p, Nat.zero_mul, Nat.add_zero] at heq
    rw [hzero r, Nat.zero_mul, Nat.zero_add, heq, Nat.add_assoc,
      wants_apply_mem hp (List.mem_singleton.2 rfl) (Nat.zero_le i) hi' hf]
    unfold want
    rw [hkind, hzero p, if_neg Bool.false_ne_true, Nat.zero_mul, Nat.zero_add, heq, Nat.add_assoc]

/-- A rank copies its own segment and receives the others. -/
theorem p2p_gather_result (hkind : reduces kind = false)
    (hself : SelfInPlace c kind send recv t) (hf : f ≤ t) (w : Memories UInt8) :
    (wants c kind send recv t 0 f fun r => (List.range c.nranks).filter fun j => decide (j ≠ r)).apply
      ((wants c kind send recv t 0 f fun r => [r]).apply w) =
        (wantsAll c kind send recv t 0 f).apply w := by
  have hrange : recvSegs c kind = c.nranks := recvSegs_of_not_reduces hkind
  funext r a
  unfold wantsAll
  by_cases hr : r < c.nranks
  · by_cases ha : ∃ j < c.nranks, ∃ i < f, a = recv r + (j * t + i)
    · obtain ⟨j, hj, i, hi', rfl⟩ := ha
      have hall : j ∈ List.range (recvSegs c kind) := by
        rw [hrange]
        exact List.mem_range.2 hj
      refine Eq.trans ?_ (wants_apply_mem hr hall (Nat.zero_le i) hi' hf w).symm
      by_cases hjr : j = r
      · subst hjr
        rw [wants_apply_not_mem (by simp) (by omega) hf,
          wants_apply_mem hr (List.mem_singleton.2 rfl) (Nat.zero_le i) hi' hf]
      · rw [wants_apply_mem hr (by simp [hj, hjr]) (Nat.zero_le i) hi' hf]
        unfold want
        rw [hkind, if_neg Bool.false_ne_true, if_neg Bool.false_ne_true]
        exact copySelf_keeps hkind hself hj hr hf hi' w
    · rw [wants_apply_not, wants_apply_not, wants_apply_not]
      · intro j hj i _ hi' heq
        rw [hrange] at hj
        exact ha ⟨j, List.mem_range.1 hj, i, hi', heq⟩
      · intro j hj i _ hi' heq
        rw [List.mem_singleton.1 hj] at heq
        exact ha ⟨r, hr, i, hi', heq⟩
      · intro j hj i _ hi' heq
        exact ha ⟨j, List.mem_range.1 (List.mem_filter.1 hj).1, i, hi', heq⟩
  · rw [wants_apply_rank hr, wants_apply_rank hr, wants_apply_rank hr]

/-- The own segment and the others are all segments. -/
theorem self_and_others {n r : ℕ} (hr : r < n) :
    (r :: (List.range n).filter fun j => decide (j ≠ r)).Perm (List.range n) := by
  have h := List.perm_cons_erase (List.mem_range.2 hr)
  rw [List.nodup_range.erase_eq_filter] at h
  have heq : ((List.range n).filter fun j => decide (j ≠ r)) = (List.range n).filter (· != r) :=
    List.filter_congr fun j _ => by by_cases hj : j = r <;> simp [hj]
  rw [heq]
  exact h.symm

theorem ranges_p2p_gather {self : Step} {call : LibCall} (hkind : reduces kind = false)
    (hout : self.output = true)
    (hcopyw : self.op.writer c = wants c kind send recv t 0 f fun r => [r])
    (hcallw : call.writer c =
      wants c kind send recv t 0 f fun r => (List.range c.nranks).filter fun j => decide (j ≠ r)) :
    RangesOk c kind recv t f [self, outputCall call] := by
  intro r hr a
  have hrange : recvSegs c kind = c.nranks := recvSegs_of_not_reduces hkind
  have hfilter : ([self, outputCall call].filter fun s => s.output) = [self, outputCall call] := by
    simp [hout, outputCall]
  unfold fastRanges
  rw [hfilter]
  show coverage (ranges (self.op.writer c) r ++ (ranges (call.writer c) r ++ [])) a = _
  rw [List.append_nil, hcopyw, hcallw, ranges_wants hr, ranges_wants hr, ← List.map_append,
    windows, hrange]
  exact ((self_and_others hr).map _).countP_eq _

theorem fastPart_p2p_gather {self : Step} {call : LibCall} (hkind : reduces kind = false)
    (hself : SelfInPlace c kind send recv t) (hf : f ≤ t) (hdvd : c.es ∣ f)
    (hout : self.output = true) (hcopy : self.op.Ok c)
    (hcopyw : self.op.writer c = wants c kind send recv t 0 f fun r => [r]) (hcall : call.Allowed c)
    (hcallw : call.writer c =
      wants c kind send recv t 0 f fun r => (List.range c.nranks).filter fun j => decide (j ≠ r)) :
    FastPart c kind send recv t f staging [self, outputCall call] where
  ok s hs := by
    rcases List.mem_pair.1 hs with rfl | rfl
    · exact hcopy
    · exact hcall
  within s hs := by
    have hrange : recvSegs c kind = c.nranks := recvSegs_of_not_reduces hkind
    rcases List.mem_pair.1 hs with rfl | rfl
    · rw [hcopyw]
      refine (wants_within (Nat.dvd_zero _) hdvd fun r hr j hj => ?_).mono fun _ _ h => .inl h
      rw [List.mem_singleton.1 hj, hrange]
      exact hr
    · show (call.writer c).Within _
      rw [hcallw]
      refine (wants_within (Nat.dvd_zero _) hdvd fun r _ j hj => ?_).mono fun _ _ h => .inl h
      rw [hrange]
      exact List.mem_range.1 (List.mem_filter.1 hj).1
  result w r a _ := by
    show (call.writer c).apply ((self.op.writer c).apply w) r a = _
    rw [hcallw, hcopyw, p2p_gather_result hkind hself hf]
  ranges := ranges_p2p_gather hkind hout hcopyw hcallw

/-! ## One reduction for each rank -/

theorem flatMap_range_ite {β : Type} {n r : ℕ} (hr : r < n) (l : List β) :
    ((List.range n).flatMap fun root => if r = root then l else []) = l := by
  induction n with
  | zero => exact absurd hr (Nat.not_lt_zero r)
  | succ n ih =>
    rw [List.range_succ, List.flatMap_append, List.flatMap_singleton]
    by_cases hrn : r = n
    · subst hrn
      have hnil : ((List.range r).flatMap fun root => if r = root then l else []) = [] := by
        rw [List.flatMap_eq_nil_iff]
        intro root hroot
        exact if_neg (Nat.ne_of_gt (List.mem_range.1 hroot))
      rw [hnil, if_pos rfl, List.nil_append]
    · rw [ih (by omega), if_neg hrn, List.append_nil]

/-- The writer of the reduction whose root is one of `roots`. -/
def reductionOf (c : Comm) (send recv : ℕ → ℕ) (t f : ℕ) (roots : ℕ → Bool) : Writer UInt8 :=
  wants c .reduceScatter send recv t 0 f fun r => if roots r then [0] else []

/-- The reductions with a root below `m`: a reduction reads the segments of its root alone,
and these the earlier ones have left. -/
theorem p2p_reduce_prefix (hlayout : ∀ r < c.nranks,
      Apart (send r) (c.nranks * t) (recv r) t ∨ recv r = send r + r * t)
    (hf : f ≤ t) (hdvd : c.es ∣ f) (w : Memories UInt8) (m : ℕ) (hm : m ≤ c.nranks) :
    Writer.applyAll ((List.range m).map fun root =>
      reductionOf c send recv t f fun r => decide (r = root)) w =
        (reductionOf c send recv t f fun r => decide (r < m)).apply w := by
  induction m with
  | zero =>
    funext r a
    refine (wants_apply_not (fun j hj => ?_) w).symm
    simp at hj
  | succ m ih =>
    rw [List.range_succ, List.map_append, Writer.applyAll_append, ih (Nat.le_of_succ_le hm)]
    show (reductionOf c send recv t f fun r => decide (r = m)).apply _ = _
    unfold reductionOf
    funext r a
    by_cases hr : r < c.nranks
    · by_cases ha : ∃ i < f, a = recv r + (0 * t + i)
      · obtain ⟨i, hi', rfl⟩ := ha
        by_cases hrm : r = m
        · subst hrm
          rw [wants_apply_mem hr (by simp) (Nat.zero_le i) hi' hf,
            wants_apply_mem hr (by simp) (Nat.zero_le i) hi' hf]
          refine want_congr Nat.one_pos (Nat.dvd_zero _) hdvd (Nat.zero_le i) hi' fun p hp x _ hx => ?_
          apply wants_apply_not
          intro j hj y _ hy heq
          by_cases hpr : p < r
          · have hj0 : j = 0 := by simpa [hpr] using hj
            subst hj0
            rw [Nat.zero_mul, Nat.zero_add] at heq
            have hstep := step_le (t := t) hr
            rcases hlayout p hp with hapart | hin
            · unfold Apart at hapart
              change send p + (r * t + x) = _ at heq
              omega
            · rw [hin, Nat.add_assoc] at heq
              change send p + (r * t + x) = _ at heq
              have := (step_unique (by omega) (by omega) (Nat.add_left_cancel heq)).1
              omega
          · simp [hpr] at hj
        · rw [wants_apply_not_mem (by simp [hrm]) (by omega) hf]
          by_cases hlt : r < m
          · rw [wants_apply_mem hr (by simp [hlt]) (Nat.zero_le i) hi' hf,
              wants_apply_mem hr (by simp; omega) (Nat.zero_le i) hi' hf]
          · rw [wants_apply_not_mem (by simp [hlt]) (by omega) hf,
              wants_apply_not_mem (by simp; omega) (by omega) hf]
      · have hno : ∀ (roots : ℕ → Bool) (w : Memories UInt8),
            (wants c .reduceScatter send recv t 0 f fun r => if roots r then [0] else []).apply w r a =
              w r a := by
          intro roots w
          apply wants_apply_not
          intro j hj i _ hi' heq
          have hj0 : j = 0 := by
            split at hj
            · exact List.mem_singleton.1 hj
            · exact absurd hj List.not_mem_nil
          subst hj0
          exact ha ⟨i, hi', heq⟩
        rw [hno fun r => decide (r = m), hno fun r => decide (r < m), hno fun r => decide (r < m + 1)]
    · rw [wants_apply_rank hr, wants_apply_rank hr, wants_apply_rank hr]

theorem ranges_p2p_reduce {steps : ℕ → LibCall} (hwriter : ∀ root, (steps root).writer c =
      wants c .reduceScatter send recv t 0 f fun r => if r = root then [0] else []) :
    RangesOk c .reduceScatter recv t f
      ((List.range c.nranks).map fun root => outputCall (steps root)) := by
  intro r hr a
  have hfilter : (((List.range c.nranks).map fun root => outputCall (steps root)).filter
      fun s => s.output) = (List.range c.nranks).map fun root => outputCall (steps root) := by
    refine List.filter_eq_self.2 fun s hs => ?_
    obtain ⟨root, _, rfl⟩ := List.mem_map.1 hs
    rfl
  have hranges : (fun root => ranges ((outputCall (steps root)).op.writer c) r) =
      fun root => if r = root then [(recv r + (0 * t + 0), f - 0)] else [] := by
    funext root
    show ranges ((steps root).writer c) r = _
    rw [hwriter, ranges_wants hr]
    split <;> rfl
  unfold fastRanges
  rw [hfilter, List.flatMap_map, hranges, flatMap_range_ite hr]
  rfl

theorem fastPart_p2p_reduce {steps : ℕ → LibCall}
    (hlayout : ∀ r < c.nranks, Apart (send r) (c.nranks * t) (recv r) t ∨ recv r = send r + r * t)
    (hf : f ≤ t) (hdvd : c.es ∣ f) (hsteps : ∀ root < c.nranks, (steps root).Allowed c)
    (hwriter : ∀ root, (steps root).writer c =
      wants c .reduceScatter send recv t 0 f fun r => if r = root then [0] else []) :
    FastPart c .reduceScatter send recv t f staging
      ((List.range c.nranks).map fun root => outputCall (steps root)) := by
  have hwriter' : ∀ root, (steps root).writer c =
      reductionOf c send recv t f fun r => decide (r = root) := by
    intro root
    rw [hwriter]
    unfold reductionOf
    simp only [decide_eq_true_eq]
  refine ⟨fun s hs => ?_, fun s hs => ?_, fun w r a _ => ?_, fun r hr a => ?_⟩
  · obtain ⟨root, hroot, rfl⟩ := List.mem_map.1 hs
    exact hsteps root (List.mem_range.1 hroot)
  · obtain ⟨root, hroot, rfl⟩ := List.mem_map.1 hs
    show ((steps root).writer c).Within _
    rw [hwriter]
    refine (wants_within (Nat.dvd_zero _) hdvd fun r _ j hj => ?_).mono fun _ _ h => .inl h
    split at hj
    · rw [List.mem_singleton.1 hj]
      exact Nat.one_pos
    · exact absurd hj List.not_mem_nil
  · have hlist : writers c ((List.range c.nranks).map fun root => outputCall (steps root)) =
        (List.range c.nranks).map fun root => reductionOf c send recv t f fun r => decide (r = root) := by
      unfold writers
      rw [List.map_map]
      exact List.map_congr_left fun root _ => hwriter' root
    rw [hlist, p2p_reduce_prefix hlayout hf hdvd w _ (Nat.le_refl _)]
    unfold reductionOf wantsAll
    by_cases hr : r < c.nranks
    · unfold Writer.apply wants
      simp [hr, recvSegs]
    · rw [wants_apply_rank hr, wants_apply_rank hr]
  · exact ranges_p2p_reduce hwriter r hr a

/-! ## Through a staging buffer -/

/-- The staging buffer overlaps none of the user's. -/
def StagingApart (c : Comm) (kind : Kind) (send recv tmp : ℕ → ℕ) (t f : ℕ) : Prop :=
  ∀ r < c.nranks, Apart (tmp r) (c.nranks * f) (send r) (sendSegs c kind * t) ∧
    Apart (tmp r) (c.nranks * f) (recv r) (recvSegs c kind * t)

theorem staging_not_part (hapart : StagingApart c kind send recv tmp t f)
    (hs : InStaging c tmp f r a) : ¬ Part c kind send recv t 0 t r a := by
  rintro ⟨_, j, i, _, hi', ⟨hj, rfl⟩ | ⟨hj, rfl⟩⟩
  · have hst := (hapart r hs.1).1
    have hstep := step_le (t := t) hj
    unfold InStaging Apart at *
    omega
  · have hst := (hapart r hs.1).2
    have hstep := step_le (t := t) hj
    unfold InStaging Apart at *
    omega

theorem copy_within {A : ℕ → ℕ → Prop} {dst src : ℕ → ℕ} {len : ℕ}
    (h : ∀ r < c.nranks, ∀ i < len, A r (dst r + i) ∧ A r (src r + i)) :
    ((Op.copy dst src len).writer c).Within A := by
  have hmem : ∀ r, ∀ x ∈ (Op.copy dst src len).writer c r, r < c.nranks ∧ x = copyTo (dst r) r (src r) len := by
    intro r x hx
    unfold Op.writer at hx
    dsimp only at hx
    split at hx
    · exact ⟨‹_›, List.mem_singleton.1 hx⟩
    · exact absurd hx List.not_mem_nil
  refine ⟨fun r x hx i hi' => ?_, fun r x hx i hi' w w' heq => ?_⟩
  · obtain ⟨hr, rfl⟩ := hmem r x hx
    exact (h r hr i hi').1
  · obtain ⟨hr, rfl⟩ := hmem r x hx
    exact heq r _ (h r hr i hi').2

theorem writers_append (l l' : List Step) : writers c (l ++ l') = writers c l ++ writers c l' :=
  List.map_append

/-- The copies of a list of steps. -/
theorem writers_copies (dst src : ℕ → ℕ → ℕ) (len n : ℕ) (out : Bool) :
    writers c ((List.range n).map fun b => ⟨.copy (dst b) (src b) len, out⟩) =
      (List.range n).map fun b => (Op.copy (dst b) (src b) len).writer c := by
  unfold writers
  rw [List.map_map]
  rfl

theorem merge_eq {pcieBytes : ℕ} (hper : (f + pcieBytes) % 2 ^ 64 = t) :
    segmentedMerge c recv tmp f pcieBytes = (List.range c.nranks).map fun r' =>
      ⟨.copy (fun r => recv r + r' * t) (fun r => tmp r + r' * f) f, true⟩ := by
  unfold segmentedMerge
  rw [hper]

theorem ranges_staged_gather {pcieBytes : ℕ} (hper : (fe * c.es + pcieBytes) % 2 ^ 64 = t) :
    RangesOk c .allGather recv t (fe * c.es)
      (⟨.call (.allGather send tmp fe), false⟩ ::
        segmentedMerge c recv tmp (fe * c.es) pcieBytes) := by
  intro r hr a
  rw [merge_eq hper]
  unfold fastRanges
  have hfilter : ((⟨.call (.allGather send tmp fe), false⟩ :: (List.range c.nranks).map fun r' =>
      (⟨.copy (fun r => recv r + r' * t) (fun r => tmp r + r' * (fe * c.es)) (fe * c.es), true⟩ :
        Step)).filter fun s => s.output) = (List.range c.nranks).map fun r' =>
      ⟨.copy (fun r => recv r + r' * t) (fun r => tmp r + r' * (fe * c.es)) (fe * c.es), true⟩ := by
    rw [List.filter_cons_of_neg Bool.false_ne_true]
    refine List.filter_eq_self.2 fun s hs => ?_
    obtain ⟨b, _, rfl⟩ := List.mem_map.1 hs
    rfl
  rw [hfilter, List.flatMap_map]
  have hranges : ∀ b, ranges ((Op.copy (fun r => recv r + b * t)
      (fun r => tmp r + b * (fe * c.es)) (fe * c.es)).writer c) r =
        [(recv r + (b * t + 0), fe * c.es - 0)] := by
    intro b
    unfold ranges Op.writer
    dsimp only
    rw [if_pos hr]
    rfl
  simp only [hranges]
  rw [← List.map_eq_flatMap]
  rfl

/-- The AllGather goes to the staging buffer, and its segments from there to the output. -/
theorem fastPart_staged_gather {pcieBytes : ℕ} (hf : fe * c.es ≤ t)
    (hapart : StagingApart c .allGather send recv tmp t (fe * c.es))
    (hper : (fe * c.es + pcieBytes) % 2 ^ 64 = t) :
    FastPart c .allGather send recv t (fe * c.es) (InStaging c tmp (fe * c.es))
      (⟨.call (.allGather send tmp fe), false⟩ ::
        segmentedMerge c recv tmp (fe * c.es) pcieBytes) := by
  have hmerge := @merge_eq c recv tmp t (fe * c.es) pcieBytes hper
  have hcall : (LibCall.allGather send tmp fe).writer c =
      wantsAll c .allGather send tmp (fe * c.es) 0 (fe * c.es) := allGather_writer
  have hstage : ∀ {r j i : ℕ}, r < c.nranks → j < c.nranks → i < fe * c.es →
      InStaging c tmp (fe * c.es) r (tmp r + (j * (fe * c.es) + i)) := by
    intro r j i hr hj hi'
    have hstep := step_le (t := fe * c.es) hj
    exact ⟨hr, by omega, by omega⟩
  have hcallin : ((LibCall.allGather send tmp fe).writer c).Within fun r a =>
      Part c .allGather send recv t 0 (fe * c.es) r a ∨ InStaging c tmp (fe * c.es) r a := by
    rw [hcall]
    refine (wantsAll_within (Nat.dvd_zero _) (Nat.dvd_mul_left ..)).mono fun r a hp => ?_
    obtain ⟨hr, j, i, hlo, hi', ⟨hj, rfl⟩ | ⟨hj, rfl⟩⟩ := hp
    · have hj0 : j = 0 := Nat.lt_one_iff.1 hj
      subst hj0
      exact .inl ⟨hr, 0, i, hlo, hi', .inl ⟨Nat.one_pos, by rw [Nat.zero_mul, Nat.zero_mul]⟩⟩
    · exact .inr (hstage hr hj hi')
  refine ⟨fun s hs => ?_, fun s hs => ?_, fun w r a ha => ?_, fun r hr a => ?_⟩
  · rcases List.mem_cons.1 hs with rfl | hs
    · intro r hr
      refine .inl ?_
      have hst := (hapart r hr).1
      have hone : sendSegs c .allGather * t = t := Nat.one_mul t
      unfold Apart at *
      rw [Nat.mul_assoc]
      omega
    · rw [hmerge] at hs
      obtain ⟨b, _, rfl⟩ := List.mem_map.1 hs
      trivial
  · rcases List.mem_cons.1 hs with rfl | hs
    · exact hcallin
    · rw [hmerge] at hs
      obtain ⟨b, hb, rfl⟩ := List.mem_map.1 hs
      have hb' := List.mem_range.1 hb
      refine copy_within fun r hr i hi' => ⟨.inl ⟨hr, b, i, Nat.zero_le i, hi', .inr ⟨hb', ?_⟩⟩, .inr ?_⟩
      · exact Nat.add_assoc ..
      · have h := hstage hr hb' hi'
        rwa [← Nat.add_assoc] at h
  · rw [hmerge]
    show Writer.applyAll (writers c ((List.range c.nranks).map fun b => ⟨.copy _ _ _, true⟩))
      (((LibCall.allGather send tmp fe).writer c).apply w) r a = _
    rw [writers_copies, copies_eq_strip (m := c.nranks) hf (Nat.le_refl _)
      (fun r hr => (hapart r hr).2.symm)]
    by_cases hr : r < c.nranks
    · by_cases hin : ∃ j < c.nranks, ∃ i < fe * c.es, a = recv r + (j * t + i)
      · obtain ⟨j, hj, i, hi', rfl⟩ := hin
        rw [strip_apply hr hj hi' hf, hcall,
          @wantsAll_apply c .allGather _ _ _ _ _ _ _ _ hr hj (Nat.zero_le i) hi' (Nat.le_refl _),
          @wantsAll_apply c .allGather _ _ _ _ _ _ _ _ hr hj (Nat.zero_le i) hi' hf]
        show w j (send j + (0 * (fe * c.es) + i)) = w j (send j + (0 * t + i))
        rw [Nat.zero_mul, Nat.zero_mul]
      · rw [strip_apply_not fun _ j hj i hi' heq => hin ⟨j, hj, i, hi', heq⟩, hcall,
          wantsAll_apply_not, wantsAll_apply_not]
        · exact fun j hj i _ hi' heq => hin ⟨j, hj, i, hi', heq⟩
        · rintro j hj i _ hi' rfl
          exact ha (hstage hr hj hi')
    · rw [strip_apply_not fun h => absurd h hr, hcall, wantsAll_apply_rank hr,
        wantsAll_apply_rank hr]
  · exact ranges_staged_gather hper r hr a

theorem pack_eq : pack c send count tmp f = (List.range c.nranks).map fun b =>
    ⟨.copy (fun r => tmp r + b * f) (fun r => send r + b * (count * c.es)) f, false⟩ := by
  unfold pack
  simp only [Nat.mul_assoc]

theorem ranges_staged_reduce (hes : 0 < c.es) :
    RangesOk c .reduceScatter recv (count * c.es) (fe * c.es)
      (pack c send count tmp (fe * c.es) ++ [outputCall (.reduceScatter tmp recv fe)]) := by
  intro r hr a
  have hfilter : ((pack c send count tmp (fe * c.es) ++
      [outputCall (.reduceScatter tmp recv fe)]).filter fun s => s.output) =
        [outputCall (.reduceScatter tmp recv fe)] := by
    have hnil : ((pack c send count tmp (fe * c.es)).filter fun s => s.output) = [] := by
      refine List.filter_eq_nil_iff.2 fun s hs => ?_
      rw [pack_eq] at hs
      obtain ⟨b, _, rfl⟩ := List.mem_map.1 hs
      exact Bool.false_ne_true
    rw [List.filter_append, hnil]
    rfl
  unfold fastRanges
  rw [hfilter, List.flatMap_singleton]
  show coverage (ranges ((LibCall.reduceScatter tmp recv fe).writer c) r) a = _
  rw [reduceScatter_writer hes, ranges_wantsAll hr]
  show coverage [(recv r + (0 * _ + 0), _)] a = coverage [(recv r + (0 * _ + 0), _)] a
  rw [Nat.zero_mul, Nat.zero_mul]

/-- The first bytes of the segments are packed in the staging buffer and reduced from there. -/
theorem fastPart_staged_reduce (hes : 0 < c.es) (hfe : fe ≤ count)
    (hapart : StagingApart c .reduceScatter send recv tmp (count * c.es) (fe * c.es)) :
    FastPart c .reduceScatter send recv (count * c.es) (fe * c.es) (InStaging c tmp (fe * c.es))
      (pack c send count tmp (fe * c.es) ++ [outputCall (.reduceScatter tmp recv fe)]) := by
  have hf : fe * c.es ≤ count * c.es := mul_le_total hfe
  have hcall : (LibCall.reduceScatter tmp recv fe).writer c =
      wantsAll c .reduceScatter tmp recv (fe * c.es) 0 (fe * c.es) := reduceScatter_writer hes
  have hpack := @pack_eq c send tmp count (fe * c.es)
  have hstage : ∀ {r j i : ℕ}, r < c.nranks → j < c.nranks → i < fe * c.es →
      InStaging c tmp (fe * c.es) r (tmp r + (j * (fe * c.es) + i)) := by
    intro r j i hr hj hi'
    have hstep := step_le (t := fe * c.es) hj
    exact ⟨hr, by omega, by omega⟩
  have hcallin : ((LibCall.reduceScatter tmp recv fe).writer c).Within fun r a =>
      Part c .reduceScatter send recv (count * c.es) 0 (fe * c.es) r a ∨
        InStaging c tmp (fe * c.es) r a := by
    rw [hcall]
    refine (wantsAll_within (Nat.dvd_zero _) (Nat.dvd_mul_left ..)).mono fun r a hp => ?_
    obtain ⟨hr, j, i, hlo, hi', ⟨hj, rfl⟩ | ⟨hj, rfl⟩⟩ := hp
    · exact .inr (hstage hr hj hi')
    · have hj0 : j = 0 := Nat.lt_one_iff.1 hj
      subst hj0
      exact .inl ⟨hr, 0, i, hlo, hi', .inr ⟨Nat.one_pos, by rw [Nat.zero_mul, Nat.zero_mul]⟩⟩
  refine ⟨fun s hs => ?_, fun s hs => ?_, fun w r a ha => ?_, fun r hr a => ?_⟩
  · rcases List.mem_append.1 hs with hs | hs
    · rw [hpack] at hs
      obtain ⟨b, _, rfl⟩ := List.mem_map.1 hs
      trivial
    · rw [List.mem_singleton.1 hs]
      intro r hr
      refine .inl ?_
      have hst := (hapart r hr).2
      have hone : recvSegs c .reduceScatter * (count * c.es) = count * c.es := Nat.one_mul _
      unfold Apart at *
      rw [Nat.mul_assoc]
      omega
  · rcases List.mem_append.1 hs with hs | hs
    · rw [hpack] at hs
      obtain ⟨b, hb, rfl⟩ := List.mem_map.1 hs
      have hb' := List.mem_range.1 hb
      refine copy_within fun r hr i hi' => ⟨.inr ?_, .inl ⟨hr, b, i, Nat.zero_le i, hi', .inl ⟨hb', ?_⟩⟩⟩
      · have h := hstage hr hb' hi'
        rwa [← Nat.add_assoc] at h
      · exact Nat.add_assoc ..
    · rw [List.mem_singleton.1 hs]
      exact hcallin
  · have hrun : Writer.applyAll (writers c (pack c send count tmp (fe * c.es) ++
        [outputCall (.reduceScatter tmp recv fe)])) w =
          (wantsAll c .reduceScatter tmp recv (fe * c.es) 0 (fe * c.es)).apply
            ((strip c c.nranks tmp (fe * c.es) send (count * c.es) (fe * c.es)).apply w) := by
      rw [hpack, writers_append, Writer.applyAll_append, writers_copies,
        copies_eq_strip (m := c.nranks) (Nat.le_refl _) hf fun r hr => (hapart r hr).1, ← hcall]
      rfl
    rw [hrun]
    have hstrip : ∀ b, ¬ InStaging c tmp (fe * c.es) r b →
        (strip c c.nranks tmp (fe * c.es) send (count * c.es) (fe * c.es)).apply w r b = w r b := by
      intro b hb
      apply strip_apply_not
      rintro hr j hj i hi' rfl
      exact hb (hstage hr hj hi')
    by_cases hr : r < c.nranks
    · by_cases hin : ∃ i < fe * c.es, a = recv r + i
      · obtain ⟨i, hi', rfl⟩ := hin
        have hleft := fun w => @wantsAll_apply c .reduceScatter tmp recv (fe * c.es) 0 (fe * c.es) r 0 i
          hr Nat.one_pos (Nat.zero_le i) hi' (Nat.le_refl _) w
        have hright := @wantsAll_apply c .reduceScatter send recv (count * c.es) 0 (fe * c.es) r 0 i
          hr Nat.one_pos (Nat.zero_le i) hi' hf w
        simp only [Nat.zero_mul, Nat.zero_add] at hleft hright
        rw [hleft, hright]
        have hred : reduces .reduceScatter = true := rfl
        unfold want
        rw [if_pos hred, if_pos hred]
        congr 1
        funext p k
        have hwindow := element_in_window (Nat.dvd_zero c.es) (Nat.dvd_mul_left ..) (Nat.zero_le i)
          hi' k.isLt
        exact strip_apply p.isLt hr hwindow.2 (Nat.le_refl _) w
      · rw [wantsAll_apply_not, wantsAll_apply_not, hstrip a ha]
        · intro j hj i _ hi' heq
          have hj0 : j = 0 := Nat.lt_one_iff.1 hj
          subst hj0
          exact hin ⟨i, hi', by omega⟩
        · intro j hj i _ hi' heq
          have hj0 : j = 0 := Nat.lt_one_iff.1 hj
          subst hj0
          exact hin ⟨i, hi', by omega⟩
    · rw [wantsAll_apply_rank hr, wantsAll_apply_rank hr, hstrip a ha]
  · exact ranges_staged_reduce hes r hr a

end Split
end Orchestrator
end HyLink
