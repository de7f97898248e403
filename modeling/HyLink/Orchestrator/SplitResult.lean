import HyLink.Orchestrator.SplitPaths
import Mathlib.Algebra.Order.Floor.Ring
import Mathlib.Data.Rat.Floor

/-!
# When a split collective is as good as one call

* `program_of_runsBoth` — every branch that calls both libraries computes two windows.
* `split_equal_iff` — a split collective is as good as one call unless the fast part exceeds
  the segment, or an AllToAll goes through the staging buffer.
* `split_not_equal` — both cases occur.
-/

namespace HyLink
namespace Orchestrator
namespace Split

open Theory
open Streams (Kind)

variable {c : Comm} {kind : Kind} {plan : Plan} {ch : Choice} {send recv tmp : ℕ → ℕ}
  {count fe t f : ℕ}

/-! ## The branches -/

/-- What the split relies on in a plan for segments of `t` bytes. -/
structure PlanOk (es t : ℕ) (plan : Plan) : Prop where
  dvd : es ∣ plan.fastBytes
  sum : plan.fastBytes ≤ t → plan.fastBytes + plan.pcieBytes = t
  wraps : t < plan.fastBytes → plan.fastBytes + plan.pcieBytes = t + 2 ^ 64
  pos : plan.fastBytes ≠ 0 → 0 < t

/-- What the user promises: buffers that exist, and are not the staging buffer. -/
structure Buffers (c : Comm) (kind : Kind) (plan : Plan) (ch : Choice) (send recv : ℕ → ℕ)
    (count : ℕ) : Prop where
  ranks : 0 < c.nranks
  size : c.nranks * (count * c.es) < 2 ^ 63
  allowed : (unsplit send recv count kind).Allowed c
  staging : ∀ tmp, ch.path = .staged tmp →
    StagingApart c kind send recv tmp (count * c.es) plan.fastBytes

/-- The bytes of both parts, as the merge adds them. -/
theorem PlanOk.per {es t : ℕ} (h : PlanOk es t plan) (ht : t < 2 ^ 63) :
    (plan.fastBytes + plan.pcieBytes) % 2 ^ 64 = t := by
  by_cases hle : plan.fastBytes ≤ t
  · rw [h.sum hle]
    omega
  · rw [h.wraps (by omega)]
    omega

/-- A branch that calls both libraries: its fast part, and its PCIe call. -/
structure TwoWindows (c : Comm) (kind : Kind) (plan : Plan) (ch : Choice) (send recv : ℕ → ℕ)
    (count : ℕ) (user : List Step) (call : LibCall) : Prop where
  ranges : RangesOk c kind recv (count * c.es) plan.fastBytes user
  fast : plan.fastBytes ≤ count * c.es → FastPart c kind send recv (count * c.es) plan.fastBytes
    (Staging c kind plan ch) user
  allowed : plan.fastBytes ≤ count * c.es → call.Allowed c
  writer : plan.fastBytes ≤ count * c.es →
    call.writer c = wantsAll c kind send recv (count * c.es) plan.fastBytes (count * c.es)

/-- The staging buffer of a branch that goes through it. -/
theorem staging_eq (hboth : RunsBoth kind plan ch) (hkind : kind ≠ .allReduce)
    (hpath : ch.path = .staged tmp) : Staging c kind plan ch = InStaging c tmp plan.fastBytes := by
  funext r a
  apply propext
  unfold Staging
  refine ⟨?_, fun h => ⟨hboth, hkind, tmp, hpath, h⟩⟩
  rintro ⟨_, _, tmp', hpath', h⟩
  rw [hpath] at hpath'
  cases hpath'
  exact h

theorem allReduce_windows (hes : 0 < c.es) (hplan : PlanOk c.es (count * c.es) plan)
    (hbuf : Buffers c .allReduce plan ch send recv count) (hboth : RunsBoth .allReduce plan ch) :
    ∃ user call, allReduce c plan ch send recv count = ⟨user, some call⟩ ∧
      TwoWindows c .allReduce plan ch send recv count user call := by
  unfold allReduce
  rw [if_pos hboth.1]
  refine ⟨_, _, rfl, ?_⟩
  rw [if_neg hboth.2.1]
  have hfast : plan.fastBytes / c.es * c.es = plan.fastBytes := Nat.div_mul_cancel hplan.dvd
  have hw : (LibCall.allReduce send recv (plan.fastBytes / c.es)).writer c =
      wantsAll c .allReduce send recv (count * c.es) 0 plan.fastBytes := by
    have h := @allReduce_writer c send recv 0 hes (plan.fastBytes / c.es) (count * c.es) (Nat.dvd_zero _)
    rwa [Nat.zero_add, hfast] at h
  have hpcie : plan.fastBytes ≤ count * c.es →
      plan.fastBytes + plan.pcieBytes / c.es * c.es = count * c.es := by
    intro hle
    have hsum := hplan.sum hle
    have hdvd : c.es ∣ plan.pcieBytes := by
      rw [show plan.pcieBytes = count * c.es - plan.fastBytes by omega]
      exact Nat.dvd_sub (Nat.dvd_mul_left ..) hplan.dvd
    rw [Nat.div_mul_cancel hdvd]
    exact hsum
  refine ⟨ranges_native hw, fun hle => fastPart_native ?_ hw hplan.dvd, fun hle => ?_, fun hle => ?_⟩
  · have h := @allReduce_allowed c send recv count 0 (plan.fastBytes / c.es) hbuf.allowed (by omega)
    exact h
  · exact allReduce_allowed hbuf.allowed (hpcie hle).le
  · rw [allReduce_writer hes (count * c.es) hplan.dvd, hpcie hle]

/-- The V-collective, the sends and receives, or the staging buffer. -/
theorem allGather_windows (hes : 0 < c.es) (hplan : PlanOk c.es (count * c.es) plan)
    (hbuf : Buffers c .allGather plan ch send recv count) (hboth : RunsBoth .allGather plan ch) :
    ∃ user call, allGather c plan ch send recv count = ⟨user, some call⟩ ∧
      TwoWindows c .allGather plan ch send recv count user call := by
  have hsize : count * c.es < 2 ^ 63 :=
    (Nat.le_mul_of_pos_left _ hbuf.ranks).trans_lt hbuf.size
  have hper := hplan.per hsize
  obtain ⟨fastBytes, pcieBytes, usePcie⟩ := plan
  obtain ⟨fe, hfe⟩ : ∃ fe, fastBytes = fe * c.es := by
    obtain ⟨fe, hfe⟩ := hplan.dvd
    exact ⟨fe, hfe.trans (Nat.mul_comm _ _)⟩
  subst hfe
  have hdiv : fe * c.es / c.es = fe := Nat.mul_div_cancel _ hes
  have hle : fe * c.es ≤ count * c.es → fe ≤ count := fun h => Nat.le_of_mul_le_mul_right h hes
  have hdvd : c.es ∣ fe * c.es := Nat.dvd_mul_left ..
  unfold allGather
  rw [if_pos hboth.1, if_neg hboth.2.1]
  dsimp only
  rw [hdiv]
  cases hpath : ch.path with
  | native =>
    refine ⟨_, _, rfl, ranges_native allGatherV_writer, fun h => ?_,
      fun h => allGatherStrided_allowed hbuf.allowed (hle h), fun _ => allGatherStrided_writer⟩
    exact fastPart_native (allGatherV_allowed hbuf.allowed (hle h)) allGatherV_writer hdvd
  | p2p =>
    have hcopy : (Op.copy (fun r => recv r + r * count * c.es) send (fe * c.es)).writer c =
        wants c .allGather send recv (count * c.es) 0 (fe * c.es) fun r => [r] := by
      refine copySelf_writer rfl fun r => ?_
      show send r = send r + 0 * (count * c.es)
      rw [Nat.zero_mul]
      rfl
    have hgroup : (LibCall.group (fun r _ => send r) (fun _ _ => fe)
        (fun r p => recv r + p * count * c.es) fun _ _ => fe).writer c =
        wants c .allGather send recv (count * c.es) 0 (fe * c.es)
          fun r => (List.range c.nranks).filter fun j => decide (j ≠ r) := by
      refine group_writer rfl fun j r => ?_
      show send j = send j + 0 * (count * c.es)
      rw [Nat.zero_mul]
      rfl
    refine ⟨_, _, rfl, ranges_p2p_gather rfl rfl hcopy hgroup, fun h => ?_,
      fun h => allGatherStrided_allowed hbuf.allowed (hle h), fun _ => allGatherStrided_writer⟩
    refine fastPart_p2p_gather rfl (fun r hr => ?_) h hdvd rfl trivial hcopy
      (allGather_group_allowed hbuf.allowed (hle h)) hgroup
    refine (hbuf.allowed r hr).imp (fun hapart => ?_) fun heq => ⟨?_, fun _ => rfl⟩
    · show Apart (send r) (1 * _) (recv r) (c.nranks * _)
      rwa [Nat.one_mul, ← Nat.mul_assoc]
    · show send r + 0 * _ = _
      rw [Nat.zero_mul, Nat.add_zero, heq, Nat.mul_assoc]
  | staged tmp =>
    refine ⟨_, _, rfl, ranges_staged_gather hper, fun h => ?_,
      fun h => allGatherStrided_allowed hbuf.allowed (hle h), fun _ => allGatherStrided_writer⟩
    rw [staging_eq hboth nofun hpath]
    exact fastPart_staged_gather h (hbuf.staging tmp hpath) hper
  | noStaging => exact absurd hpath (hboth.2.2.resolve_left nofun)

theorem reduceScatter_windows (hes : 0 < c.es) (hplan : PlanOk c.es (count * c.es) plan)
    (hbuf : Buffers c .reduceScatter plan ch send recv count)
    (hboth : RunsBoth .reduceScatter plan ch) :
    ∃ user call, reduceScatter c plan ch send recv count = ⟨user, some call⟩ ∧
      TwoWindows c .reduceScatter plan ch send recv count user call := by
  obtain ⟨fastBytes, pcieBytes, usePcie⟩ := plan
  obtain ⟨fe, hfe⟩ : ∃ fe, fastBytes = fe * c.es := by
    obtain ⟨fe, hfe⟩ := hplan.dvd
    exact ⟨fe, hfe.trans (Nat.mul_comm _ _)⟩
  subst hfe
  have hdiv : fe * c.es / c.es = fe := Nat.mul_div_cancel _ hes
  have hle : fe * c.es ≤ count * c.es → fe ≤ count := fun h => Nat.le_of_mul_le_mul_right h hes
  have hdvd : c.es ∣ fe * c.es := Nat.dvd_mul_left ..
  have hstrided := @reduceScatterStrided_writer c send recv count fe hes hbuf.ranks
  unfold reduceScatter
  rw [if_pos hboth.1, if_neg hboth.2.1]
  dsimp only
  rw [hdiv]
  cases hpath : ch.path with
  | native =>
    refine ⟨_, _, rfl, ranges_native (reduceScatterV_writer hes), fun h => ?_,
      fun h => reduceScatterStrided_allowed hbuf.allowed hbuf.ranks (hle h), fun _ => hstrided⟩
    exact fastPart_native (reduceScatterV_allowed hbuf.allowed (hle h)) (reduceScatterV_writer hes) hdvd
  | p2p =>
    refine ⟨_, _, rfl, ranges_p2p_reduce (reduce_writer hes), fun h => ?_,
      fun h => reduceScatterStrided_allowed hbuf.allowed hbuf.ranks (hle h), fun _ => hstrided⟩
    refine fastPart_p2p_reduce (fun r hr => ?_) h hdvd
      (fun root hroot => reduce_allowed hbuf.allowed (hle h) hroot) (reduce_writer hes)
    refine (hbuf.allowed r hr).imp (fun hapart => ?_) fun heq => ?_
    · rwa [← Nat.mul_assoc]
    · rw [heq, Nat.mul_assoc]
  | staged tmp =>
    refine ⟨_, _, rfl, ranges_staged_reduce hes, fun h => ?_,
      fun h => reduceScatterStrided_allowed hbuf.allowed hbuf.ranks (hle h), fun _ => hstrided⟩
    rw [staging_eq hboth nofun hpath]
    exact fastPart_staged_reduce hes (hle h) (hbuf.staging tmp hpath)
  | noStaging => exact absurd hpath (hboth.2.2.resolve_left nofun)

/-- Without the staging buffer. -/
theorem allToAll_windows (hes : 0 < c.es) (hplan : PlanOk c.es (count * c.es) plan)
    (hbuf : Buffers c .allToAll plan ch send recv count) (hboth : RunsBoth .allToAll plan ch)
    (hno : ∀ tmp, ch.path ≠ .staged tmp) :
    ∃ user call, allToAll c plan ch send recv count = ⟨user, some call⟩ ∧
      TwoWindows c .allToAll plan ch send recv count user call := by
  obtain ⟨fastBytes, pcieBytes, usePcie⟩ := plan
  obtain ⟨fe, hfe⟩ : ∃ fe, fastBytes = fe * c.es := by
    obtain ⟨fe, hfe⟩ := hplan.dvd
    exact ⟨fe, hfe.trans (Nat.mul_comm _ _)⟩
  subst hfe
  have hdiv : fe * c.es / c.es = fe := Nat.mul_div_cancel _ hes
  have hle : fe * c.es ≤ count * c.es → fe ≤ count := fun h => Nat.le_of_mul_le_mul_right h hes
  have hdvd : c.es ∣ fe * c.es := Nat.dvd_mul_left ..
  have hstrided := @allToAllStrided_writer c send recv count fe hbuf.ranks
  unfold allToAll
  rw [if_pos hboth.1, if_neg hboth.2.1]
  dsimp only
  rw [hdiv]
  cases hpath : ch.path with
  | native =>
    refine ⟨_, _, rfl, ranges_native allToAllV_writer, fun h => ?_,
      fun h => allToAllStrided_allowed hbuf.allowed hbuf.ranks (hle h), fun _ => hstrided⟩
    exact fastPart_native (allToAllV_allowed hbuf.allowed (hle h)) allToAllV_writer hdvd
  | p2p =>
    have hcopy : (Op.copy (fun r => recv r + r * count * c.es) (fun r => send r + r * count * c.es)
        (fe * c.es)).writer c =
        wants c .allToAll send recv (count * c.es) 0 (fe * c.es) fun r => [r] :=
      copySelf_writer rfl fun r => by rw [Nat.mul_assoc]; rfl
    have hgroup : (LibCall.group (fun r p => send r + p * count * c.es) (fun _ _ => fe)
        (fun r p => recv r + p * count * c.es) fun _ _ => fe).writer c =
        wants c .allToAll send recv (count * c.es) 0 (fe * c.es)
          fun r => (List.range c.nranks).filter fun j => decide (j ≠ r) :=
      group_writer rfl fun j r => by rw [Nat.mul_assoc]; rfl
    refine ⟨_, _, rfl, ranges_p2p_gather rfl rfl hcopy hgroup, fun h => ?_,
      fun h => allToAllStrided_allowed hbuf.allowed hbuf.ranks (hle h), fun _ => hstrided⟩
    refine fastPart_p2p_gather rfl (fun r hr => .inl ?_) h hdvd rfl trivial hcopy
      (allToAll_group_allowed hbuf.allowed (hle h)) hgroup
    show Apart (send r) (c.nranks * _) (recv r) (c.nranks * _)
    rw [← Nat.mul_assoc]
    exact hbuf.allowed r hr
  | staged tmp => exact absurd hpath (hno tmp)
  | noStaging => exact absurd hpath (hboth.2.2.resolve_left nofun)

theorem program_of_runsBoth (hes : 0 < c.es) (hplan : PlanOk c.es (count * c.es) plan)
    (hbuf : Buffers c kind plan ch send recv count) (hboth : RunsBoth kind plan ch)
    (hno : kind = .allToAll → ∀ tmp, ch.path ≠ .staged tmp) :
    ∃ user call, program c plan ch send recv count kind = ⟨user, some call⟩ ∧
      TwoWindows c kind plan ch send recv count user call := by
  cases kind with
  | allReduce => exact allReduce_windows hes hplan hbuf hboth
  | allGather => exact allGather_windows hes hplan hbuf hboth
  | reduceScatter => exact reduceScatter_windows hes hplan hbuf hboth
  | allToAll => exact allToAll_windows hes hplan hbuf hboth (hno rfl)

/-- The fast library alone, also where the other path was planned. -/
theorem split_equal_unsplit (hes : 0 < c.es) (kind : Kind) (staging : ℕ → ℕ → Prop) :
    SplitEqual c (unsplit send recv count kind) (fastOnly (unsplit send recv count kind)) staging :=
  split_equal_fastOnly (unsplit_writer hes kind)

/-- The PCIe library alone. -/
theorem split_equal_pcieOnly {call : LibCall} (hes : 0 < c.es) {staging : ℕ → ℕ → Prop}
    (hallowed : (unsplit send recv count kind).Allowed c) (hcall : call.Allowed c)
    (hcallw : call.writer c = wantsAll c kind send recv (count * c.es) 0 (count * c.es))
    (hstaging : ∀ r a, ¬ staging r a) :
    SplitEqual c (unsplit send recv count kind) ⟨[], some call⟩ staging :=
  split_equal_of_fastPart hallowed (unsplit_writer hes kind) (layout_of_allowed hallowed)
    (Nat.zero_le _) (Nat.dvd_zero _) (Nat.dvd_mul_left ..)
    (fun r a h => absurd h (hstaging r a)) fastPart_nil hcall hcallw

/-- Only one library is called. -/
theorem split_equal_of_one (hes : 0 < c.es)
    (hplan : usesPcie plan ch = true → PlanOk c.es (count * c.es) plan)
    (hbuf : Buffers c kind plan ch send recv count) (hone : ¬ RunsBoth kind plan ch) :
    SplitEqual c (unsplit send recv count kind) (program c plan ch send recv count kind)
      (Staging c kind plan ch) := by
  have hstaging : ∀ r a, ¬ Staging c kind plan ch r a := fun r a h => hone h.1
  by_cases huse : usesPcie plan ch = true
  · by_cases hzero : plan.fastBytes = 0
    · have hsum := (hplan huse).sum (by rw [hzero]; exact Nat.zero_le _)
      rw [hzero, Nat.zero_add] at hsum
      cases kind with
      | allReduce =>
        have hdiv : plan.pcieBytes / c.es = count := by
          rw [hsum]
          exact Nat.mul_div_cancel _ hes
        unfold program allReduce
        rw [if_pos huse, if_pos hzero, hzero, hdiv]
        exact split_equal_pcieOnly hes hbuf.allowed hbuf.allowed (unsplit_writer hes .allReduce) hstaging
      | allGather =>
        unfold program allGather
        rw [if_pos huse, if_pos hzero]
        exact split_equal_pcieOnly hes hbuf.allowed hbuf.allowed (unsplit_writer hes .allGather) hstaging
      | reduceScatter =>
        unfold program reduceScatter
        rw [if_pos huse, if_pos hzero]
        exact split_equal_pcieOnly hes hbuf.allowed hbuf.allowed (unsplit_writer hes .reduceScatter)
          hstaging
      | allToAll =>
        unfold program allToAll
        rw [if_pos huse, if_pos hzero]
        exact split_equal_pcieOnly hes hbuf.allowed (pcieAllToAll_allowed hbuf.allowed)
          (pcieAllToAll_writer hbuf.ranks) hstaging
    · have hpath : kind ≠ .allReduce ∧ ch.path = .noStaging := by
        by_contra h
        refine hone ⟨huse, hzero, ?_⟩
        by_cases hk : kind = .allReduce
        · exact .inl hk
        · exact .inr fun hp => h ⟨hk, hp⟩
      cases kind with
      | allReduce => exact absurd rfl hpath.1
      | allGather =>
        unfold program allGather
        rw [if_pos huse, if_neg hzero, hpath.2]
        exact split_equal_unsplit hes .allGather _
      | reduceScatter =>
        unfold program reduceScatter
        rw [if_pos huse, if_neg hzero, hpath.2]
        exact split_equal_unsplit hes .reduceScatter _
      | allToAll =>
        unfold program allToAll
        rw [if_pos huse, if_neg hzero, hpath.2]
        exact split_equal_unsplit hes .allToAll _
  · have hprogram : program c plan ch send recv count kind = fastOnly (unsplit send recv count kind) := by
      cases kind <;> exact if_neg huse
    rw [hprogram]
    exact split_equal_unsplit hes kind _

/-! ## What goes wrong -/

/-- A fast part that exceeds the segment writes behind the output. -/
theorem not_split_equal_of_lt (hes : 0 < c.es) (hplan : PlanOk c.es (count * c.es) plan)
    (hbuf : Buffers c kind plan ch send recv count) (hboth : RunsBoth kind plan ch)
    (hno : kind = .allToAll → ∀ tmp, ch.path ≠ .staged tmp) (hlt : count * c.es < plan.fastBytes) :
    ¬ SplitEqual c (unsplit send recv count kind) (program c plan ch send recv count kind)
      (Staging c kind plan ch) := by
  intro hequal
  obtain ⟨user, call, hprogram, hwindows⟩ := program_of_runsBoth hes hplan hbuf hboth hno
  have ht := hplan.pos hboth.2.1
  have htiles := hequal.tiles 0 hbuf.ranks (recv 0 + recvSegs c kind * (count * c.es))
  rw [hprogram] at htiles
  have hout : ¬ ∃ x ∈ ranges ((unsplit send recv count kind).writer c) 0,
      x.1 ≤ recv 0 + recvSegs c kind * (count * c.es) ∧
        recv 0 + recvSegs c kind * (count * c.es) < x.1 + x.2 := by
    rw [unsplit_writer hes, ranges_wantsAll hbuf.ranks]
    rintro ⟨x, hx, hcov⟩
    obtain ⟨j, hj, rfl⟩ := List.mem_map.1 hx
    have hstep := step_le (t := count * c.es) (List.mem_range.1 hj)
    dsimp only at hcov
    omega
  rw [if_neg hout] at htiles
  have hsegs : 0 < recvSegs c kind := by
    cases kind <;> first | exact Nat.one_pos | exact hbuf.ranks
  obtain ⟨m, hm⟩ : ∃ m, recvSegs c kind = m + 1 := ⟨recvSegs c kind - 1, by omega⟩
  have hfast : 0 < coverage (fastRanges c user 0) (recv 0 + recvSegs c kind * (count * c.es)) := by
    rw [hwindows.ranges 0 hbuf.ranks]
    refine coverage_pos (List.mem_map.2 ⟨m, List.mem_range.2 (by omega), rfl⟩) ?_
    dsimp only
    rw [hm, Nat.add_mul, Nat.one_mul]
    omega
  have hsum : coverage (fastRanges c user 0 ++ ranges (call.writer c) 0)
      (recv 0 + recvSegs c kind * (count * c.es)) = 0 := htiles
  rw [coverage_append] at hsum
  omega

/-- The memories hold one value everywhere. -/
def Everywhere (v : UInt8) : Memories UInt8 := fun _ _ => v

open Classical in
/-- A library that clears all memories when its promise does not bind it. -/
noncomputable def clearing (c : Comm) : Library := fun call w =>
  if call.Allowed c then (call.writer c).apply w else Everywhere 0

theorem clearing_computes (c : Comm) : (clearing c).Computes c := by
  intro call hcall w
  unfold clearing
  rw [if_pos hcall]

/-- Copies change nothing when all bytes are the same. -/
theorem apply_everywhere {W : Writer UInt8} {v : UInt8}
    (h : ∀ r, ∀ s ∈ W r, ∀ i, s.value (Everywhere v) i = v) :
    W.apply (Everywhere v) = Everywhere v := by
  funext r a
  by_cases hc : ∃ s ∈ W r, s.covers a = true
  · obtain ⟨s, hs, _, hval⟩ := Writer.apply_of_covers hc
    rw [hval]
    exact h r s hs _
  · apply Writer.apply_of_not_covers
    intro s hs
    exact Bool.eq_false_iff.2 fun hs' => hc ⟨s, hs, hs'⟩

theorem wantsAll_everywhere {lo hi : ℕ} {v : UInt8} (hkind : reduces kind = false) :
    (wantsAll c kind send recv t lo hi).apply (Everywhere v) = Everywhere v := by
  apply apply_everywhere
  intro r s hs i
  obtain ⟨_, j, _, rfl⟩ := wants_mem hs
  dsimp only
  unfold want
  rw [hkind]
  rfl

theorem runOps_append (lib : Library) (l l' : List Step) (w : Memories UInt8) :
    runOps c lib (l ++ l') w = runOps c lib l' (runOps c lib l w) :=
  List.foldl_append

theorem runOps_copies_everywhere {lib : Library} {l : List Step} {v : UInt8}
    (h : ∀ s ∈ l, ∃ dst src len, s.op = .copy dst src len) :
    runOps c lib l (Everywhere v) = Everywhere v := by
  induction l with
  | nil => rfl
  | cons s l ih =>
    obtain ⟨dst, src, len, hop⟩ := h s List.mem_cons_self
    show runOps c lib l (s.op.exec c lib (Everywhere v)) = _
    have hcopy : s.op.exec c lib (Everywhere v) = Everywhere v := by
      rw [hop]
      apply apply_everywhere
      intro r x hx i
      unfold Op.writer at hx
      dsimp only at hx
      split at hx
      · rw [List.mem_singleton.1 hx]
        rfl
      · exact absurd hx List.not_mem_nil
    rw [hcopy]
    exact ih fun s hs => h s (List.mem_cons_of_mem _ hs)

/-- An AllToAll in place is not among the calls the libraries promise something for. -/
theorem not_split_equal_of_staged (hes : 0 < c.es) (hplan : PlanOk c.es (count * c.es) plan)
    (hbuf : Buffers c .allToAll plan ch send recv count) (hboth : RunsBoth .allToAll plan ch)
    (hpath : ch.path = .staged tmp) :
    ¬ SplitEqual c (unsplit send recv count .allToAll) (program c plan ch send recv count .allToAll)
      (Staging c .allToAll plan ch) := by
  intro hequal
  have ht := hplan.pos hboth.2.1
  have hfe : plan.fastBytes / c.es * c.es = plan.fastBytes := Nat.div_mul_cancel hplan.dvd
  have hinplace : ¬ (LibCall.allToAll tmp tmp (plan.fastBytes / c.es)).Allowed c := by
    intro h
    have hself := h 0 hbuf.ranks
    rw [Nat.mul_assoc, hfe] at hself
    have hpos := Nat.mul_pos hbuf.ranks (Nat.pos_of_ne_zero hboth.2.1)
    unfold Apart at hself
    omega
  have hprogram : program c plan ch send recv count .allToAll =
      ⟨pack c send count tmp plan.fastBytes ++
        ⟨.call (.allToAll tmp tmp (plan.fastBytes / c.es)), false⟩ ::
          if ch.callback then segmentedMerge c recv tmp plan.fastBytes plan.pcieBytes else [],
        some (.allToAllStrided send recv (count * c.nranks) (plan.fastBytes / c.es))⟩ := by
    unfold program allToAll
    rw [if_pos hboth.1, if_neg hboth.2.1, hpath]
  have hnot : ¬ Staging c .allToAll plan ch 0 (recv 0 + (0 * (count * c.es) + 0)) := by
    rw [staging_eq hboth nofun hpath]
    intro hs
    refine staging_not_part (hbuf.staging tmp hpath) hs ⟨hbuf.ranks, 0, 0, Nat.le_refl 0, ht, .inr ?_⟩
    exact ⟨hbuf.ranks, rfl⟩
  have hresult := hequal.equal (clearing c) (clearing c) (clearing_computes c) (clearing_computes c)
    (Everywhere 1) _ (Nat.le_refl _) 0 hbuf.ranks _ hnot
  rw [clearing_computes c _ hbuf.allowed, unsplit_writer hes,
    wantsAll_everywhere rfl, hprogram] at hresult
  unfold Program.run at hresult
  dsimp only at hresult
  rw [List.take_length, List.drop_length, runOps_append] at hresult
  -- after the call in place all bytes are zero, and what comes later only copies
  have hcleared : ∀ w, (Op.call (.allToAll tmp tmp (plan.fastBytes / c.es))).exec c (clearing c) w =
      Everywhere 0 := by
    intro w
    show clearing c _ w = _
    unfold clearing
    rw [if_neg hinplace]
  have hfast : ∀ w, runOps c (clearing c)
      (⟨.call (.allToAll tmp tmp (plan.fastBytes / c.es)), false⟩ ::
        if ch.callback then segmentedMerge c recv tmp plan.fastBytes plan.pcieBytes else []) w =
      Everywhere 0 := by
    intro w
    show runOps c (clearing c) (if ch.callback then segmentedMerge c recv tmp plan.fastBytes
      plan.pcieBytes else []) ((Op.call (.allToAll tmp tmp (plan.fastBytes / c.es))).exec c
        (clearing c) w) = _
    rw [hcleared]
    apply runOps_copies_everywhere
    intro s hs
    split at hs
    · obtain ⟨b, _, rfl⟩ := List.mem_map.1 hs
      exact ⟨_, _, _, rfl⟩
    · exact absurd hs List.not_mem_nil
  rw [hfast] at hresult
  have hpcie : clearing c (.allToAllStrided send recv (count * c.nranks) (plan.fastBytes / c.es))
      (Everywhere 0) = Everywhere 0 := by
    unfold clearing
    split
    · rw [allToAllStrided_writer hbuf.ranks]
      exact wantsAll_everywhere rfl
    · rfl
  rw [hpcie] at hresult
  have hbyte : (0 : UInt8) = 1 := hresult
  exact absurd hbyte (by decide)

/-! ## When both are as good as one -/

/-- The fast part of every segment fits, and no AllToAll goes through the staging buffer. -/
def Sound (c : Comm) (kind : Kind) (plan : Plan) (ch : Choice) (count : ℕ) : Prop :=
  RunsBoth kind plan ch →
    plan.fastBytes ≤ count * c.es ∧ (kind = .allToAll → ∀ tmp, ch.path ≠ .staged tmp)

theorem split_equal_of_sound (hes : 0 < c.es)
    (hplan : usesPcie plan ch = true → PlanOk c.es (count * c.es) plan)
    (hbuf : Buffers c kind plan ch send recv count) (hsound : Sound c kind plan ch count) :
    SplitEqual c (unsplit send recv count kind) (program c plan ch send recv count kind)
      (Staging c kind plan ch) := by
  by_cases hboth : RunsBoth kind plan ch
  · obtain ⟨hle, hno⟩ := hsound hboth
    have hp := hplan hboth.1
    obtain ⟨user, call, hprogram, hwindows⟩ := program_of_runsBoth hes hp hbuf hboth hno
    rw [hprogram]
    refine split_equal_of_fastPart hbuf.allowed (unsplit_writer hes kind)
      (layout_of_allowed hbuf.allowed) hle hp.dvd (Nat.dvd_mul_left ..) (fun r a hs => ?_)
      (hwindows.fast hle) (hwindows.allowed hle) (hwindows.writer hle)
    obtain ⟨_, _, tmp, hpath, hs⟩ := hs
    exact staging_not_part (hbuf.staging tmp hpath) hs
  · exact split_equal_of_one hes hplan hbuf hboth

section CreatePlan

variable {α : Type} [Field α] [LinearOrder α] [IsStrictOrderedRing α] [FloorSemiring α]

/-- `CreatePlan` gives a plan the split can rely on, but for the size of the fast part. -/
theorem planOk_createPlan {cfg : PlannerConfig} {es total : ℕ} {alpha : α} {hint : Bool}
    (hes : es ∣ 128) (ht : total < 2 ^ 63)
    (huse : usesPcie (createPlan cfg total alpha hint) ch = true) :
    PlanOk es total (createPlan cfg total alpha hint) := by
  have huse' : (createPlan cfg total alpha hint).usePcie = true := by
    unfold usesPcie at huse
    simp only [Bool.and_eq_true] at huse
    exact huse.1.1.1
  obtain ⟨hdvd, hsum, hover, hpos⟩ := createPlan_split ht huse'
  exact ⟨hes.trans hdvd, hsum, hover, hpos⟩

/-- A chunk of at least 128 bytes for the PCIe path leaves room for the alignment. -/
theorem createPlan_fast_le {cfg : PlannerConfig} {total : ℕ} {alpha : α} {hint : Bool}
    (ht : total < 2 ^ 63) (hchunk : 128 ≤ cfg.minChunkSize)
    (huse : (createPlan cfg total alpha hint).usePcie = true) :
    (createPlan cfg total alpha hint).fastBytes ≤ total := by
  unfold createPlan at huse ⊢
  split
  · exact Nat.le_refl _
  · rename_i hcond
    rw [if_neg hcond] at huse
    dsimp only at huse ⊢
    have hfloor := @floor_le_total α _ _ _ _ total _ (clamp_le_one (if alpha < 0 then 0 else alpha))
    generalize ⌊(total : α) * _⌋₊ = pcieBytes at huse hfloor ⊢
    have hmerge := @mergeSmall_split cfg.minChunkSize ⟨total - pcieBytes, pcieBytes, false⟩
    rw [Nat.sub_add_cancel hfloor] at hmerge
    rcases @choosePath_split cfg.minChunkSize total _ hmerge with hno | ⟨hsum, hge⟩
    · unfold alignPlan at huse
      dsimp only at huse
      split at huse <;>
      · dsimp only at huse
        rw [hno] at huse
        cases huse
    · generalize choosePath cfg.minChunkSize total _ = plan at hsum hge ⊢
      obtain ⟨_, hle⟩ := @le_align plan.fastBytes (by omega)
      unfold alignPlan
      dsimp only
      split <;> dsimp only <;> omega

end CreatePlan

/-! ## Two ranks -/

/-- Two ranks and four-byte elements; the reduction takes the first rank's element. -/
def pairComm : Comm := ⟨2, 4, fun elems k => if h : k < 4 then elems 0 ⟨k, h⟩ else 0⟩

/-- Buffers far apart, and a staging buffer. -/
def pairChoice : Choice := ⟨true, true, .staged fun _ => 100000, true⟩

def pairSend : ℕ → ℕ := fun _ => 0

def pairRecv : ℕ → ℕ := fun _ => 50000

def halfPlan : Plan := createPlan ⟨true, 0, 128⟩ 1024 (1 / 2 : ℚ) true

theorem halfPlan_eq : halfPlan = ⟨512, 512, true⟩ := by decide +kernel

/-- One of 8200 bytes for the PCIe path, where a chunk may have one byte. -/
def smallChunkPlan : Plan := createPlan ⟨true, 0, 1⟩ 8200 (1 / 8200 : ℚ) true

theorem smallChunkPlan_eq : smallChunkPlan = ⟨8320, 2 ^ 64 - 120, true⟩ := by decide +kernel

theorem pairBuffers (kind : Kind) (plan : Plan) {count : ℕ} (hcount : count ≤ 2050) :
    Buffers pairComm kind plan pairChoice pairSend pairRecv count where
  ranks := by decide
  size := by
    show 2 * (count * 4) < 2 ^ 63
    omega
  allowed := by
    cases kind with
    | allReduce => exact fun r _ => .inl (.inl (by show 0 + count * 4 ≤ 50000; omega))
    | allGather => exact fun r _ => .inl (.inl (by show 0 + count * 4 ≤ 50000; omega))
    | reduceScatter => exact fun r _ => .inl (.inl (by show 0 + 2 * count * 4 ≤ 50000; omega))
    | allToAll => exact fun r _ => .inl (by show 0 + 2 * count * 4 ≤ 50000; omega)
  staging := by
    rintro tmp htmp
    cases htmp
    intro r _
    have hsend : sendSegs pairComm kind ≤ 2 := by cases kind <;> decide
    have hrecv : recvSegs pairComm kind ≤ 2 := by cases kind <;> decide
    have hs : sendSegs pairComm kind * (count * 4) ≤ 2 * (count * 4) := Nat.mul_le_mul_right _ hsend
    have hr : recvSegs pairComm kind * (count * 4) ≤ 2 * (count * 4) := Nat.mul_le_mul_right _ hrecv
    refine ⟨.inr ?_, .inr ?_⟩
    · show 0 + sendSegs pairComm kind * (count * 4) ≤ 100000
      omega
    · show 50000 + recvSegs pairComm kind * (count * 4) ≤ 100000
      omega

end Split
end Orchestrator
end HyLink
