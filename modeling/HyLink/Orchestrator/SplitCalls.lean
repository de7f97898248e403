import HyLink.Orchestrator.Windows
import Mathlib.Tactic.Ring

/-!
# The calls of a split collective

* `createPlan_split` — the two parts of a plan that uses the PCIe path.
* `…_writer` — the window each call computes.
* `…_allowed` — the calls have buffers the libraries promise something for, when the user's
  buffers have.
-/

namespace HyLink
namespace Orchestrator

/-! ## The plan -/

theorem dvd_align (bytes : ℕ) : 128 ∣ align bytes := Nat.dvd_mul_left _ _

theorem le_align {bytes : ℕ} (h : bytes < 2 ^ 63) : bytes ≤ align bytes ∧ align bytes ≤ bytes + 127 := by
  unfold align
  omega

/-- The parts of a plan before the alignment. -/
theorem choosePath_split {chunk total : ℕ} {plan : Plan} (h : plan.fastBytes + plan.pcieBytes = total) :
    (choosePath chunk total plan).usePcie = false ∨
      (choosePath chunk total plan).fastBytes + (choosePath chunk total plan).pcieBytes = total ∧
        chunk ≤ (choosePath chunk total plan).pcieBytes := by
  unfold choosePath
  split
  · exact .inl rfl
  · split
    · refine .inr ⟨Nat.zero_add _, ?_⟩
      dsimp only
      omega
    · refine .inr ⟨h, ?_⟩
      dsimp only
      omega

theorem mergeSmall_split {chunk : ℕ} {plan : Plan} :
    (mergeSmall chunk plan).fastBytes + (mergeSmall chunk plan).pcieBytes =
      plan.fastBytes + plan.pcieBytes := by
  unfold mergeSmall
  dsimp only
  split <;> split <;> dsimp only at * <;> omega

/-- Aligned parts of a total add up to it, unless the first one exceeds it. -/
theorem alignPlan_split {total : ℕ} {plan : Plan} (h : plan.fastBytes + plan.pcieBytes = total)
    (ht : total < 2 ^ 63) :
    128 ∣ (alignPlan total plan).fastBytes ∧
      ((alignPlan total plan).fastBytes ≤ total →
        (alignPlan total plan).fastBytes + (alignPlan total plan).pcieBytes = total) ∧
      (total < (alignPlan total plan).fastBytes →
        (alignPlan total plan).fastBytes + (alignPlan total plan).pcieBytes = total + 2 ^ 64) ∧
      ((alignPlan total plan).fastBytes ≠ 0 → 0 < total) := by
  have hpos : align plan.fastBytes ≠ 0 → 0 < total := by
    intro hne
    rcases Nat.eq_zero_or_pos plan.fastBytes with hz | hz
    · rw [hz] at hne
      exact absurd rfl hne
    · omega
  obtain ⟨hf, hf'⟩ := @le_align plan.fastBytes (by omega)
  obtain ⟨hp, hp'⟩ := @le_align plan.pcieBytes (by omega)
  unfold alignPlan
  dsimp only
  split
  · dsimp only
    unfold subWord
    exact ⟨dvd_align _, by omega, by omega, hpos⟩
  · dsimp only
    exact ⟨dvd_align _, by omega, by omega, hpos⟩

theorem clamp_le_one {α : Type} [Field α] [LinearOrder α] (alpha : α) :
    (if 1 < alpha then 1 else alpha) ≤ 1 := by
  split
  · exact le_refl 1
  · exact not_lt.1 ‹_›

section Plan

variable {α : Type} [Field α] [LinearOrder α] [IsStrictOrderedRing α] [FloorSemiring α]

theorem floor_le_total {total : ℕ} {alpha : α} (h1 : alpha ≤ 1) :
    ⌊(total : α) * alpha⌋₊ ≤ total := by
  have hle : (total : α) * alpha ≤ total := mul_le_of_le_one_right (Nat.cast_nonneg total) h1
  exact Nat.floor_le_of_le hle

/-- **The parts of a plan.**  A plan that uses the PCIe path gives the fast part a multiple
of 128 bytes; the rest is the PCIe part, unless the fast part exceeds the total. -/
theorem createPlan_split {cfg : PlannerConfig} {total : ℕ} {alpha : α} {hint : Bool}
    (ht : total < 2 ^ 63) (huse : (createPlan cfg total alpha hint).usePcie = true) :
    128 ∣ (createPlan cfg total alpha hint).fastBytes ∧
      ((createPlan cfg total alpha hint).fastBytes ≤ total →
        (createPlan cfg total alpha hint).fastBytes + (createPlan cfg total alpha hint).pcieBytes =
          total) ∧
      (total < (createPlan cfg total alpha hint).fastBytes →
        (createPlan cfg total alpha hint).fastBytes + (createPlan cfg total alpha hint).pcieBytes =
          total + 2 ^ 64) ∧
      ((createPlan cfg total alpha hint).fastBytes ≠ 0 → 0 < total) := by
  unfold createPlan at huse ⊢
  split
  · rename_i hcond
    rw [if_pos hcond] at huse
    cases huse
  · rename_i hcond
    rw [if_neg hcond] at huse
    dsimp only at huse ⊢
    have hfloor := @floor_le_total α _ _ _ _ total _ 
      (clamp_le_one (if alpha < 0 then 0 else alpha))
    generalize ⌊(total : α) * _⌋₊ = pcieBytes at huse hfloor ⊢
    have hmerge := @mergeSmall_split cfg.minChunkSize ⟨total - pcieBytes, pcieBytes, false⟩
    rw [Nat.sub_add_cancel hfloor] at hmerge
    rcases @choosePath_split cfg.minChunkSize total _ hmerge with hno | ⟨hsum, _⟩
    · unfold alignPlan at huse
      dsimp only at huse
      split at huse <;>
      · dsimp only at huse
        rw [hno] at huse
        cases huse
    · exact alignPlan_split hsum ht

end Plan

namespace Split

open Theory
open Streams (Kind)

variable {c : Comm} {kind : Kind} {send recv : ℕ → ℕ} {count fe lo : ℕ}

/-! ## The windows of the calls -/

theorem allReduce_writer (hes : 0 < c.es) {k : ℕ} (t : ℕ) (hlo : c.es ∣ lo) :
    (LibCall.allReduce (fun r => send r + lo) (fun r => recv r + lo) k).writer c =
      wantsAll c .allReduce send recv t lo (lo + k * c.es) := by
  refine wants_eq_reduce hes rfl hlo (fun _ => rfl) (fun _ p => ?_) (Nat.add_sub_cancel_left ..).symm
  show send p + lo = send p + (0 * t + lo)
  rw [Nat.zero_mul, Nat.zero_add]

theorem allGather_writer :
    (LibCall.allGather send recv count).writer c =
      wantsAll c .allGather send recv (count * c.es) 0 (count * c.es) := by
  refine wants_eq_copies rfl (fun r j => ?_) (fun _ j => ?_) (Nat.sub_zero _).symm
  · rw [Nat.mul_assoc]
    rfl
  · show send j = send j + (0 * (count * c.es) + 0)
    rw [Nat.zero_mul]
    rfl

theorem reduceScatter_writer (hes : 0 < c.es) :
    (LibCall.reduceScatter send recv count).writer c =
      wantsAll c .reduceScatter send recv (count * c.es) 0 (count * c.es) := by
  refine wants_eq_reduce hes rfl (Nat.dvd_zero _) (fun _ => rfl) (fun r p => ?_) (Nat.sub_zero _).symm
  show send p + r * count * c.es = send p + (r * (count * c.es) + 0)
  rw [Nat.mul_assoc]
  rfl

theorem allToAll_writer :
    (LibCall.allToAll send recv count).writer c =
      wantsAll c .allToAll send recv (count * c.es) 0 (count * c.es) := by
  refine wants_eq_copies rfl (fun r j => ?_) (fun r j => ?_) (Nat.sub_zero _).symm
  · rw [Nat.mul_assoc]
    rfl
  · show send j + r * count * c.es = send j + (r * (count * c.es) + 0)
    rw [Nat.mul_assoc]
    rfl

theorem unsplit_writer (hes : 0 < c.es) (kind : Kind) :
    (unsplit send recv count kind).writer c =
      wantsAll c kind send recv (count * c.es) 0 (count * c.es) := by
  cases kind with
  | allReduce =>
    have h := @allReduce_writer c send recv 0 hes count (count * c.es) (Nat.dvd_zero _)
    rwa [Nat.zero_add] at h
  | allGather => exact allGather_writer
  | reduceScatter => exact reduceScatter_writer hes
  | allToAll => exact allToAll_writer

theorem allGatherV_writer :
    (LibCall.allGatherV send fe recv (fun _ => fe) fun j => j * count).writer c =
      wantsAll c .allGather send recv (count * c.es) 0 (fe * c.es) := by
  refine wants_eq_copies rfl (fun r j => ?_) (fun _ j => ?_) (Nat.sub_zero _).symm
  · rw [Nat.mul_assoc]
    rfl
  · show send j = send j + (0 * (count * c.es) + 0)
    rw [Nat.zero_mul]
    rfl

theorem reduceScatterV_writer (hes : 0 < c.es) :
    (LibCall.reduceScatterV send (fun _ => fe) (fun j => j * count) recv fe).writer c =
      wantsAll c .reduceScatter send recv (count * c.es) 0 (fe * c.es) := by
  refine wants_eq_reduce hes rfl (Nat.dvd_zero _) (fun _ => rfl) (fun r p => ?_) (Nat.sub_zero _).symm
  show send p + r * count * c.es = send p + (r * (count * c.es) + 0)
  rw [Nat.mul_assoc]
  rfl

theorem allToAllV_writer :
    (LibCall.allToAllV send (fun _ => fe) (fun j => j * count) recv (fun _ => fe)
      fun j => j * count).writer c =
      wantsAll c .allToAll send recv (count * c.es) 0 (fe * c.es) := by
  refine wants_eq_copies rfl (fun r j => ?_) (fun r j => ?_) (Nat.sub_zero _).symm
  · rw [Nat.mul_assoc]
    rfl
  · show send j + r * count * c.es = send j + (r * (count * c.es) + 0)
    rw [Nat.mul_assoc]
    rfl

theorem stride_address (base j : ℕ) :
    base + (j * count + fe) * c.es = base + (j * (count * c.es) + fe * c.es) := by
  rw [Nat.add_mul, Nat.mul_assoc]

theorem allGatherStrided_writer :
    (LibCall.allGatherStrided send recv count fe).writer c =
      wantsAll c .allGather send recv (count * c.es) (fe * c.es) (count * c.es) := by
  refine wants_eq_copies rfl (fun r j => stride_address _ _) (fun _ j => ?_) (Nat.sub_mul ..)
  show send j + fe * c.es = send j + (0 * (count * c.es) + fe * c.es)
  rw [Nat.zero_mul, Nat.zero_add]

theorem reduceScatterStrided_writer (hes : 0 < c.es) (hn : 0 < c.nranks) :
    (LibCall.reduceScatterStrided send recv (count * c.nranks) fe).writer c =
      wantsAll c .reduceScatter send recv (count * c.es) (fe * c.es) (count * c.es) := by
  have hcount : count * c.nranks / c.nranks = count := Nat.mul_div_cancel _ hn
  refine wants_eq_reduce hes rfl (Nat.dvd_mul_left ..) (fun _ => rfl) (fun r p => ?_) ?_
  · rw [hcount]
    exact stride_address _ _
  · rw [hcount]
    exact Nat.sub_mul ..

theorem allToAllStrided_writer (hn : 0 < c.nranks) :
    (LibCall.allToAllStrided send recv (count * c.nranks) fe).writer c =
      wantsAll c .allToAll send recv (count * c.es) (fe * c.es) (count * c.es) := by
  have hcount : count * c.nranks / c.nranks = count := Nat.mul_div_cancel _ hn
  refine wants_eq_copies rfl (fun r j => ?_) (fun r j => ?_) ?_
  · rw [hcount]
    exact stride_address _ _
  · rw [hcount]
    exact stride_address _ _
  · rw [hcount]
    exact Nat.sub_mul ..

theorem pcieAllToAll_writer (hn : 0 < c.nranks) :
    (LibCall.pcieAllToAll send recv (count * c.nranks)).writer c =
      wantsAll c .allToAll send recv (count * c.es) 0 (count * c.es) := by
  have hcount : count * c.nranks / c.nranks = count := Nat.mul_div_cancel _ hn
  refine wants_eq_copies rfl (fun r j => ?_) (fun r j => ?_) ?_
  · rw [hcount, Nat.mul_assoc]
    rfl
  · rw [hcount, Nat.mul_assoc]
    rfl
  · rw [hcount]
    rfl

/-- The copy of a rank's own segment. -/
theorem copySelf_writer (hkind : reduces kind = false) {src : ℕ → ℕ}
    (hsrc : ∀ r, src r = send r + sourceSeg r kind * (count * c.es)) :
    (Op.copy (fun r => recv r + r * count * c.es) src (fe * c.es)).writer c =
      wants c kind send recv (count * c.es) 0 (fe * c.es) fun r => [r] := by
  rw [← @wants_eq_copies c kind send recv _ 0 (fe * c.es) (fun r => [r])
    (fun r j => recv r + j * count * c.es) (fun r j => send j + sourceSeg r kind * (count * c.es)) _
    hkind (fun r j => by rw [Nat.mul_assoc]; rfl) (fun r j => rfl) (Nat.sub_zero _).symm]
  funext r
  show (if r < c.nranks then [copyTo (recv r + r * count * c.es) r (src r) (fe * c.es)] else []) = _
  rw [hsrc]
  rfl

/-- The sends and receives of the other ranks' segments. -/
theorem group_writer (hkind : reduces kind = false) {src sendcount : ℕ → ℕ → ℕ}
    (hsrc : ∀ j r, src j r = send j + sourceSeg r kind * (count * c.es)) :
    (LibCall.group src sendcount (fun r p => recv r + p * count * c.es) fun _ _ => fe).writer c =
      wants c kind send recv (count * c.es) 0 (fe * c.es)
        fun r => (List.range c.nranks).filter fun j => decide (j ≠ r) := by
  refine wants_eq_copies hkind (fun r j => ?_) (fun r j => hsrc j r) (Nat.sub_zero _).symm
  rw [Nat.mul_assoc]
  rfl

theorem reduce_writer (hes : 0 < c.es) (root : ℕ) :
    (LibCall.reduce (fun p => send p + root * count * c.es)
      (fun p => if p = root then recv p else send p + root * count * c.es) fe root).writer c =
      wants c .reduceScatter send recv (count * c.es) 0 (fe * c.es)
        fun r => if r = root then [0] else [] := by
  have h := congrFun (@wants_eq_reduce c .reduceScatter send recv (count * c.es) 0 (fe * c.es) recv
    (fun r p => send p + r * count * c.es) (fe * c.es) hes rfl (Nat.dvd_zero _) (fun _ => rfl)
    (fun r p => by rw [Nat.mul_assoc]; rfl) (Nat.sub_zero _).symm)
  funext r
  have hr := h r
  unfold wantsAll wants at hr
  unfold wants LibCall.writer LibCall.parts
  dsimp only
  split
  · rename_i hlt
    rw [if_pos hlt, if_pos hlt] at hr
    by_cases hroot : r = root
    · subst hroot
      rw [if_pos rfl, if_pos rfl, if_pos rfl]
      exact hr
    · rw [if_neg hroot, if_neg hroot]
      rfl
  · rfl

/-! ## The buffers of the calls -/

theorem Apart.mono {a la b lb a' la' b' lb' : ℕ} (h : Apart a la b lb) (ha : a ≤ a')
    (hla : a' + la' ≤ a + la) (hb : b ≤ b') (hlb : b' + lb' ≤ b + lb) : Apart a' la' b' lb' := by
  unfold Apart at *
  omega

/-- The buffers of a user whose call is one for which the library promises something. -/
theorem layout_of_allowed (h : (unsplit send recv count kind).Allowed c) :
    Layout c kind send recv (count * c.es) := by
  intro r hr
  cases kind with
  | allReduce =>
    refine (h r hr).imp (fun hapart => ?_) fun heq => ⟨0, .inl ?_⟩
    · show Apart (send r) (1 * _) (recv r) (1 * _)
      rwa [Nat.one_mul]
    · rw [heq, Nat.zero_mul]
      rfl
  | allGather =>
    refine (h r hr).imp (fun hapart => ?_) fun heq => ⟨r, .inl ?_⟩
    · show Apart (send r) (1 * _) (recv r) (c.nranks * _)
      rwa [Nat.one_mul, ← Nat.mul_assoc]
    · rw [heq, Nat.mul_assoc]
  | reduceScatter =>
    refine (h r hr).imp (fun hapart => ?_) fun heq => ⟨r, .inr ?_⟩
    · show Apart (send r) (c.nranks * _) (recv r) (1 * _)
      rwa [Nat.one_mul, ← Nat.mul_assoc]
    · rw [heq, Nat.mul_assoc]
  | allToAll =>
    refine .inl ?_
    show Apart (send r) (c.nranks * _) (recv r) (c.nranks * _)
    rw [← Nat.mul_assoc]
    exact h r hr

theorem allReduce_allowed {k : ℕ} (h : (unsplit send recv count .allReduce).Allowed c)
    (hk : lo + k * c.es ≤ count * c.es) :
    (LibCall.allReduce (fun r => send r + lo) (fun r => recv r + lo) k).Allowed c := by
  intro r hr
  rcases h r hr with hapart | heq
  · refine .inl (hapart.mono (Nat.le_add_right _ _) ?_ (Nat.le_add_right _ _) ?_)
    · show send r + lo + k * c.es ≤ send r + count * c.es
      omega
    · show recv r + lo + k * c.es ≤ recv r + count * c.es
      omega
  · refine .inr ?_
    show send r + lo = recv r + lo
    rw [heq]

theorem mul_le_total {x : ℕ} (hfe : fe ≤ x) : fe * c.es ≤ x * c.es := Nat.mul_le_mul_right _ hfe

/-- A segment ends within its buffer. -/
theorem segment_le {base n j : ℕ} (hj : j < n) (hfe : fe ≤ count) :
    base + j * count * c.es + fe * c.es ≤ base + n * count * c.es := by
  have hstep := step_le (t := count * c.es) hj
  have hle := mul_le_total (c := c) hfe
  rw [Nat.mul_assoc, Nat.mul_assoc]
  omega

/-- Segments of different ranks do not overlap. -/
theorem steps_apart {j k : ℕ} (hfe : fe ≤ count) (hjk : j ≠ k) :
    Apart (j * count) fe (k * count) fe := by
  unfold Apart
  rcases Nat.lt_or_gt_of_ne hjk with hlt | hlt
  · have := step_le (t := count) hlt
    omega
  · have := step_le (t := count) hlt
    omega

theorem allGatherV_allowed (h : (unsplit send recv count .allGather).Allowed c) (hfe : fe ≤ count) :
    (LibCall.allGatherV send fe recv (fun _ => fe) fun j => j * count).Allowed c := by
  have hle := mul_le_total (c := c) hfe
  intro r hr
  refine ⟨rfl, ?_, fun j _ k _ hjk => steps_apart hfe hjk⟩
  exact (h r hr).imp_left fun hapart j hj => hapart.mono (Nat.le_refl _) (Nat.add_le_add_left hle _)
    (Nat.le_add_right _ _) (segment_le hj hfe)

theorem reduceScatterV_allowed (h : (unsplit send recv count .reduceScatter).Allowed c)
    (hfe : fe ≤ count) :
    (LibCall.reduceScatterV send (fun _ => fe) (fun j => j * count) recv fe).Allowed c := by
  have hle := mul_le_total (c := c) hfe
  intro r hr
  refine ⟨rfl, (h r hr).imp_left fun hapart j hj => ?_⟩
  exact hapart.mono (Nat.le_add_right _ _) (segment_le hj hfe) (Nat.le_refl _)
    (Nat.add_le_add_left hle _)

theorem allToAllV_allowed (h : (unsplit send recv count .allToAll).Allowed c) (hfe : fe ≤ count) :
    (LibCall.allToAllV send (fun _ => fe) (fun j => j * count) recv (fun _ => fe)
      fun j => j * count).Allowed c := by
  intro r hr
  refine ⟨fun _ _ => rfl, fun j hj k hk => ?_, fun j _ k _ hjk => steps_apart hfe hjk⟩
  exact (h r hr).mono (Nat.le_add_right _ _) (segment_le hj hfe) (Nat.le_add_right _ _)
    (segment_le hk hfe)

theorem allGatherStrided_allowed (h : (unsplit send recv count .allGather).Allowed c)
    (hfe : fe ≤ count) : (LibCall.allGatherStrided send recv count fe).Allowed c := ⟨hfe, h⟩

theorem reduceScatterStrided_allowed (h : (unsplit send recv count .reduceScatter).Allowed c)
    (hn : 0 < c.nranks) (hfe : fe ≤ count) :
    (LibCall.reduceScatterStrided send recv (count * c.nranks) fe).Allowed c := by
  have hcount : count * c.nranks / c.nranks = count := Nat.mul_div_cancel _ hn
  unfold LibCall.Allowed
  dsimp only
  rw [hcount, Nat.mul_comm count c.nranks]
  exact ⟨hfe, h⟩

theorem allToAllStrided_allowed (h : (unsplit send recv count .allToAll).Allowed c)
    (hn : 0 < c.nranks) (hfe : fe ≤ count) :
    (LibCall.allToAllStrided send recv (count * c.nranks) fe).Allowed c := by
  have hcount : count * c.nranks / c.nranks = count := Nat.mul_div_cancel _ hn
  unfold LibCall.Allowed
  dsimp only
  rw [hcount, Nat.mul_comm count c.nranks]
  exact ⟨hfe, h⟩

theorem pcieAllToAll_allowed (h : (unsplit send recv count .allToAll).Allowed c) :
    (LibCall.pcieAllToAll send recv (count * c.nranks)).Allowed c := by
  unfold LibCall.Allowed
  dsimp only
  rw [Nat.mul_comm count c.nranks]
  exact h

theorem steps_apart_bytes (base : ℕ) {j k : ℕ} (hfe : fe ≤ count) (hjk : j ≠ k) :
    Apart (base + j * count * c.es) (fe * c.es) (base + k * count * c.es) (fe * c.es) := by
  have h := steps_apart (mul_le_total (c := c) hfe) hjk
  rw [Nat.mul_assoc, Nat.mul_assoc]
  unfold Apart at *
  omega

/-- The sends and receives of an AllGather, also in place: the rank's own segment is not
among those it receives. -/
theorem allGather_group_allowed (h : (unsplit send recv count .allGather).Allowed c)
    (hfe : fe ≤ count) :
    (LibCall.group (fun r _ => send r) (fun _ _ => fe) (fun r p => recv r + p * count * c.es)
      fun _ _ => fe).Allowed c := by
  have hle := mul_le_total (c := c) hfe
  intro r hr j hj _
  refine ⟨rfl, fun k hk hkr => ⟨?_, fun hjk => steps_apart_bytes _ hfe hjk⟩⟩
  rcases h r hr with hapart | heq
  · exact hapart.mono (Nat.le_refl _) (Nat.add_le_add_left hle _) (Nat.le_add_right _ _)
      (segment_le hk hfe)
  · show Apart (send r) (fe * c.es) (recv r + k * count * c.es) (fe * c.es)
    rw [heq]
    exact steps_apart_bytes _ hfe (Ne.symm hkr)

theorem allToAll_group_allowed (h : (unsplit send recv count .allToAll).Allowed c)
    (hfe : fe ≤ count) :
    (LibCall.group (fun r p => send r + p * count * c.es) (fun _ _ => fe)
      (fun r p => recv r + p * count * c.es) fun _ _ => fe).Allowed c := by
  intro r hr j hj _
  refine ⟨rfl, fun k hk _ => ⟨?_, fun hjk => steps_apart_bytes _ hfe hjk⟩⟩
  exact (h r hr).mono (Nat.le_add_right _ _) (segment_le hj hfe) (Nat.le_add_right _ _)
    (segment_le hk hfe)

theorem reduce_allowed (h : (unsplit send recv count .reduceScatter).Allowed c) (hfe : fe ≤ count)
    {root : ℕ} (hroot : root < c.nranks) :
    (LibCall.reduce (fun p => send p + root * count * c.es)
      (fun p => if p = root then recv p else send p + root * count * c.es) fe root).Allowed c := by
  have hle := mul_le_total (c := c) hfe
  refine ⟨hroot, ?_⟩
  dsimp only
  rw [if_pos rfl]
  rcases h root hroot with hapart | heq
  · exact .inl (hapart.mono (Nat.le_add_right _ _) (segment_le hroot hfe) (Nat.le_refl _)
      (Nat.add_le_add_left hle _))
  · exact .inr heq.symm

end Split
end Orchestrator
end HyLink
