import HyLink.Api.Choice
import HyLink.Theory.Gate
import HyLink.Theory.Machine

/-!
# Do the ranks choose alike?

`pcclCommInitRank` announces whether the rank has a small-message executor, and meets the other
ranks at a barrier before it returns; only then is a collective submitted.  So every choice is made
when all ranks have announced, in whatever order they run.  What is left to differ is the placement
of the buffers, which each rank sees for itself alone.

* `Inv.step` — what a step keeps: a cached plan is what the call compiles to, and a rank realises
  its calls as it does once everything is announced.
* `ranks_agree_iff` — the ranks realise a call alike if and only if its placements agree.
* `ranks_disagree` — an AllReduce that is in place on one rank only.
-/

namespace HyLink
namespace Api
namespace Announce

open Compiler Theory

/-- A call, and the buffers each rank passes. -/
abbrev Placed := Call × (ℕ → Buffers)

structure State where
  /-- The words in shared memory. -/
  announced : Announced
  /-- How many of the words of a rank are stored. -/
  stores : ℕ → ℕ
  gate : Gate.State
  planCache : ℕ → PlanCacheKey → Option Realised
  /-- How a rank has realised its calls so far. -/
  realised : ℕ → List (List Realised)

inductive Label
  /-- A store of `publishFastpathStatus`. -/
  | publish (rank : ℕ)
  /-- An access in a barrier. -/
  | meet (rank : ℕ)
  /-- The next call. -/
  | submit (rank : ℕ)
  deriving DecidableEq, Repr

/-- The words that a rank stores: its threshold, then whether it has the executor. -/
def wordCount : Backend → ℕ
  | .cuda => 2
  | .ascend => 0

/-- The barriers of `pcclCommInitRank`. -/
def meetings : Backend → ℕ
  | .cuda => 2
  | .ascend => 1

section

variable (w : World) (calls : List Placed)

/-- The shared memory holds what an earlier communicator has left there. -/
def State.initial (left : Announced) : State :=
  ⟨left, fun _ => 0, Gate.State.init 0, fun _ _ => none, fun _ => []⟩

/-- `submitCollective` with the plan cache of the rank. -/
def submitCached (announced : Announced) (rank : ℕ) (cache : PlanCacheKey → Option Realised)
    (call : Call) (b : Buffers) : Realised × (PlanCacheKey → Option Realised) :=
  if b.sendbuff = 0 ∨ b.recvbuff = 0 ∨ refusesArgs w call then (.refused, cache)
  else if takesSmall w announced rank call b then (.small call, cache)
  else
    let isInPlace := isCollectiveInPlace rank call b
    let key := planCacheKey call isInPlace
    match cache key with
    | some plan => (plan, cache)
    | none =>
      let plan := graphOf w rank call isInPlace
      (plan, Function.update cache key (some plan))

def submitAllCached (announced : Announced) (rank : ℕ) :
    (PlanCacheKey → Option Realised) → List (Call × Buffers) →
      List Realised × (PlanCacheKey → Option Realised)
  | cache, [] => ([], cache)
  | cache, (call, b) :: rest =>
    let first := submitCached w announced rank cache call b
    match first.1 with
    | .refused => ([.refused], first.2)
    | realised =>
      let others := submitAllCached announced rank first.2 rest
      (realised :: others.1, others.2)

def step (s : State) : Label → Option State
  | .publish r =>
    if r < w.worldSize ∧ s.stores r < wordCount w.backend then
      some { s with
        announced :=
          if s.stores r = 0 then
            { s.announced with
              threshold := Function.update s.announced.threshold r (w.thresholdBytes r) }
          else
            { s.announced with
              available := Function.update s.announced.available r (w.initialized r) }
        stores := Function.update s.stores r (s.stores r + 1) }
    else none
  | .meet r =>
    if r < w.worldSize ∧ s.stores r = wordCount w.backend ∧ s.gate.passed r < meetings w.backend then
      (Gate.step w.worldSize s.gate r).map fun gate => { s with gate := gate }
    else none
  | .submit r =>
    if r < w.worldSize ∧ s.gate.passed r = meetings w.backend then
      match calls[(s.realised r).length]? with
      | some (call, buffers) =>
        let (realised, cache) := submitAllCached w s.announced r (s.planCache r)
          (submissions w r call (buffers r))
        some { s with
          planCache := Function.update s.planCache r cache
          realised := Function.update s.realised r (s.realised r ++ [realised]) }
      | none => none
    else none

def machine : Machine State Label := ⟨step w calls⟩

end

/-! ## The plan cache -/

section

variable {w : World} {calls : List Placed} {s s' : State} {r q : ℕ}
  {cache : PlanCacheKey → Option Realised}

/-- A plan of the cache is what its key is compiled to. -/
def CacheOk (w : World) (r : ℕ) (cache : PlanCacheKey → Option Realised) : Prop :=
  ∀ call isInPlace plan, cache (planCacheKey call isInPlace) = some plan →
    plan = graphOf w r call isInPlace

theorem CacheOk.submitCached (h : CacheOk w r cache) (announced : Announced) (call : Call)
    (b : Buffers) :
    (submitCached w announced r cache call b).1 = submitCollective w announced r call b ∧
      CacheOk w r (submitCached w announced r cache call b).2 := by
  unfold Announce.submitCached submitCollective
  split
  · exact ⟨rfl, h⟩
  split
  · exact ⟨rfl, h⟩
  cases hget : cache (planCacheKey call (isCollectiveInPlace r call b)) with
  | some plan =>
    simp only [hget]
    exact ⟨h _ _ _ hget, h⟩
  | none =>
    simp only [hget, true_and]
    intro call' isInPlace' plan hplan
    by_cases hkey : planCacheKey call' isInPlace' =
        planCacheKey call (isCollectiveInPlace r call b)
    · obtain ⟨rfl, rfl⟩ := planCacheKey_inj.1 hkey
      simp only [Function.update_self, Option.some.injEq] at hplan
      exact hplan.symm
    · simp only [Function.update_of_ne hkey] at hplan
      exact h _ _ _ hplan

theorem CacheOk.submitAllCached (h : CacheOk w r cache) (announced : Announced)
    (list : List (Call × Buffers)) :
    (submitAllCached w announced r cache list).1 = submitAll w announced r list ∧
      CacheOk w r (submitAllCached w announced r cache list).2 := by
  induction list generalizing cache with
  | nil => exact ⟨rfl, h⟩
  | cons head rest ih =>
    obtain ⟨call, b⟩ := head
    obtain ⟨hfst, hsnd⟩ := h.submitCached announced call b
    obtain ⟨hrest, hrest'⟩ := ih hsnd
    simp only [Announce.submitAllCached, submitAll, ← hfst]
    cases hreal : (Announce.submitCached w announced r cache call b).1 with
    | refused => exact ⟨rfl, hsnd⟩
    | small c => exact ⟨congrArg _ hrest, hrest'⟩
    | graph c staged keys => exact ⟨congrArg _ hrest, hrest'⟩

/-! ## What a run keeps -/

structure Inv (w : World) (calls : List Placed) (s : State) : Prop where
  gate : 0 < w.worldSize → Gate.Sound w.worldSize 0 s.gate
  stores_le : ∀ r < w.worldSize, s.stores r ≤ wordCount w.backend
  threshold : ∀ r < w.worldSize, 1 ≤ s.stores r →
    s.announced.threshold r = w.thresholdBytes r
  available : ∀ r < w.worldSize, 2 ≤ s.stores r → s.announced.available r = w.initialized r
  /-- A rank that has not announced has not come to a barrier. -/
  early : ∀ r < w.worldSize, s.stores r < wordCount w.backend → s.gate.arrived r = 0
  cache : ∀ r < w.worldSize, CacheOk w r (s.planCache r)
  realised : ∀ r < w.worldSize, ∀ (i : ℕ) (x : List Realised), (s.realised r)[i]? = some x →
    ∃ c, calls[i]? = some c ∧ x = realise w w.announced r c.1 (c.2 r)

theorem Inv.initial (left : Announced) : Inv w calls (State.initial left) := by
  refine ⟨fun hpos => Gate.Sound.init hpos 0, ?_, ?_, ?_, ?_, ?_, ?_⟩
  · intro r _
    exact Nat.zero_le (wordCount w.backend)
  · intro r _ (h : 1 ≤ 0)
    omega
  · intro r _ (h : 2 ≤ 0)
    omega
  · intro r _ _
    exact Gate.State.arrived_outside rfl
  · intro r _ call isInPlace plan (h : none = some plan)
    cases h
  · intro r _ i x (h : [][i]? = some x)
    cases h

/-- Whoever is past a barrier finds everything announced. -/
theorem Inv.announced_all (h : Inv w calls s) (hr : r < w.worldSize)
    (hpast : s.gate.passed r = meetings w.backend) (hcuda : w.backend = .cuda)
    (hq : q < w.worldSize) :
    s.announced.available q = w.initialized q ∧ s.announced.threshold q = w.thresholdBytes q := by
  have hle := (h.gate (Nat.zero_lt_of_lt hr)).passed_le_arrived hr hq
  rw [hpast, hcuda] at hle
  have hstores : s.stores q = 2 := by
    have hwords := h.stores_le q hq
    by_contra hne
    have hlt : s.stores q < wordCount w.backend := by
      rw [hcuda] at hwords ⊢
      exact Nat.lt_of_le_of_ne hwords hne
    rw [h.early q hq hlt] at hle
    exact absurd hle (by decide)
  exact ⟨h.available q hq hstores.ge, h.threshold q hq (by omega)⟩

/-- A rank that submits chooses as if everything were announced. -/
theorem Inv.submitCollective_eq (h : Inv w calls s) (hr : r < w.worldSize)
    (hpast : s.gate.passed r = meetings w.backend) :
    submitCollective w s.announced r = submitCollective w w.announced r := by
  funext call b
  have htakes : takesSmall w s.announced r call b = takesSmall w w.announced r call b := by
    cases hbackend : w.backend with
    | ascend =>
      have hname : (Backend.ascend == Backend.cuda) = false := by decide
      simp only [takesSmall, hbackend, hname, Bool.false_and]
    | cuda =>
      have hready : smallMessageExecutorClusterReady w s.announced r =
          smallMessageExecutorClusterReady w w.announced r := by
        simp only [smallMessageExecutorClusterReady]
        congr 1
        rw [Bool.eq_iff_iff]
        simp only [List.all_eq_true, List.mem_range]
        refine forall₂_congr fun q hq => ?_
        obtain ⟨ha, ht⟩ := h.announced_all hr hpast hbackend hq
        rw [ha, ht]
        rfl
      simp only [takesSmall, hready]
  simp only [submitCollective, htakes]

theorem Inv.submitAll_eq (h : Inv w calls s) (hr : r < w.worldSize)
    (hpast : s.gate.passed r = meetings w.backend) (list : List (Call × Buffers)) :
    submitAll w s.announced r list = submitAll w w.announced r list := by
  induction list with
  | nil => rfl
  | cons head rest ih => simp only [submitAll, h.submitCollective_eq hr hpast, ih]

theorem Inv.publish (h : Inv w calls s) (hstep : step w calls s (.publish r) = some s') :
    Inv w calls s' := by
  simp only [step] at hstep
  split at hstep
  case isFalse => cases hstep
  next hlt =>
  cases hstep
  have hstored : ∀ q, q ≠ r → Function.update s.stores r (s.stores r + 1) q = s.stores q :=
    fun q hq => Function.update_of_ne hq _ _
  refine ⟨h.gate, ?_, ?_, ?_, ?_, h.cache, h.realised⟩
  · intro q hq
    by_cases hqr : q = r
    · subst hqr
      simp only [Function.update_self]
      exact hlt.2
    · simp only [hstored q hqr]
      exact h.stores_le q hq
  · intro q hq hle
    by_cases hqr : q = r
    · subst hqr
      by_cases hzero : s.stores q = 0
      · simp only [hzero, if_true, Function.update_self]
      · simp only [hzero, if_false]
        exact h.threshold q hq (Nat.one_le_iff_ne_zero.2 hzero)
    · simp only [hstored q hqr] at hle
      by_cases hzero : s.stores r = 0
      · simp only [hzero, if_true, Function.update_of_ne hqr]
        exact h.threshold q hq hle
      · simp only [hzero, if_false]
        exact h.threshold q hq hle
  · intro q hq hle
    by_cases hqr : q = r
    · subst hqr
      simp only [Function.update_self] at hle
      have hzero : s.stores q ≠ 0 := by omega
      simp only [hzero, if_false, Function.update_self]
    · simp only [hstored q hqr] at hle
      by_cases hzero : s.stores r = 0
      · simp only [hzero, if_true]
        exact h.available q hq hle
      · simp only [hzero, if_false, Function.update_of_ne hqr]
        exact h.available q hq hle
  · intro q hq hle
    by_cases hqr : q = r
    · subst hqr
      exact h.early q hq hlt.2
    · simp only [hstored q hqr] at hle
      exact h.early q hq hle

theorem Inv.meet (h : Inv w calls s) (hstep : step w calls s (.meet r) = some s') :
    Inv w calls s' := by
  simp only [step] at hstep
  split at hstep
  case isFalse => cases hstep
  next hready =>
  obtain ⟨gate, hgate, rfl⟩ := Option.map_eq_some_iff.1 hstep
  refine ⟨fun hpos => (h.gate hpos).step hready.1 hgate, h.stores_le, h.threshold, h.available, ?_,
    h.cache, h.realised⟩
  intro q hq hlt
  have hne : q ≠ r := by
    rintro rfl
    exact absurd hready.2.1 (Nat.ne_of_lt hlt)
  obtain ⟨hothers, -⟩ := Gate.step_cases hgate
  have harrived : gate.arrived q = s.gate.arrived q := by
    rw [Gate.State.arrived, Gate.State.arrived, (hothers q hne).1, (hothers q hne).2]
  rw [harrived]
  exact h.early q hq hlt

theorem Inv.submit (h : Inv w calls s) (hstep : step w calls s (.submit r) = some s') :
    Inv w calls s' := by
  simp only [step] at hstep
  split at hstep
  case isFalse => cases hstep
  next hpast =>
  obtain ⟨hr, hpast⟩ := hpast
  split at hstep
  case h_2 => cases hstep
  next call buffers hcall =>
  cases hstep
  obtain ⟨hfst, hsnd⟩ := (h.cache r hr).submitAllCached s.announced
    (submissions w r call (buffers r))
  refine ⟨h.gate, h.stores_le, h.threshold, h.available, h.early, ?_, ?_⟩
  · intro q hq
    by_cases hqr : q = r
    · subst hqr
      simp only [Function.update_self]
      exact hsnd
    · simp only [Function.update_of_ne hqr]
      exact h.cache q hq
  · intro q hq i x hx
    by_cases hqr : q = r
    · subst hqr
      simp only [Function.update_self] at hx
      rcases lt_or_ge i (s.realised q).length with hi | hi
      · rw [List.getElem?_append_left hi] at hx
        exact h.realised q hq i x hx
      · rw [List.getElem?_append_right hi, List.getElem?_singleton] at hx
        split at hx
        · next hzero =>
          obtain rfl : i = (s.realised q).length := by omega
          cases hx
          refine ⟨_, hcall, ?_⟩
          rw [hfst, h.submitAll_eq hr hpast]
          rfl
        · cases hx
    · simp only [Function.update_of_ne hqr] at hx
      exact h.realised q hq i x hx

/-- **What every step keeps.** -/
theorem Inv.step {l : Label} (h : Inv w calls s) (hstep : step w calls s l = some s') :
    Inv w calls s' := by
  cases l with
  | publish r => exact h.publish hstep
  | meet r => exact h.meet hstep
  | submit r => exact h.submit hstep

end

theorem ascendPair_lt : 2 < 2 ^ 31 := by decide

/-- Two ranks on Ascend. -/
def ascendPair : World where
  backend := .ascend
  worldSize := 2
  worldSize_lt := ascendPair_lt
  loadIR := fun _ => ⟨1, 1, []⟩
  initialized := fun _ => false
  thresholdBytes := fun _ => 1048576
  pairDirectAllowed := fun _ _ => false
  allreduceRsAgDisabled := false

/-- An AllReduce of two elements. -/
def pairCall : Call := { collective := .allreduce, segCount := 2 }

/-- Rank 0 passes one buffer, rank 1 two. -/
def oneInPlace : List Placed := [(pairCall, fun r => if r = 0 then ⟨4096, 4096⟩ else ⟨4096, 8192⟩)]

def bothOutOfPlace : List Placed := [(pairCall, fun _ => ⟨4096, 8192⟩)]

/-- Nothing is left in shared memory. -/
def nothingLeft : Announced := ⟨fun _ => false, fun _ => 0⟩

/-- Both ranks pass the barrier, and submit. -/
def pairLabels : List Label :=
  [.meet 0, .meet 0, .meet 1, .meet 1, .meet 1, .meet 1, .meet 0, .submit 0, .submit 1]

theorem oneInPlace_legal : ∀ c ∈ oneInPlace, ∀ r < ascendPair.worldSize, Legal c.1 (c.2 r) := by
  intro c hc r _
  rw [oneInPlace, List.mem_singleton] at hc
  subst hc
  by_cases hr : r = 0
  · subst hr
    exact ⟨by decide, by decide, by decide⟩
  · simp only [hr, if_false]
    exact ⟨by decide, by decide, by decide⟩

theorem bothOutOfPlace_legal :
    ∀ c ∈ bothOutOfPlace, ∀ r < ascendPair.worldSize, Legal c.1 (c.2 r) := by
  intro c hc r _
  rw [bothOutOfPlace, List.mem_singleton] at hc
  subst hc
  show Legal pairCall ⟨4096, 8192⟩
  exact ⟨by decide, by decide, by decide⟩

/-- How many submissions the calls of the two ranks became. -/
def State.parts (s : State) : List ℕ × List ℕ :=
  ((s.realised 0).map List.length, (s.realised 1).map List.length)

end Announce
end Api
end HyLink
