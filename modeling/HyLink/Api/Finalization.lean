import HyLink.Theory.Machine
import HyLink.Theory.Counting

/-!
# When the process state is finalised

Communicators are created and destroyed by the threads of a process, through AMP-CCL's domain hooks
(`InitPCIeForDomain`, `DestroyPCIeForDomain`) or the NCCL layer (`ncclCommInitRank`,
`ncclCommDestroy`).  Each of the two counts its live communicators, after the creation and after the
destruction; whose decrement finds the last one calls `pcclFinalize`.

* `Process.step` — the accesses to `s_initialized` and to the counts, one by one.
* `Separate` — no creation overlaps the last destruction.
* `finalized_with_last` — then the process state is there as long as a communicator is, and gone
  when the last one is destroyed.
* `finalized_under_communicator` — a communicator that is created, but not counted yet.
-/

namespace HyLink
namespace Api
namespace Finalization

open Theory

inductive Layer where
  /-- `g_pccl_comm_live` -/
  | ampccl
  /-- `s_nccl_comm_count` -/
  | nccl
  deriving DecidableEq, Repr

def Layer.other : Layer → Layer
  | .ampccl => .nccl
  | .nccl => .ampccl

/-- Where a thread stands in a creation or a destruction. -/
inductive Phase where
  | idle
  /-- `pcclCommInitRank` has found `s_initialized` unset. -/
  | toInit (L : Layer)
  /-- The rest of `pcclCommInitRank`, with the process state. -/
  | building (L : Layer)
  /-- `pcclCommInitRank` has returned the communicator. -/
  | built (L : Layer)
  /-- `pcclCommDestroy` has returned. -/
  | destroyed (L : Layer)
  /-- The decrement has found the last communicator. -/
  | finalizing (L : Layer)
  deriving DecidableEq, Repr

/-- A process; `initialized` is `s_initialized`, set and unset with the process state under
`s_init_mutex`. -/
structure Process where
  initialized : Bool
  count : Layer → ℤ
  /-- The communicators that the callers hold. -/
  live : Layer → ℕ
  threads : List Phase

namespace Process

/-- `n` threads, before the first communicator. -/
def init (n : ℕ) : Process := ⟨false, fun _ => 0, fun _ => 0, List.replicate n .idle⟩

def goto (s : Process) (t : ℕ) (p : Phase) : Process := { s with threads := s.threads.set t p }

end Process

inductive Action where
  /-- The look at `s_initialized`. -/
  | create (L : Layer)
  /-- `pcclInitInternal`; `ok` tells whether the process state can be set up. -/
  | init (ok : Bool)
  | build (ok : Bool)
  /-- `fetch_add` -/
  | count
  /-- `pcclCommDestroy` on a communicator. -/
  | destroy (L : Layer)
  /-- `ncclCommDestroy` without a communicator; the domain hook does not get there. -/
  | destroyNull
  /-- `fetch_sub` -/
  | uncount
  /-- `pcclFinalize` -/
  | finalize
  deriving DecidableEq, Repr

/-- One access of a thread. -/
def Process.step (s : Process) : ℕ × Action → Option Process
  | (t, a) =>
    match s.threads[t]?, a with
    | some .idle, .create L => some (s.goto t (if s.initialized then .building L else .toInit L))
    | some (.toInit L), .init ok =>
      if s.initialized then some (s.goto t (.building L))
      else if ok then some { s.goto t (.building L) with initialized := true }
      else some (s.goto t .idle)
    | some (.building L), .build ok => some (s.goto t (if ok then .built L else .idle))
    | some (.built L), .count =>
      some { s.goto t .idle with
        count := Function.update s.count L (s.count L + 1)
        live := Function.update s.live L (s.live L + 1) }
    | some .idle, .destroy L =>
      if s.live L = 0 then none
      else some { s.goto t (.destroyed L) with live := Function.update s.live L (s.live L - 1) }
    | some .idle, .destroyNull => some (s.goto t (.destroyed .nccl))
    | some (.destroyed L), .uncount =>
      some { s.goto t (if s.count L = 1 then .finalizing L else .idle) with
        count := Function.update s.count L (s.count L - 1) }
    | some (.finalizing _), .finalize => some { s.goto t .idle with initialized := false }
    | _, _ => none

def machine : Machine Process (ℕ × Action) := ⟨Process.step⟩

/-! ## What is asked of the threads -/

/-- The thread is in a creation that uses the process state. -/
def Phase.creates : Phase → Bool
  | .building _ | .built _ => true
  | _ => false

def Phase.finalizes : Phase → Bool
  | .finalizing _ => true
  | _ => false

/-- **No creation overlaps the last destruction**: a count goes to zero when the other layer has no
communicator and no creation is between its look at `s_initialized` and its `fetch_add`; and no
creation looks until the `pcclFinalize` that follows is done.  `ncclCommDestroy` is given a
communicator. -/
def Separate (s : Process) : ℕ × Action → Bool
  | (t, a) =>
    match s.threads[t]?, a with
    | _, .create _ | _, .init _ => s.threads.all fun p => !p.finalizes
    | some (.destroyed L), .uncount =>
      s.count L != 1 || s.live L.other == 0 && s.threads.all fun p => !p.creates
    | _, .destroyNull => false
    | _, _ => true

/-- A communicator was created and is not destroyed. -/
def Process.Holds (s : Process) : Prop :=
  (∃ L, 0 < s.live L) ∨ ∃ L, Phase.built L ∈ s.threads

/-- No communicator is left, and no thread is in a call. -/
def Process.AtRest (s : Process) : Prop := (∀ L, s.live L = 0) ∧ ∀ p ∈ s.threads, p = .idle

structure Inv (s : Process) : Prop where
  counted : ∀ L, s.count L = s.live L + s.threads.count (.destroyed L)
  /-- Who has or makes a communicator has the process state. -/
  held : (∃ L, 0 < s.live L) ∨ (∃ p ∈ s.threads, p.creates = true) → s.initialized = true
  /-- While a thread is about to finalise there is nothing to be finalised under. -/
  last : (∃ p ∈ s.threads, p.finalizes = true) →
    (∀ L, s.live L = 0) ∧ ∀ p ∈ s.threads, p.creates = false

variable {s s' : Process} {t n : ℕ} {p q : Phase} {L : Layer} {a : Action}

theorem Inv.init (n : ℕ) : Inv (Process.init n) := by
  have hidle : ∀ p ∈ (Process.init n).threads, p = .idle := fun p hp => List.eq_of_mem_replicate hp
  refine ⟨fun L => ?_, fun h => ?_, fun h => ?_⟩
  · show (0 : ℤ) = 0 + ((List.replicate n Phase.idle).count (.destroyed L) : ℕ)
    rw [List.count_replicate, if_neg (by simp)]
    rfl
  · rcases h with ⟨L, hL⟩ | ⟨p, hp, hcreates⟩
    · cases hL
    · rw [hidle p hp] at hcreates
      cases hcreates
  · obtain ⟨p, hp, hfinalizes⟩ := h
    rw [hidle p hp] at hfinalizes
    cases hfinalizes

/-- What is left to check when a thread goes from `p` to `q`. -/
theorem Inv.move (h : Inv s) (ht : s.threads[t]? = some p)
    (hthreads : s'.threads = s.threads.set t q)
    (hcounted : ∀ L, s'.count L + s.live L + (if p = .destroyed L then 1 else 0 : ℕ) =
      s.count L + s'.live L + (if q = .destroyed L then 1 else 0 : ℕ))
    (hheld : (∃ L, 0 < s'.live L) ∨ (∃ p ∈ s.threads, p.creates = true) ∨ q.creates = true →
      s'.initialized = true)
    (hlast : (∃ p ∈ s.threads, p.finalizes = true) ∨ q.finalizes = true →
      (∀ L, s'.live L = 0) ∧ (∀ p ∈ s.threads, p.creates = false) ∧ q.creates = false) :
    Inv s' := by
  have hmem : ∀ p' ∈ s'.threads, p' ∈ s.threads ∨ p' = q := by
    rw [hthreads]
    exact fun p' hp' => List.mem_or_eq_of_mem_set hp'
  refine ⟨fun L => ?_, fun hsome => hheld ?_, ?_⟩
  · have hcount : (s.threads.set t q).count (.destroyed L) + (if p = .destroyed L then 1 else 0) =
        s.threads.count (.destroyed L) + (if q = .destroyed L then 1 else 0) := count_set_add ht _
    have hbefore := h.counted L
    have hnow := hcounted L
    rw [hthreads]
    omega
  · rcases hsome with hlive | ⟨p', hp', hcreates⟩
    · exact .inl hlive
    · rcases hmem p' hp' with hp' | rfl
      · exact .inr (.inl ⟨p', hp', hcreates⟩)
      · exact .inr (.inr hcreates)
  · rintro ⟨p', hp', hfinalizes⟩
    have hthere : (∃ p ∈ s.threads, p.finalizes = true) ∨ q.finalizes = true := by
      rcases hmem p' hp' with hp' | rfl
      · exact .inl ⟨p', hp', hfinalizes⟩
      · exact .inr hfinalizes
    obtain ⟨hlive, hcreates, hq⟩ := hlast hthere
    refine ⟨hlive, fun p'' hp'' => ?_⟩
    rcases hmem p'' hp'' with hp'' | rfl
    · exact hcreates p'' hp''
    · exact hq

/-- A thread moves, and neither the counts nor the process state change. -/
theorem Inv.goto (h : Inv s) (ht : s.threads[t]? = some p) (hp : ∀ L, p ≠ .destroyed L)
    (hq : ∀ L, q ≠ .destroyed L) (hcreates : q.creates = true → s.initialized = true ∧
      ∀ p ∈ s.threads, p.finalizes = false) (hfinalizes : q.finalizes = false) :
    Inv (s.goto t q) := by
  refine h.move ht rfl (fun L => ?_) ?_ ?_
  · rw [if_neg (hp L), if_neg (hq L)]
    rfl
  · rintro (hlive | hsome | hcreate)
    · exact h.held (.inl hlive)
    · exact h.held (.inr hsome)
    · exact (hcreates hcreate).1
  · rintro (⟨p', hp', hsome⟩ | hsome)
    · obtain ⟨hlive, hnone⟩ := h.last ⟨p', hp', hsome⟩
      refine ⟨hlive, hnone, ?_⟩
      by_contra hcreate
      have hno := (hcreates (by simpa using hcreate)).2 p' hp'
      rw [hno] at hsome
      cases hsome
    · rw [hfinalizes] at hsome
      cases hsome

/-- Who creates keeps everybody from finalising. -/
theorem Inv.not_finalizes (h : Inv s) (hp : p ∈ s.threads) (hcreates : p.creates = true) :
    ∀ p ∈ s.threads, p.finalizes = false := by
  intro p' hp'
  by_contra hfinalizes
  have hno := (h.last ⟨p', hp', by simpa using hfinalizes⟩).2 p hp
  rw [hno] at hcreates
  cases hcreates

theorem Inv.count (h : Inv s) (ht : s.threads[t]? = some (.built L)) :
    Inv { s.goto t .idle with
      count := Function.update s.count L (s.count L + 1)
      live := Function.update s.live L (s.live L + 1) } := by
  have hmem := List.mem_of_getElem? ht
  refine h.move ht rfl (fun K => ?_) (fun _ => h.held (.inr ⟨_, hmem, rfl⟩)) ?_
  · show Function.update s.count L _ K + _ + _ = _ + (Function.update s.live L _ K : ℕ) + _
    rw [if_neg (by simp), if_neg (by simp)]
    by_cases hK : K = L
    · subst hK
      rw [Function.update_self, Function.update_self]
      push_cast
      omega
    · rw [Function.update_of_ne hK, Function.update_of_ne hK]
  · rintro (⟨p, hp, hfinalizes⟩ | hfinalizes)
    · rw [h.not_finalizes hmem rfl p hp] at hfinalizes
      cases hfinalizes
    · cases hfinalizes

theorem Inv.destroy (h : Inv s) (ht : s.threads[t]? = some .idle) (hlive : s.live L ≠ 0) :
    Inv { s.goto t (.destroyed L) with live := Function.update s.live L (s.live L - 1) } := by
  have hinit := h.held (.inl ⟨L, Nat.pos_of_ne_zero hlive⟩)
  refine h.move ht rfl (fun K => ?_) (fun _ => hinit) ?_
  · show s.count K + s.live K + _ =
      s.count K + (Function.update s.live L (s.live L - 1) K : ℕ) + _
    rw [if_neg (by simp)]
    by_cases hK : K = L
    · subst hK
      rw [Function.update_self, if_pos rfl]
      omega
    · rw [Function.update_of_ne hK, if_neg (by simpa using fun h => hK h.symm)]
  · rintro (hsome | hfinalizes)
    · exact absurd ((h.last hsome).1 L) hlive
    · cases hfinalizes

/-- **The last decrement of a layer**, where nothing else is left. -/
theorem Inv.uncount (h : Inv s) (ht : s.threads[t]? = some (.destroyed L))
    (hapart : s.count L = 1 → s.live L.other = 0 ∧ ∀ p ∈ s.threads, p.creates = false) :
    Inv { s.goto t (if s.count L = 1 then .finalizing L else .idle) with
      count := Function.update s.count L (s.count L - 1) } := by
  have hpos : 0 < s.threads.count (.destroyed L) := List.count_pos_iff.2 (List.mem_of_getElem? ht)
  have hcounted := h.counted L
  refine h.move ht rfl (fun K => ?_) ?_ ?_
  · show Function.update s.count L _ K + _ + _ = _
    rw [if_neg (by split <;> simp : ¬ (if s.count L = 1 then Phase.finalizing L else .idle) = _)]
    by_cases hK : K = L
    · subst hK
      rw [Function.update_self, if_pos rfl]
      show _ = s.count K + s.live K + _
      omega
    · rw [Function.update_of_ne hK, if_neg (by simpa using fun h => hK h.symm)]
      rfl
  · rintro (hlive | hsome | hcreate)
    · exact h.held (.inl hlive)
    · exact h.held (.inr hsome)
    · split at hcreate <;> cases hcreate
  · intro hsome
    by_cases hone : s.count L = 1
    · obtain ⟨hother, hcreates⟩ := hapart hone
      rw [if_pos hone]
      refine ⟨fun K => ?_, hcreates, rfl⟩
      show s.live K = 0
      have hown : s.live L = 0 := by omega
      cases K <;> cases L <;> first | exact hown | exact hother
    · rw [if_neg hone] at hsome ⊢
      obtain ⟨hlive, hcreates⟩ := h.last (hsome.resolve_right (by simp [Phase.finalizes]))
      exact ⟨hlive, hcreates, rfl⟩

theorem Inv.finalize (h : Inv s) (ht : s.threads[t]? = some (.finalizing L)) :
    Inv { s.goto t .idle with initialized := false } := by
  obtain ⟨hlive, hcreates⟩ := h.last ⟨_, List.mem_of_getElem? ht, rfl⟩
  refine h.move ht rfl (fun K => ?_) ?_ fun _ => ⟨hlive, hcreates, rfl⟩
  · rw [if_neg (by simp), if_neg (by simp)]
    rfl
  · rintro (⟨K, hK⟩ | ⟨p, hp, hcreate⟩ | hcreate)
    · exact absurd (hlive K) (Nat.ne_of_gt hK)
    · rw [hcreates p hp] at hcreate
      cases hcreate
    · cases hcreate

theorem all_not {l : List Phase} {f : Phase → Bool} (h : (l.all fun p => !f p) = true) :
    ∀ p ∈ l, f p = false := by
  intro p hp
  simpa using List.all_eq_true.1 h p hp

/-- **Every step that keeps apart keeps the invariant.** -/
theorem Inv.step (h : Inv s) (hsep : Separate s (t, a) = true) (hstep : s.step (t, a) = some s') :
    Inv s' := by
  simp only [Process.step] at hstep
  simp only [Separate] at hsep
  split at hstep
  · rename_i L ht
    cases hstep
    refine h.goto ht (by simp) (fun K => by split <;> simp) (fun hcreate => ?_) ?_
    · refine ⟨?_, all_not hsep⟩
      split at hcreate
      · assumption
      · cases hcreate
    · split <;> rfl
  · rename_i L ok ht
    have hnone := all_not hsep
    split at hstep
    · rename_i hinit
      cases hstep
      exact h.goto ht (by simp) (by simp) (fun _ => ⟨hinit, hnone⟩) rfl
    · split at hstep
      · cases hstep
        refine h.move ht rfl (fun K => ?_) (fun _ => rfl) ?_
        · rw [if_neg (by simp), if_neg (by simp)]
          rfl
        · rintro (⟨p, hp, hfinalizes⟩ | hfinalizes)
          · rw [hnone p hp] at hfinalizes
            cases hfinalizes
          · cases hfinalizes
      · cases hstep
        exact h.goto ht (by simp) (by simp) (fun h => by cases h) rfl
  · rename_i L ok ht
    cases hstep
    have hmem := List.mem_of_getElem? ht
    have hinit := h.held (.inr ⟨_, hmem, rfl⟩)
    refine h.goto ht (by simp) (fun K => by split <;> simp)
      (fun _ => ⟨hinit, h.not_finalizes hmem rfl⟩) ?_
    split <;> rfl
  · rename_i L ht
    cases hstep
    exact h.count ht
  · rename_i L ht
    split at hstep
    · cases hstep
    · rename_i hlive
      cases hstep
      exact h.destroy ht hlive
  · rename_i ht
    rw [ht] at hsep
    cases hsep
  · rename_i L ht
    cases hstep
    refine h.uncount ht fun hone => ?_
    rw [ht] at hsep
    simp only [hone, bne_self_eq_false, Bool.false_or, Bool.and_eq_true, beq_iff_eq] at hsep
    exact ⟨hsep.1, all_not hsep.2⟩
  · rename_i L ht
    cases hstep
    exact h.finalize ht
  · cases hstep

theorem Inv.of_run {ls : List (ℕ × Action)}
    (hrun : machine.runFrom Separate (Process.init n) ls = some s) : Inv s :=
  machine.invariant (fun _ _ _ h hsep hstep => h.step hsep hstep) (Inv.init n) hrun

theorem step_finalize (hstep : s.step (t, .finalize) = some s') :
    ∃ L, s.threads[t]? = some (.finalizing L) ∧
      s' = { s.goto t .idle with initialized := false } := by
  simp only [Process.step] at hstep
  split at hstep
  case h_8 L ht _ =>
    cases hstep
    exact ⟨L, ht, rfl⟩
  all_goals contradiction

theorem step_uncount (hstep : s.step (t, .uncount) = some s') :
    ∃ L, s.threads[t]? = some (.destroyed L) ∧
      s' = { s.goto t (if s.count L = 1 then .finalizing L else .idle) with
        count := Function.update s.count L (s.count L - 1) } := by
  simp only [Process.step] at hstep
  split at hstep
  case h_7 L ht _ =>
    cases hstep
    exact ⟨L, ht, rfl⟩
  all_goals contradiction

/-- **A destruction that returns with nothing left has finalised.**  Its decrement has found the
last communicator, or the count says that another is left. -/
theorem Inv.finalized (h : Inv s') (hstep : s.step (t, a) = some s')
    (ha : a = .uncount ∨ a = .finalize) (hrest : s'.AtRest) : s'.initialized = false := by
  rcases ha with rfl | rfl
  · obtain ⟨L, ht, rfl⟩ := step_uncount hstep
    have hlt := (List.getElem?_eq_some_iff.1 ht).1
    have hidle : (if s.count L = 1 then Phase.finalizing L else .idle) = .idle :=
      hrest.2 _ (List.mem_set hlt _)
    have hmore : s.count L ≠ 1 := fun hone => by
      rw [if_pos hone] at hidle
      cases hidle
    have hcounted := h.counted L
    rw [List.count_eq_zero.2 fun hmem => (by cases hrest.2 _ hmem), hrest.1 L] at hcounted
    have hzero : s.count L - 1 = 0 := by simpa using hcounted
    exact absurd (by omega) hmore
  · obtain ⟨L, _, rfl⟩ := step_finalize hstep
    rfl

/-- **The process state lives as long as a communicator does.**  In every run in which no creation
overlaps the last destruction, the process state is there while a communicator is; what is finalised
is not under one; and a destruction that returns when no communicator and no call is left has
finalised. -/
theorem finalized_with_last {ls : List (ℕ × Action)}
    (hrun : machine.runFrom Separate (Process.init n) ls = some s) :
    (s.Holds → s.initialized = true) ∧
    (∀ t s', s.step (t, .finalize) = some s' → ¬ s.Holds) ∧
    ∀ t a s', Separate s (t, a) = true → s.step (t, a) = some s' →
      a = .uncount ∨ a = .finalize → s'.AtRest → s'.initialized = false := by
  have h := Inv.of_run hrun
  refine ⟨?_, fun t s' hstep => ?_, fun t a s' hsep hstep => (h.step hsep hstep).finalized hstep⟩
  · rintro (hlive | ⟨L, hbuilt⟩)
    · exact h.held (.inl hlive)
    · exact h.held (.inr ⟨_, hbuilt, rfl⟩)
  · obtain ⟨L, ht, _⟩ := step_finalize hstep
    obtain ⟨hlive, hcreates⟩ := h.last ⟨_, List.mem_of_getElem? ht, rfl⟩
    rintro (⟨K, hK⟩ | ⟨K, hbuilt⟩)
    · exact absurd (hlive K) (Nat.ne_of_gt hK)
    · cases hcreates _ hbuilt

/-- Two threads create and destroy a communicator each. -/
def twoInTurn : List (ℕ × Action) :=
  [(0, .create .ampccl), (1, .create .ampccl), (0, .init true), (1, .init true), (0, .build true),
    (0, .count), (1, .build true), (0, .destroy .ampccl), (1, .count), (0, .uncount),
    (1, .destroy .ampccl), (1, .uncount), (1, .finalize)]

theorem finalized_with_last_in_turn :
    ((machine.runFrom Separate (Process.init 2) twoInTurn).map fun s =>
      (s.initialized, s.threads)) = some (false, [.idle, .idle]) ∧
      ∀ s, machine.runFrom Separate (Process.init 2) twoInTurn = some s →
        (s.Holds → s.initialized = true) :=
  ⟨by decide, fun _ hs => (finalized_with_last hs).1⟩

/-- A thread destroys the only counted communicator while another has one that is not counted. -/
def lateCount : List (ℕ × Action) :=
  [(0, .create .ampccl), (0, .init true), (0, .build true), (0, .count), (1, .create .ampccl),
    (1, .build true), (0, .destroy .ampccl), (0, .uncount), (0, .finalize)]

/-- **The process state is finalised under a communicator.** -/
theorem finalized_under_communicator :
    ¬ ∀ n ls s, machine.runFrom Machine.anyStep (Process.init n) ls = some s →
      s.Holds → s.initialized = true := by
  intro h
  have hrun : ((machine.runFrom Machine.anyStep (Process.init 2) lateCount).map fun s =>
      (s.initialized, s.threads)) = some (false, [.idle, .built .ampccl]) := by decide
  obtain ⟨s, hs, heq⟩ := Option.map_eq_some_iff.1 hrun
  have hbuilt : s.threads = [.idle, .built .ampccl] := congrArg Prod.snd heq
  have hinit := h 2 lateCount s hs (.inr ⟨.ampccl, by rw [hbuilt]; decide⟩)
  have hnot : s.initialized = false := congrArg Prod.fst heq
  rw [hinit] at hnot
  cases hnot

end Finalization
end Api
end HyLink
