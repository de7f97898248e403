import HyLink.Api.Submit
import HyLink.Theory.Machine

/-!
# How long a plan lives

A work item holds a pointer to a graph it does not own.  `submitCollective` passes a graph of the
communicator's plan cache, `pcclSubmitIR` a graph in a local variable, which is gone when the call
returns; the executor takes the item up some time later.

* `Sound` — every item that is queued or running points to a graph that exists and is what its
  submission asked to compile.
* `outlives` — a call of `pcclSubmitIR` returns only once its item is finished.
* `plans_sound_iff` — the states of a run are sound if and only if all its calls return so late.
* `plan_destroyed` — `pcclSubmitIR` returns while its item is queued.
-/

namespace HyLink
namespace Api
namespace PlanLifetime

open Ir Compiler Theory

/-- Where a graph is kept. -/
inductive Place
  | cache (key : PlanCacheKey)
  /-- The local variable of a call of `pcclSubmitIR`. -/
  | stack (call : ℕ)
  deriving DecidableEq, Repr

/-- A call of `pcclSubmitIR`. -/
structure IRCall where
  program : IRProgram
  /-- The options, if the caller passes some, and their element type and reduction. -/
  options : Option (CompileOptions × ScalarDataType × ReduceOpKind) := none
  count : UInt64
  buffers : Buffers
  deriving DecidableEq, Repr

/-- What `pcclSubmitIR` compiles. -/
def IRCall.input (c : IRCall) : CompileInput :=
  let (opts, scalarType, reduceOp) := c.options.getD ({ segCount := 0 }, .float32, .sum)
  { program := c.program
    options :=
      { legacyLayout :=
          { opts with
            segCount := if opts.segCount = 0 then c.count.toNat else opts.segCount
            isInPlace := c.buffers.sendbuff == c.buffers.recvbuff
            inPlaceAliasMode := .sameBase }
        stagingPolicy := .conservative }
    scalarType := scalarType
    reduceOp := reduceOp }

/-- A communicator and its executor. -/
structure Config (Graph : Type) where
  backend : Backend
  rank : ℕ
  worldSize : ℕ
  loadIR : Call → IRProgram
  /-- `Compiler::compileGraph` for the rank; `none` where it throws. -/
  compile : CompileInput → Option Graph
  queueDepth : ℕ
  /-- The first works after which `submit` waits for the executor. -/
  coldStartDrain : ℕ := 0

/-- An item of the executor's queue, with what its submission asked to compile. -/
structure WorkItem where
  graph : Place
  workSeq : ℕ
  input : CompileInput

/-- Where the submitting thread stands. -/
inductive Caller
  | idle
  /-- In `submit`, waiting for a place in the queue. -/
  | waiting (graph : Place) (input : CompileInput)
  /-- The work has its number. -/
  | numbered (graph : Place) (input : CompileInput) (workSeq : ℕ)
  /-- The work is queued, and the thread waits for the executor. -/
  | draining (graph : Place)
  /-- About to leave the call. -/
  | returning (graph : Place)
  /-- The communicator is destroyed. -/
  | destroyed

structure State (Graph : Type) where
  planCache : PlanCacheKey → Option Graph
  /-- The local variables of the calls of `pcclSubmitIR`. -/
  stack : ℕ → Option Graph
  /-- The number of calls of `pcclSubmitIR`. -/
  irCalls : ℕ
  queue : List WorkItem
  running : Option WorkItem
  /-- `last_result_` is an error. -/
  failed : Bool
  workSeqCounter : ℕ
  caller : Caller

inductive Label
  | submitCollective (call : Call) (buffers : Buffers)
  | submitIR (call : IRCall)
  /-- There is room in the queue. -/
  | accept
  /-- The executor has failed, or the wait for room times out. -/
  | refuse
  /-- The completion flag is prepared, and the item queued. -/
  | enqueue
  /-- The completion flag cannot be prepared. -/
  | unprepared
  /-- The executor is idle. -/
  | drained
  /-- The wait for the executor times out. -/
  | drainTimeout
  /-- The call returns, and its local variables are gone. -/
  | leave
  /-- The executor takes up an item. -/
  | take
  /-- The executor finishes its item. -/
  | finish (ok : Bool)
  /-- The communicator is destroyed once its executor has ended. -/
  | destroy

section

variable {Graph : Type} (cfg : Config Graph)

def State.initial : State Graph := ⟨fun _ => none, fun _ => none, 0, [], none, false, 0, .idle⟩

/-- The graph a pointer points to. -/
def State.read (s : State Graph) : Place → Option Graph
  | .cache key => s.planCache key
  | .stack call => s.stack call

/-- The works that are not finished. -/
def State.items (s : State Graph) : List WorkItem := s.running.toList ++ s.queue

/-- `busy_`, as the number of active works. -/
def State.active (s : State Graph) : ℕ := s.running.toList.length

/-- What a plan of the cache is compiled from. -/
def Config.input (call : Call) (isInPlace : Bool) : CompileInput :=
  compileInput cfg.backend cfg.loadIR cfg.worldSize call isInPlace

/-- Calls that return before they reach the executor change nothing; they have no label. -/
def step (s : State Graph) : Label → Option (State Graph)
  | .submitCollective call buffers =>
    match s.caller with
    | .idle =>
      let isInPlace := isCollectiveInPlace cfg.rank call buffers
      let key := planCacheKey call isInPlace
      let input := cfg.input call isInPlace
      match s.planCache key with
      | some _ => some { s with caller := .waiting (.cache key) input }
      | none => (cfg.compile input).map fun graph =>
          { s with
            planCache := Function.update s.planCache key (some graph)
            caller := .waiting (.cache key) input }
    | _ => none
  | .submitIR call =>
    match s.caller with
    | .idle => (cfg.compile call.input).map fun graph =>
        { s with
          stack := Function.update s.stack s.irCalls (some graph)
          irCalls := s.irCalls + 1
          caller := .waiting (.stack s.irCalls) call.input }
    | _ => none
  | .accept =>
    match s.caller with
    | .waiting graph input =>
      if s.failed = false ∧ s.active + s.queue.length < cfg.queueDepth then
        some { s with
          workSeqCounter := s.workSeqCounter + 1
          caller := .numbered graph input (s.workSeqCounter + 1) }
      else none
    | _ => none
  | .refuse =>
    match s.caller with
    | .waiting graph _ =>
      if s.failed = false ∧ s.active + s.queue.length < cfg.queueDepth then none
      else some { s with failed := true, caller := .returning graph }
    | _ => none
  | .enqueue =>
    match s.caller with
    | .numbered graph input workSeq =>
      some { s with
        queue := s.queue ++ [⟨graph, workSeq, input⟩]
        caller := if 0 < cfg.coldStartDrain ∧ workSeq ≤ cfg.coldStartDrain then .draining graph
          else .returning graph }
    | _ => none
  | .unprepared =>
    match s.caller with
    | .numbered graph _ _ => some { s with caller := .returning graph }
    | _ => none
  | .drained =>
    match s.caller with
    | .draining graph => if s.items.isEmpty then some { s with caller := .returning graph } else none
    | _ => none
  | .drainTimeout =>
    match s.caller with
    | .draining graph =>
      if s.items.isEmpty then none else some { s with failed := true, caller := .returning graph }
    | _ => none
  | .leave =>
    match s.caller with
    | .returning (.cache _) => some { s with caller := .idle }
    | .returning (.stack call) =>
      some { s with stack := Function.update s.stack call none, caller := .idle }
    | _ => none
  | .take =>
    match s.running, s.queue with
    | none, item :: rest => some { s with running := some item, queue := rest }
    | _, _ => none
  | .finish ok =>
    match s.running with
    | some _ =>
      some { s with running := none, failed := !ok, queue := if ok then s.queue else [] }
    | none => none
  | .destroy =>
    match s.caller with
    | .idle =>
      if s.items.isEmpty then some { s with planCache := fun _ => none, caller := .destroyed }
      else none
    | _ => none

def machine : Machine (State Graph) Label := ⟨step cfg⟩

/-- **Sound states:** what the executor reads of an unfinished item is the graph compiled from its
own program and options. -/
def Sound (s : State Graph) : Prop :=
  ∀ item ∈ s.items, ∃ graph, s.read item.graph = some graph ∧ cfg.compile item.input = some graph

/-- A call of `pcclSubmitIR` returns only once its item is finished. -/
def outlives (s : State Graph) : Label → Bool
  | .leave =>
    match s.caller with
    | .returning (.stack call) => s.items.all fun item => item.graph ≠ .stack call
    | _ => true
  | _ => true

end

/-! ## What holds in a run -/

section

variable {Graph : Type} {cfg : Config Graph} {s s' : State Graph}

/-- A pointer to the graph compiled from the input. -/
def Holds (cfg : Config Graph) (s : State Graph) (graph : Place) (input : CompileInput) : Prop :=
  ∃ g, s.read graph = some g ∧ cfg.compile input = some g

/-- What the thread is about to queue points to its graph. -/
def CallerOk (cfg : Config Graph) (s : State Graph) : Prop :=
  match s.caller with
  | .waiting graph input | .numbered graph input _ => Holds cfg s graph input
  | _ => True

structure Inv (cfg : Config Graph) (s : State Graph) : Prop where
  sound : Sound cfg s
  cached : ∀ call isInPlace g, s.planCache (planCacheKey call isInPlace) = some g →
    cfg.compile (cfg.input call isInPlace) = some g
  stack : ∀ call, s.irCalls ≤ call → s.stack call = none
  caller : CallerOk cfg s

theorem Inv.initial : Inv cfg (State.initial : State Graph) :=
  ⟨fun _ h => absurd h List.not_mem_nil, fun _ _ _ h => (by cases h), fun _ _ => rfl, trivial⟩

/-- A pointer keeps its graph while no variable or entry that has one changes. -/
theorem Holds.mono {graph : Place} {input : CompileInput} (h : Holds cfg s graph input)
    (hread : ∀ g, s.read graph = some g → s'.read graph = some g) : Holds cfg s' graph input := by
  obtain ⟨g, hg, hc⟩ := h
  exact ⟨g, hread g hg, hc⟩

/-- The items point to their graphs where the pointers keep their graphs. -/
theorem Sound.mono (h : Sound cfg s) (hitems : ∀ item ∈ s'.items, item ∈ s.items)
    (hread : ∀ item ∈ s'.items, ∀ g, s.read item.graph = some g → s'.read item.graph = some g) :
    Sound cfg s' :=
  fun item hitem => Holds.mono (h item (hitems item hitem)) (hread item hitem)

/-- An entry is added where there was none. -/
theorem read_cached {key : PlanCacheKey} {g : Graph} {caller : Caller} (hnone : s.planCache key = none)
    (place : Place) (g' : Graph) (h : s.read place = some g') :
    ({ s with
      planCache := Function.update s.planCache key (some g)
      caller := caller } : State Graph).read place = some g' := by
  cases place with
  | stack call => exact h
  | cache k =>
    by_cases hk : k = key
    · subst hk
      exact absurd (hnone.symm.trans h) nofun
    · exact (Function.update_of_ne hk _ _).trans h

/-- A variable is set where there was none. -/
theorem read_stacked {n : ℕ} {g : Graph} {calls : ℕ} {caller : Caller} (hnone : s.stack n = none)
    (place : Place) (g' : Graph) (h : s.read place = some g') :
    ({ s with
      stack := Function.update s.stack n (some g)
      irCalls := calls
      caller := caller } : State Graph).read place = some g' := by
  cases place with
  | cache key => exact h
  | stack call =>
    by_cases hk : call = n
    · subst hk
      exact absurd (hnone.symm.trans h) nofun
    · exact (Function.update_of_ne hk _ _).trans h

/-- A step that moves the thread on, or drops items, keeps the invariant. -/
theorem Inv.of_frame (h : Inv cfg s) (hcache : s'.planCache = s.planCache)
    (hstack : s'.stack = s.stack) (hcalls : s'.irCalls = s.irCalls)
    (hitems : ∀ item ∈ s'.items, item ∈ s.items) (hcaller : CallerOk cfg s') : Inv cfg s' := by
  refine ⟨?_, ?_, ?_, hcaller⟩
  · refine h.sound.mono hitems fun item _ g hg => ?_
    cases hplace : item.graph <;> rw [hplace] at hg
    · exact (congrFun hcache _).trans hg
    · exact (congrFun hstack _).trans hg
  · rw [hcache]
    exact h.cached
  · rw [hstack, hcalls]
    exact h.stack

theorem Inv.submitCollective (h : Inv cfg s) {call : Call} {buffers : Buffers}
    (hstep : step cfg s (.submitCollective call buffers) = some s') : Inv cfg s' := by
  simp only [step] at hstep
  split at hstep
  · split at hstep
    · next g hg =>
      cases hstep
      exact h.of_frame rfl rfl rfl (fun _ hi => hi) ⟨g, hg, h.cached _ _ _ hg⟩
    · next hnone =>
      obtain ⟨g, hg, rfl⟩ := Option.map_eq_some_iff.1 hstep
      refine ⟨h.sound.mono (fun _ hi => hi) fun item _ => read_cached hnone item.graph, ?_, h.stack,
        ⟨g, Function.update_self _ _ _, hg⟩⟩
      intro call' isInPlace' g' hg'
      by_cases hkey : planCacheKey call' isInPlace' =
          planCacheKey call (isCollectiveInPlace cfg.rank call buffers)
      · obtain ⟨rfl, rfl⟩ := planCacheKey_inj.1 hkey
        simp only [Function.update_self] at hg'
        rw [← hg']
        exact hg
      · exact h.cached _ _ _ ((Function.update_of_ne hkey _ _).symm.trans hg')
  · cases hstep

theorem Inv.submitIR (h : Inv cfg s) {call : IRCall}
    (hstep : step cfg s (.submitIR call) = some s') : Inv cfg s' := by
  simp only [step] at hstep
  split at hstep
  · obtain ⟨g, hg, rfl⟩ := Option.map_eq_some_iff.1 hstep
    have hnone : s.stack s.irCalls = none := h.stack _ (Nat.le_refl _)
    refine ⟨h.sound.mono (fun _ hi => hi) fun item _ => read_stacked hnone item.graph, h.cached, ?_,
      ⟨g, Function.update_self _ _ _, hg⟩⟩
    intro n hn
    have hne : n ≠ s.irCalls := by
      rintro rfl
      exact absurd hn (Nat.not_succ_le_self _)
    exact (Function.update_of_ne hne _ _).trans (h.stack n (Nat.le_of_succ_le hn))
  · cases hstep

theorem Inv.enqueue (h : Inv cfg s) (hstep : step cfg s .enqueue = some s') : Inv cfg s' := by
  simp only [step] at hstep
  split at hstep
  · next graph input workSeq hcaller =>
    cases hstep
    have hnew : Holds cfg s graph input := by
      have := h.caller
      rwa [CallerOk, hcaller] at this
    refine ⟨?_, h.cached, h.stack, ?_⟩
    · intro item hitem
      simp only [State.items, List.mem_append, List.mem_singleton] at hitem
      rcases hitem with hitem | hitem | rfl
      · exact h.sound item (List.mem_append_left _ hitem)
      · exact h.sound item (List.mem_append_right _ hitem)
      · exact hnew
    · by_cases hdrain : 0 < cfg.coldStartDrain ∧ workSeq ≤ cfg.coldStartDrain
      · simp only [CallerOk, if_pos hdrain]
      · simp only [CallerOk, if_neg hdrain]
  · cases hstep

/-- The variable of a call goes, and no unfinished item points to it. -/
theorem Inv.leave (h : Inv cfg s) (hout : outlives s .leave = true)
    (hstep : step cfg s .leave = some s') : Inv cfg s' := by
  simp only [step] at hstep
  split at hstep
  · cases hstep
    exact h.of_frame rfl rfl rfl (fun _ hi => hi) trivial
  · next call hcaller =>
    cases hstep
    simp only [outlives, hcaller, List.all_eq_true, decide_eq_true_eq] at hout
    refine ⟨?_, h.cached, ?_, trivial⟩
    · refine h.sound.mono (fun _ hi => hi) fun item hitem g hg => ?_
      cases hplace : item.graph with
      | cache key =>
        rw [hplace] at hg
        exact hg
      | stack n =>
        rw [hplace] at hg
        have hne : n ≠ call := by
          rintro rfl
          exact hout item hitem hplace
        exact (Function.update_of_ne hne _ _).trans hg
    · intro n hn
      by_cases hne : n = call
      · rw [hne]
        exact Function.update_self _ _ _
      · exact (Function.update_of_ne hne _ _).trans (h.stack n hn)
  · cases hstep

theorem items_of_take {item : WorkItem} {rest : List WorkItem} (hrun : s.running = none)
    (hqueue : s.queue = item :: rest) :
    ({ s with running := some item, queue := rest } : State Graph).items = s.items := by
  simp [State.items, hrun, hqueue]

/-- **A step keeps the invariant** unless a call leaves an unfinished item behind. -/
theorem Inv.step {l : Label} (h : Inv cfg s) (hout : outlives s l = true)
    (hstep : step cfg s l = some s') : Inv cfg s' := by
  cases l with
  | submitCollective call buffers => exact h.submitCollective hstep
  | submitIR call => exact h.submitIR hstep
  | enqueue => exact h.enqueue hstep
  | leave => exact h.leave hout hstep
  | accept =>
    simp only [PlanLifetime.step] at hstep
    split at hstep
    · next graph input hcaller =>
      have hok := h.caller
      rw [CallerOk, hcaller] at hok
      split at hstep
      · cases hstep
        exact h.of_frame rfl rfl rfl (fun _ hi => hi) hok
      · cases hstep
    · cases hstep
  | refuse | unprepared | drained | drainTimeout =>
    simp only [PlanLifetime.step] at hstep
    repeat' split at hstep
    all_goals first
      | cases hstep; exact h.of_frame rfl rfl rfl (fun _ hi => hi) trivial
      | cases hstep
  | take =>
    simp only [PlanLifetime.step] at hstep
    split at hstep
    · next hrun hqueue =>
      cases hstep
      exact h.of_frame rfl rfl rfl (fun _ hi => items_of_take hrun hqueue ▸ hi) h.caller
    · cases hstep
  | finish ok =>
    simp only [PlanLifetime.step] at hstep
    split at hstep
    · cases hstep
      refine h.of_frame rfl rfl rfl (fun item hi => ?_) h.caller
      simp only [State.items, Option.toList_none, List.nil_append] at hi
      cases ok with
      | true => exact List.mem_append_right _ hi
      | false => cases hi
    · cases hstep
  | destroy =>
    simp only [PlanLifetime.step] at hstep
    split at hstep
    · split at hstep
      · next hnone =>
        cases hstep
        have hempty : s.items = [] := List.isEmpty_iff.1 hnone
        refine ⟨?_, fun _ _ _ h => (by cases h), h.stack, trivial⟩
        intro item hitem
        have hmem : item ∈ s.items := hitem
        rw [hempty] at hmem
        cases hmem
      · cases hstep
    · cases hstep

/-- A call that leaves an unfinished item behind leaves a pointer to nothing. -/
theorem outlives_of_sound {l : Label} (hstep : PlanLifetime.step cfg s l = some s')
    (hsound : Sound cfg s') : outlives s l = true := by
  cases l with
  | leave =>
    cases hcaller : s.caller with
    | returning graph =>
      cases graph with
      | cache key => simp [outlives, hcaller]
      | stack call =>
        simp only [outlives, hcaller, List.all_eq_true, decide_eq_true_eq]
        simp only [PlanLifetime.step, hcaller, Option.some.injEq] at hstep
        subst hstep
        intro item hitem hplace
        obtain ⟨g, hg, -⟩ := hsound item hitem
        rw [hplace] at hg
        exact absurd ((Function.update_self _ _ _).symm.trans hg) nofun
    | _ => simp [outlives, hcaller]
  | _ => rfl

/-- **The executor reads the plans of its works** in all states of a run just if every call of
`pcclSubmitIR` returns after its work is finished. -/
theorem plans_sound_iff (cfg : Config Graph) {labels : List Label} {s : State Graph}
    (hrun : (machine cfg).runFrom Machine.anyStep State.initial labels = some s) :
    (∀ pre, pre <+: labels → ∀ t,
        (machine cfg).runFrom Machine.anyStep State.initial pre = some t → Sound cfg t) ↔
      (machine cfg).runFrom (fun s l => Machine.anyStep s l && outlives s l) State.initial labels =
        some s :=
  Machine.throughout_iff _ (fun _ _ _ h _ hout hstep => h.step hout hstep) (fun _ h => h.sound)
    (fun _ _ _ _ _ hstep hsound => outlives_of_sound hstep hsound) Inv.initial hrun

end

/-! ## A plan that is gone -/

/-- The CUDA library, a communicator of one rank, and no IR files. -/
def cudaAlone : Config CompiledGraph where
  backend := .cuda
  rank := 0
  worldSize := 1
  loadIR := fun _ => ⟨1, 1, []⟩
  compile := fun input => (compileGraph {} input.program 0 1 input.options).toOption
  queueDepth := 8

/-- A program that copies the input to the output. -/
def copyCall : IRCall where
  program := ⟨1, 1, [{ op := .d2d, rank := 0, src := ⟨-1, 0⟩, dst := ⟨-1, 0⟩ }]⟩
  count := 4
  buffers := ⟨4096, 8192⟩

/-- The call returns before the executor takes the item up. -/
def returnsEarly : List Label := [.submitIR copyCall, .accept, .enqueue, .leave]

/-- The item is finished before the call returns. -/
def returnsLate : List Label := [.submitIR copyCall, .accept, .enqueue, .take, .finish true, .leave]

/-- What the unfinished items point to still exists. -/
def State.live (s : State CompiledGraph) : List Bool :=
  s.items.map fun item => (s.read item.graph).isSome

theorem plans_sound_late :
    ∃ s, (machine cudaAlone).runFrom Machine.anyStep State.initial returnsLate = some s ∧
      Sound cudaAlone s := by
  have hobs : (((machine cudaAlone).runFrom (fun s l => Machine.anyStep s l && outlives s l)
      State.initial returnsLate).map State.live) = some [] := by
    decide +kernel
  obtain ⟨s, hrun, -⟩ := Option.map_eq_some_iff.1 hobs
  have hany : (machine cudaAlone).runFrom Machine.anyStep State.initial returnsLate = some s :=
    Machine.runFrom_mono _ (fun _ _ _ => rfl) hrun
  exact ⟨s, hany, (plans_sound_iff cudaAlone hany).2 hrun _ List.prefix_rfl s hany⟩

/-- **A plan is gone before it is read.** -/
theorem plan_destroyed : ¬ ∀ (cfg : Config CompiledGraph) (labels : List Label)
    (s : State CompiledGraph),
    (machine cfg).runFrom Machine.anyStep State.initial labels = some s → Sound cfg s := by
  intro hall
  have hobs : (((machine cudaAlone).runFrom Machine.anyStep State.initial returnsEarly).map
      State.live) = some [false] := by
    decide +kernel
  obtain ⟨s, hrun, hlive⟩ := Option.map_eq_some_iff.1 hobs
  have hsound := hall cudaAlone returnsEarly s hrun
  have hsome : ∀ b ∈ s.live, b = true := by
    intro b hb
    obtain ⟨item, hitem, rfl⟩ := List.mem_map.1 hb
    obtain ⟨g, hg, -⟩ := hsound item hitem
    rw [hg]
    rfl
  rw [hlive] at hsome
  exact absurd (hsome false (List.mem_singleton_self _)) nofun

end PlanLifetime
end Api
end HyLink
