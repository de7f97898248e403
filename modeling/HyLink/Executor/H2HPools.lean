import HyLink.Theory.Machine
import HyLink.Executor.PoolWorkers
import Mathlib.Logic.Function.Basic
import Mathlib.Data.Int.Notation
import Mathlib.Order.Nat

/-!
# The worker pools of the host engine

`H2HEngine` of both backends: executors submit work to the pool of a NUMA node, which is created
with the first submission; the workers execute the shards, and the one that does the last shard of a
submission pushes its completion (Ascend) or brings the submission's counter to its end (CUDA);
Ascend's executors poll the completions.  The shutdown sets the stop flag, notifies the pools and
joins their workers.

* `step` — one critical section, or one access outside of them.
* `Calm` — no worker of a pool is about to block when the shutdown notifies the pool.
* `Staff` — what holds of the threads: whoever is blocked will not be missed.
* `Books` — what holds of the shards: each is in one place, and is executed once.

How long an item takes is left to the run.
-/

namespace HyLink
namespace Executor
namespace HostPools

open Theory

/-! ## The engine -/

structure Config where
  backend : Backend
  /-- `num_numa_nodes_` -/
  nodes : ℕ
  /-- The workers of a pool. -/
  workers : ℕ
  nodes_pos : 0 < nodes
  workers_pos : 0 < workers

/-- What is submitted: the pool, the number of shards, and whose work it is part of. -/
structure Work where
  node : ℕ
  size : ℕ
  owner : ℕ
  seq : ℕ
  deriving DecidableEq, Repr

/-- A submission that is queued; `remaining` is Ascend's counter of that name, or what is missing of
`num_threads` in `threads_done` or in CUDA's `graph_done`. -/
structure Request where
  work : Work
  remaining : ℕ
  deriving DecidableEq, Repr

/-- A shard: its submission and its number. -/
structure Item where
  request : ℕ
  shard : ℕ
  deriving DecidableEq, Repr

/-- The completion of a submission. -/
structure Completion where
  request : ℕ
  owner : ℕ
  seq : ℕ
  deriving DecidableEq, Repr

/-- Where an executor stands in a submission. -/
inductive Submitter where
  | idle
  /-- `stop_` was seen unset. -/
  | admitted (work : Work)
  /-- The pool is there. -/
  | ready (work : Work)
  /-- So many items are queued; before `queue_size` is raised. -/
  | pushed (node count : ℕ)
  /-- So many notifications are left. -/
  | notifying (node count : ℕ)
  deriving DecidableEq, Repr

inductive Stage where
  | running
  /-- `stop_` is set, and the pools before this one are notified. -/
  | notifying (node : ℕ)
  /-- The pools before this one are joined. -/
  | joining (node : ℕ)
  | closed
  deriving DecidableEq, Repr

structure Engine where
  initialized : Bool
  stop : Bool
  stage : Stage
  pools : ℕ → Pool Item
  requests : List Request
  submitters : List Submitter
  completions : List Completion
  /-- `num_completions_` -/
  hint : ℕ
  /-- The shards in the order of their execution. -/
  executed : List Item
  /-- All completions so far: pushed, returned by a poll, and erased otherwise. -/
  pushed : List Completion
  returned : List Completion
  dropped : List Completion
  /-- The latest work each owner has polled for. -/
  polled : ℕ → ℕ

/-- The engine before `initialize`, with so many executors. -/
def Engine.init (executors : ℕ) : Engine where
  initialized := false
  stop := false
  stage := .running
  pools := fun _ => Pool.init
  requests := []
  submitters := List.replicate executors .idle
  completions := []
  hint := 0
  executed := []
  pushed := []
  returned := []
  dropped := []
  polled := fun _ => 0

namespace Engine

def setPool (s : Engine) (n : ℕ) (p : Pool Item) : Engine :=
  { s with pools := Function.update s.pools n p }

def setSubmitter (s : Engine) (e : ℕ) (x : Submitter) : Engine :=
  { s with submitters := s.submitters.set e x }

end Engine

/-- The items of a submission. -/
def items (request size : ℕ) : List Item := (List.range size).map fun shard => ⟨request, shard⟩

/-- The loop of `pollCompletions`: what is kept, what is returned, and what is erased as stale. -/
def scan (owner seq : ℕ) :
    ℕ → List Completion → List Completion × List Completion × List Completion
  | _, [] => ([], [], [])
  | 0, l => (l, [], [])
  | room + 1, c :: l =>
    if c.owner = owner ∧ c.seq = seq then
      let (kept, returned, stale) := scan owner seq room l
      (kept, c :: returned, stale)
    else
      let (kept, returned, stale) := scan owner seq (room + 1) l
      if c.owner = owner ∧ c.seq < seq then (kept, returned, c :: stale)
      else (c :: kept, returned, stale)

inductive Label where
  /-- `initialize` -/
  | start
  /-- `submitCopy`, `submitCopyRange` or `submitGraphWork` is called. -/
  | submit (e : ℕ) (dst : ℤ) (work : Work)
  | spawn (e : ℕ)
  | push (e : ℕ)
  /-- `queue_size` is raised. -/
  | publish (e : ℕ)
  /-- `notify_one`, with the worker that wakes up, if one is blocked; CUDA notifies all. -/
  | notify (e : ℕ) (woken : Option ℕ)
  | move (n w : ℕ) (l : Move)
  | execute (n w : ℕ)
  | complete (n w : ℕ)
  /-- A wait wakes up without being notified. -/
  | spurious (n w : ℕ)
  | poll (owner seq max : ℕ)
  | shutdown
  | notifyAll
  | join
  deriving DecidableEq, Repr

/-- What `pollCompletions` does. -/
def poll (s : Engine) (owner seq max : ℕ) : Engine :=
  let after := { s with
    polled := Function.update s.polled owner (Nat.max (s.polled owner) seq) }
  if s.hint = 0 then after
  else
    let (kept, returned, stale) := scan owner seq max s.completions
    { after with
      completions := kept
      hint := s.hint - returned.length
      returned := s.returned ++ returned
      dropped := s.dropped ++ stale }

/-- The last accesses of a worker to a submission: the counter, and the completion. -/
def finish (cfg : Config) (s : Engine) (r : ℕ) (req : Request) : Engine :=
  let after := { s with requests := s.requests.set r { req with remaining := req.remaining - 1 } }
  if cfg.backend = .ascend ∧ req.remaining = 1 then
    let c : Completion := ⟨r, req.work.owner, req.work.seq⟩
    { after with
      completions := s.completions ++ [c]
      hint := s.hint + 1
      pushed := s.pushed ++ [c] }
  else after

def step (cfg : Config) (s : Engine) : Label → Option Engine
  | .start =>
    some (if s.initialized then s
      else { s with initialized := true, stop := false, stage := .running })
  | .submit e dst work =>
    match s.submitters[e]? with
    | some .idle =>
      -- `submitGraphWork` of CUDA checks neither of the flags
      if (cfg.backend = .cuda ∨ s.initialized = true ∧ s.stop = false) ∧ 0 < work.size then
        let node := (max 0 (min dst (cfg.nodes - 1))).toNat
        some (s.setSubmitter e (.admitted { work with node := node }))
      else some s
    | _ => none
  | .spawn e =>
    match s.submitters[e]? with
    | some (.admitted work) =>
      let p := s.pools work.node
      let p' := if p.spawned then p
        else { p with workers := List.replicate cfg.workers (.looking 0), spawned := true }
      some ((s.setPool work.node p').setSubmitter e (.ready work))
    | _ => none
  | .push e =>
    match s.submitters[e]? with
    | some (.ready work) =>
      let p := s.pools work.node
      if p.free then
        let p' := { p with queue := p.queue ++ items s.requests.length work.size }
        some { (s.setPool work.node p').setSubmitter e (.pushed work.node work.size) with
          requests := s.requests ++ [⟨work, work.size⟩] }
      else none
    | _ => none
  | .publish e =>
    match s.submitters[e]? with
    | some (.pushed n k) =>
      let p := s.pools n
      some ((s.setPool n { p with hint := p.hint + k }).setSubmitter e (.notifying n k))
    | _ => none
  | .notify e woken =>
    match s.submitters[e]? with
    | some (.notifying n k) =>
      let p := s.pools n
      let after := s.setSubmitter e (if k ≤ 1 then .idle else .notifying n (k - 1))
      match cfg.backend, woken with
      | .cuda, _ => some ((s.setPool n p.notifyAll).setSubmitter e .idle)
      | .ascend, none => if .parked ∈ p.workers then none else some after
      | .ascend, some w =>
        if p.workers[w]? = some .parked then some (after.setPool n (p.goto w .locking)) else none
    | _ => none
  | .move n w l => ((s.pools n).move cfg.backend s.stop w l).map (s.setPool n)
  | .execute n w =>
    match (s.pools n).workers[w]? with
    | some (.holding x) =>
      some { s.setPool n ((s.pools n).goto w (.copied x)) with executed := s.executed ++ [x] }
    | _ => none
  | .complete n w =>
    match (s.pools n).workers[w]? with
    | some (.copied x) =>
      (s.requests[x.request]?).map fun req =>
        finish cfg (s.setPool n ((s.pools n).goto w (.looking 0))) x.request req
    | _ => none
  | .spurious n w =>
    if (s.pools n).workers[w]? = some .parked then
      some (s.setPool n ((s.pools n).goto w .locking))
    else none
  | .poll owner seq max => some (poll s owner seq max)
  | .shutdown =>
    if s.initialized = true ∧ s.stage = .running then
      some { s with stop := true, stage := .notifying 0 }
    else none
  | .notifyAll =>
    match s.stage with
    | .notifying k =>
      if k < cfg.nodes then
        some { s.setPool k (s.pools k).notifyAll with stage := .notifying (k + 1) }
      else some { s with stage := .joining 0 }
    | _ => none
  | .join =>
    match s.stage with
    | .joining k =>
      if k < cfg.nodes then
        if ∀ a ∈ (s.pools k).workers, a = .exited then
          let p := s.pools k
          let queue := if cfg.backend = .ascend then [] else p.queue
          some { s.setPool k { p with workers := [], queue := queue, hint := 0 } with
            stage := .joining (k + 1) }
        else none
      else some { s with
        stage := .closed
        initialized := false
        completions := []
        hint := 0
        dropped := s.dropped ++ s.completions }
    | _ => none

def machine (cfg : Config) : Machine Engine Label := ⟨step cfg⟩

/-- All a step can do. -/
inductive Step (cfg : Config) (s : Engine) : Label → Engine → Prop
  | started (h : s.initialized = true) : Step cfg s .start s
  | start (h : s.initialized = false) :
      Step cfg s .start { s with initialized := true, stop := false, stage := .running }
  | submit {e : ℕ} {dst : ℤ} {work : Work} (hx : s.submitters[e]? = some .idle)
      (hopen : cfg.backend = .cuda ∨ s.initialized = true ∧ s.stop = false)
      (hpos : 0 < work.size) :
      Step cfg s (.submit e dst work) (s.setSubmitter e
        (.admitted { work with node := (max 0 (min dst (cfg.nodes - 1))).toNat }))
  | refuse {e : ℕ} {dst : ℤ} {work : Work} (hx : s.submitters[e]? = some .idle)
      (hno : ¬ ((cfg.backend = .cuda ∨ s.initialized = true ∧ s.stop = false) ∧ 0 < work.size)) :
      Step cfg s (.submit e dst work) s
  | spawn {e : ℕ} {work : Work} (hx : s.submitters[e]? = some (.admitted work)) :
      Step cfg s (.spawn e) ((s.setPool work.node (if (s.pools work.node).spawned then
        s.pools work.node else { s.pools work.node with
          workers := List.replicate cfg.workers (.looking 0), spawned := true })).setSubmitter e
            (.ready work))
  | push {e : ℕ} {work : Work} (hx : s.submitters[e]? = some (.ready work))
      (hfree : (s.pools work.node).free = true) :
      Step cfg s (.push e) { (s.setPool work.node { s.pools work.node with
        queue := (s.pools work.node).queue ++ items s.requests.length work.size }).setSubmitter e
          (.pushed work.node work.size) with requests := s.requests ++ [⟨work, work.size⟩] }
  | publish {e n k : ℕ} (hx : s.submitters[e]? = some (.pushed n k)) :
      Step cfg s (.publish e)
        ((s.setPool n { s.pools n with hint := (s.pools n).hint + k }).setSubmitter e
          (.notifying n k))
  | notifyPool {e n k : ℕ} {woken : Option ℕ} (hx : s.submitters[e]? = some (.notifying n k)) :
      Step cfg s (.notify e woken) ((s.setPool n (s.pools n).notifyAll).setSubmitter e .idle)
  | notifyNone {e n k : ℕ} (hx : s.submitters[e]? = some (.notifying n k))
      (hno : .parked ∉ (s.pools n).workers) :
      Step cfg s (.notify e none)
        (s.setSubmitter e (if k ≤ 1 then .idle else .notifying n (k - 1)))
  | notifyOne {e n k w : ℕ} (hx : s.submitters[e]? = some (.notifying n k))
      (hw : (s.pools n).workers[w]? = some .parked) :
      Step cfg s (.notify e (some w))
        ((s.setPool n ((s.pools n).goto w .locking)).setSubmitter e
          (if k ≤ 1 then .idle else .notifying n (k - 1)))
  | move {n w : ℕ} {l : Move} {p : Pool Item}
      (hmove : (s.pools n).move cfg.backend s.stop w l = some p) :
      Step cfg s (.move n w l) (s.setPool n p)
  | execute {n w : ℕ} {y : Item} (hw : (s.pools n).workers[w]? = some (.holding y)) :
      Step cfg s (.execute n w)
        { s.setPool n ((s.pools n).goto w (.copied y)) with executed := s.executed ++ [y] }
  | complete {n w : ℕ} {y : Item} {req : Request}
      (hw : (s.pools n).workers[w]? = some (.copied y)) (hr : s.requests[y.request]? = some req) :
      Step cfg s (.complete n w)
        (finish cfg (s.setPool n ((s.pools n).goto w (.looking 0))) y.request req)
  | spurious {n w : ℕ} (hw : (s.pools n).workers[w]? = some .parked) :
      Step cfg s (.spurious n w) (s.setPool n ((s.pools n).goto w .locking))
  | poll {owner seq max : ℕ} : Step cfg s (.poll owner seq max) (poll s owner seq max)
  | shutdown (hinit : s.initialized = true) (hrun : s.stage = .running) :
      Step cfg s .shutdown { s with stop := true, stage := .notifying 0 }
  | notifyAll {k : ℕ} (hstage : s.stage = .notifying k) (hk : k < cfg.nodes) :
      Step cfg s .notifyAll
        { s.setPool k (s.pools k).notifyAll with stage := .notifying (k + 1) }
  | notified {k : ℕ} (hstage : s.stage = .notifying k) (hk : cfg.nodes ≤ k) :
      Step cfg s .notifyAll { s with stage := .joining 0 }
  | join {k : ℕ} (hstage : s.stage = .joining k) (hk : k < cfg.nodes)
      (hall : ∀ a ∈ (s.pools k).workers, a = .exited) :
      Step cfg s .join { s.setPool k { s.pools k with
        workers := []
        queue := if cfg.backend = .ascend then [] else (s.pools k).queue
        hint := 0 } with stage := .joining (k + 1) }
  | close {k : ℕ} (hstage : s.stage = .joining k) (hk : cfg.nodes ≤ k) :
      Step cfg s .join { s with
        stage := .closed
        initialized := false
        completions := []
        hint := 0
        dropped := s.dropped ++ s.completions }

/-- **Every step is one of these.** -/
theorem Step.of_step {cfg : Config} {s s' : Engine} {l : Label} (h : step cfg s l = some s') :
    Step cfg s l s' := by
  cases l with
  | start =>
    cases h
    split
    · exact .started ‹_›
    · exact .start (by simpa using ‹¬ s.initialized = true›)
  | submit e dst work =>
    simp only [step] at h
    split at h
    · rename_i hx
      split at h
      · rename_i hcond
        cases h
        exact .submit hx hcond.1 hcond.2
      · cases h
        exact .refuse hx ‹_›
    · cases h
  | spawn e =>
    simp only [step] at h
    split at h <;> cases h
    exact .spawn ‹_›
  | push e =>
    simp only [step] at h
    split at h
    · rename_i hx
      split at h <;> cases h
      exact .push hx ‹_›
    · cases h
  | publish e =>
    simp only [step] at h
    split at h <;> cases h
    exact .publish ‹_›
  | notify e woken =>
    simp only [step] at h
    split at h
    · rename_i hx
      split at h
      · cases h
        exact .notifyPool hx
      · split at h <;> cases h
        exact .notifyNone hx ‹_›
      · split at h <;> cases h
        exact .notifyOne hx ‹_›
    · cases h
  | move n w l =>
    obtain ⟨p, hmove, rfl⟩ := Option.map_eq_some_iff.1 h
    exact .move hmove
  | execute n w =>
    simp only [step] at h
    split at h <;> cases h
    exact .execute ‹_›
  | complete n w =>
    simp only [step] at h
    split at h
    · rename_i hw
      obtain ⟨req, hr, rfl⟩ := Option.map_eq_some_iff.1 h
      exact .complete hw hr
    · cases h
  | spurious n w =>
    simp only [step] at h
    split at h <;> cases h
    exact .spurious ‹_›
  | poll owner seq max =>
    cases h
    exact .poll
  | shutdown =>
    simp only [step] at h
    split at h <;> cases h
    rename_i hcond
    exact .shutdown hcond.1 hcond.2
  | notifyAll =>
    simp only [step] at h
    split at h
    · rename_i hstage
      split at h <;> cases h
      · exact .notifyAll hstage ‹_›
      · exact .notified hstage (Nat.le_of_not_lt ‹_›)
    · cases h
  | join =>
    simp only [step] at h
    split at h
    · rename_i hstage
      split at h
      · rename_i hk
        split at h <;> cases h
        exact .join hstage hk ‹_›
      · cases h
        exact .close hstage (Nat.le_of_not_lt ‹_›)
    · cases h

/-- **When the shutdown notifies a pool no worker of it is about to block**, having seen the stop
flag unset; and the engine is not initialised again when a pool was created before. -/
def Calm (cfg : Config) (s : Engine) : Label → Bool
  | .notifyAll =>
    match s.stage with
    | .notifying k => decide (cfg.nodes ≤ k) || (s.pools k).free
    | _ => true
  | .start => s.stage != .closed || (List.range cfg.nodes).all fun n => !(s.pools n).spawned
  | _ => true

/-! ## The threads -/

/-- The pool to whose workers a submitter owes a notification. -/
def Submitter.owing : Submitter → Option ℕ
  | .pushed n _ | .notifying n _ => some n
  | _ => none

/-- The pool a submitter has found created. -/
def Submitter.uses : Submitter → Option ℕ
  | .ready work => some work.node
  | .pushed n _ | .notifying n _ => some n
  | _ => none

namespace Engine

/-- Somebody owes the pool a notification. -/
def Owed (s : Engine) (n : ℕ) : Prop := ∃ x ∈ s.submitters, x.owing = some n

/-- The shutdown has notified the pool. -/
def Notified (cfg : Config) (s : Engine) (n : ℕ) : Prop :=
  match s.stage with
  | .running => False
  | .notifying k => n < k
  | .joining _ | .closed => n < cfg.nodes

end Engine

structure Staff (cfg : Config) (s : Engine) : Prop where
  stop : s.stop = true ↔ s.stage ≠ .running
  opened : s.initialized = false → s.stage = .running ∨ s.stage = .closed
  pools : ∀ n, (s.pools n).Ok s.stop (s.stage = .running) (s.Notified cfg n) (s.Owed n)
  used : ∀ x ∈ s.submitters, ∀ n, x.uses = some n → (s.pools n).spawned = true
  made : ∀ req ∈ s.requests, (s.pools req.work.node).spawned = true

variable {cfg : Config} {s s' : Engine} {e n w r : ℕ} {p p' : Pool Item} {x x' : Submitter}
  {y : Item} {c : Completion}

@[simp] theorem setPool_self : (s.setPool n p).pools n = p := Function.update_self _ _ _

theorem setPool_ne {m : ℕ} (h : m ≠ n) : (s.setPool n p).pools m = s.pools m :=
  Function.update_of_ne h _ _

/-- **What the changed pool has and the others have**, all have. -/
theorem forall_setPool {P : ℕ → Pool Item → Prop} (hself : P n p)
    (hother : ∀ m, m ≠ n → P m (s.pools m)) (m : ℕ) : P m ((s.setPool n p).pools m) := by
  by_cases hmn : m = n
  · subst hmn
    rw [setPool_self]
    exact hself
  · rw [setPool_ne hmn]
    exact hother m hmn

/-- The pool a submission is for. -/
def Submitter.node : Submitter → Option ℕ
  | .idle => none
  | .admitted work | .ready work => some work.node
  | .pushed n _ | .notifying n _ => some n

/-- The pools that are in use are pools of the engine, and of its size. -/
structure Within (cfg : Config) (s : Engine) : Prop where
  node : ∀ x ∈ s.submitters, ∀ n, x.node = some n → n < cfg.nodes
  outside : ∀ n, cfg.nodes ≤ n → (s.pools n).workers = [] ∧ (s.pools n).spawned = false
  size : ∀ n, (s.pools n).workers.length ≤ cfg.workers

theorem Within.init (cfg : Config) (k : ℕ) : Within cfg (Engine.init k) := by
  refine ⟨fun x hx n hn => ?_, fun _ _ => ⟨rfl, rfl⟩, fun _ => Nat.zero_le _⟩
  rw [List.eq_of_mem_replicate hx] at hn
  cases hn

theorem Within.setPool (h : Within cfg s) (hn : n < cfg.nodes)
    (hp : p.workers.length ≤ cfg.workers) : Within cfg (s.setPool n p) := by
  refine ⟨h.node, fun m hm => ?_, forall_setPool (P := fun _ q => q.workers.length ≤ cfg.workers)
    hp fun m _ => h.size m⟩
  rw [setPool_ne (by rintro rfl; exact Nat.not_lt.2 hm hn)]
  exact h.outside m hm

theorem Within.setSubmitter (h : Within cfg s) (e : ℕ)
    (hx : ∀ n, x'.node = some n → n < cfg.nodes) : Within cfg (s.setSubmitter e x') := by
  refine ⟨fun y hy n hn => ?_, h.outside, h.size⟩
  rcases List.mem_or_eq_of_mem_set hy with hy | rfl
  · exact h.node y hy n hn
  · exact hx n hn

theorem Within.congr (h : Within cfg s) (hpools : s'.pools = s.pools)
    (hsubmitters : s'.submitters = s.submitters) : Within cfg s' := by
  refine ⟨?_, ?_, ?_⟩
  · rw [hsubmitters]
    exact h.node
  · rw [hpools]
    exact h.outside
  · rw [hpools]
    exact h.size

theorem Within.lt (h : Within cfg s) {a : Worker Item} (hw : (s.pools n).workers[w]? = some a) :
    n < cfg.nodes := by
  by_contra hno
  rw [(h.outside n (Nat.le_of_not_lt hno)).1] at hw
  cases hw

/-- No pool is created, where the engine may be initialised again. -/
theorem Within.unspawned (h : Within cfg s) (hclosed : s.stage = .closed)
    (hcalm : Calm cfg s .start = true) (n : ℕ) : (s.pools n).spawned = false := by
  by_cases hn : n < cfg.nodes
  · simp only [Calm, hclosed, bne_self_eq_false, Bool.false_or] at hcalm
    simpa using List.all_eq_true.1 hcalm n (List.mem_range.2 hn)
  · exact (h.outside n (Nat.le_of_not_lt hn)).2

theorem Staff.init (cfg : Config) (k : ℕ) : Staff cfg (Engine.init k) := by
  refine ⟨⟨fun h => (by cases h), fun h => absurd rfl h⟩, fun _ => .inl rfl,
    fun _ => Pool.Ok.init.mono (fun h => h) (fun h => h) (fun h => h), fun x hx n hn => ?_,
    fun req hreq => absurd hreq List.not_mem_nil⟩
  rw [List.eq_of_mem_replicate hx] at hn
  cases hn

theorem Staff.notified_stop (h : Staff cfg s) (hn : s.Notified cfg n) : s.stop = true := by
  apply h.stop.2
  intro hrun
  unfold Engine.Notified at hn
  rw [hrun] at hn
  exact hn

/-- A pool that was created stays so. -/
theorem spawned_setPool {m : ℕ} (hspawned : (s.pools n).spawned = true → p.spawned = true)
    (hm : (s.pools m).spawned = true) : ((s.setPool n p).pools m).spawned = true :=
  forall_setPool (P := fun m q => (s.pools m).spawned = true → q.spawned = true) hspawned
    (fun _ _ h => h) m hm

/-- **A pool changes.**  What the other pools owe stays, and so does how far the shutdown is. -/
theorem Staff.setPool (h : Staff cfg s)
    (hp : p.Ok s.stop (s.stage = .running) (s.Notified cfg n) (s.Owed n))
    (hspawned : (s.pools n).spawned = true → p.spawned = true) : Staff cfg (s.setPool n p) := by
  refine ⟨h.stop, h.opened, forall_setPool (P := fun m q => q.Ok s.stop (s.stage = .running)
    (s.Notified cfg m) (s.Owed m)) hp fun m _ => h.pools m, fun x hx m hm => ?_,
    fun req hreq => ?_⟩
  · exact spawned_setPool hspawned (h.used x hx m hm)
  · exact spawned_setPool hspawned (h.made req hreq)

/-- **A submitter and the pool it works on change.**  To the other pools it owes nothing. -/
theorem Staff.setBoth (h : Staff cfg s) (hx : s.submitters[e]? = some x)
    (howing : ∀ m, m ≠ n → x.owing ≠ some m)
    (hp : ∀ owed : Prop, (x'.owing = some n → owed) → (s.Owed n → x.owing ≠ some n → owed) →
      p.Ok s.stop (s.stage = .running) (s.Notified cfg n) owed)
    (hspawned : (s.pools n).spawned = true → p.spawned = true)
    (huses : ∀ m, x'.uses = some m → m = n ∧ p.spawned = true) :
    Staff cfg ((s.setPool n p).setSubmitter e x') := by
  have hlt := (List.getElem?_eq_some_iff.1 hx).1
  have hget := (List.getElem?_eq_some_iff.1 hx).2
  -- who owed a notification still does, if it was not the submitter itself
  have hother : ∀ m, s.Owed m → x.owing ≠ some m → ∃ z ∈ s.submitters.set e x', z.owing = some m := by
    rintro m ⟨z, hz, howes⟩ hne
    obtain ⟨i, hi⟩ := List.getElem?_of_mem hz
    have hie : e ≠ i := by
      rintro rfl
      rw [hx] at hi
      cases hi
      exact hne howes
    refine ⟨z, List.mem_of_getElem? (i := i) ?_, howes⟩
    rw [List.getElem?_set_ne hie]
    exact hi
  refine ⟨h.stop, h.opened, forall_setPool (P := fun m q => q.Ok s.stop (s.stage = .running)
    (s.Notified cfg m) (∃ z ∈ s.submitters.set e x', z.owing = some m)) ?_ fun m hmn => ?_,
    fun z hz m hm => ?_, fun req hreq => spawned_setPool hspawned (h.made req hreq)⟩
  · exact hp _ (fun howes => ⟨x', List.mem_set hlt _, howes⟩) (hother n)
  · exact (h.pools m).mono (fun h => h) (fun h => h) fun howed => hother m howed (howing m hmn)
  · show ((s.setPool n p).pools m).spawned = true
    rcases List.mem_or_eq_of_mem_set hz with hz | rfl
    · exact spawned_setPool hspawned (h.used z hz m hm)
    · obtain ⟨rfl, hp'⟩ := huses m hm
      rw [setPool_self]
      exact hp'

theorem setPool_pools (s : Engine) (n : ℕ) : s.setPool n (s.pools n) = s := by
  unfold Engine.setPool
  rw [Function.update_eq_self]

/-- **A submission goes on.** -/
theorem Staff.submitter (h : Staff cfg s) (hx : s.submitters[e]? = some x)
    (hnone : x.owing = none) (huses : ∀ m, x'.uses = some m → (s.pools m).spawned = true)
    (hone : ∀ m m', x'.uses = some m → x'.uses = some m' → m = m') :
    Staff cfg (s.setSubmitter e x') := by
  cases hu : x'.uses with
  | none =>
    have hboth : Staff cfg ((s.setPool 0 (s.pools 0)).setSubmitter e x') := h.setBoth hx
      (fun m _ => by rw [hnone]; simp)
      (fun owed _ howed => (h.pools 0).mono (fun h => h) (fun h => h)
        fun hsome => howed hsome (by rw [hnone]; simp))
      (fun h => h) (fun m hm => by rw [hu] at hm; cases hm)
    rwa [setPool_pools] at hboth
  | some n =>
    have hboth : Staff cfg ((s.setPool n (s.pools n)).setSubmitter e x') := h.setBoth hx
      (fun m _ => by rw [hnone]; simp)
      (fun owed _ howed => (h.pools n).mono (fun h => h) (fun h => h)
        fun hsome => howed hsome (by rw [hnone]; simp))
      (fun h => h) (fun m hm => ⟨hone m n hm hu, huses n hu⟩)
    rwa [setPool_pools] at hboth

theorem Staff.spawn (h : Staff cfg s) {work : Work}
    (hx : s.submitters[e]? = some (.admitted work)) :
    Staff cfg ((s.setPool work.node (if (s.pools work.node).spawned then s.pools work.node
      else { s.pools work.node with
        workers := List.replicate cfg.workers (.looking 0), spawned := true })).setSubmitter e
          (.ready work)) := by
  have hok := h.pools work.node
  by_cases hs : (s.pools work.node).spawned = true
  · rw [if_pos hs, setPool_pools]
    refine h.submitter hx rfl (fun m hm => ?_) fun m m' hm hm' => Option.some.inj (hm.symm.trans hm')
    cases hm
    exact hs
  · rw [if_neg hs]
    have hqueue : (s.pools work.node).queue = [] := by
      by_contra hne
      exact hs (hok.queued hne)
    refine h.setBoth hx (fun m _ => by simp [Submitter.owing]) (fun owed _ _ => ?_) (fun _ => rfl)
      fun m hm => ?_
    · exact Pool.Ok.spawn cfg.workers_pos hqueue
    · cases hm
      exact ⟨rfl, rfl⟩

theorem Staff.push (h : Staff cfg s) {work : Work} (hx : s.submitters[e]? = some (.ready work))
    (hfree : (s.pools work.node).free = true) (l : List Item) :
    Staff cfg ((s.setPool work.node { s.pools work.node with
      queue := (s.pools work.node).queue ++ l }).setSubmitter e (.pushed work.node work.size)) := by
  have hspawned := h.used _ (List.mem_of_getElem? hx) work.node rfl
  refine h.setBoth hx (fun m _ => by simp [Submitter.owing]) (fun owed howed _ => ?_) (fun h => h)
    fun m hm => ?_
  · exact (h.pools work.node).push hfree hspawned (howed rfl)
  · cases hm
    exact ⟨rfl, hspawned⟩

theorem Staff.publish (h : Staff cfg s) {k : ℕ} (hx : s.submitters[e]? = some (.pushed n k)) :
    Staff cfg ((s.setPool n { s.pools n with hint := (s.pools n).hint + k }).setSubmitter e
      (.notifying n k)) := by
  have hspawned := h.used _ (List.mem_of_getElem? hx) n rfl
  refine h.setBoth hx (fun m hm => ?_) (fun owed howed _ => ?_) (fun h => h) fun m hm => ?_
  · simpa [Submitter.owing] using hm.symm
  · have hok := (h.pools n).mono (fun h => h) (fun h => h) fun _ => howed rfl
    exact ⟨hok.deciding, hok.exited, hok.staffed, hok.unstaffed, hok.queued, hok.served, hok.woken⟩
  · cases hm
    exact ⟨rfl, hspawned⟩

/-- What a submitter is after a notification. -/
theorem uses_after {k m : ℕ}
    (hm : (if k ≤ 1 then Submitter.idle else .notifying n (k - 1)).uses = some m) : m = n := by
  split at hm
  · cases hm
  · cases hm
    rfl

theorem owing_notifying {k m : ℕ} (hm : m ≠ n) : (Submitter.notifying n k).owing ≠ some m := by
  simpa [Submitter.owing] using hm.symm

theorem Staff.notifyPool (h : Staff cfg s) {k : ℕ}
    (hx : s.submitters[e]? = some (.notifying n k)) :
    Staff cfg ((s.setPool n (s.pools n).notifyAll).setSubmitter e .idle) := by
  have hspawned := h.used _ (List.mem_of_getElem? hx) n rfl
  have hok := h.pools n
  refine h.setBoth hx (fun _ => owing_notifying) (fun _ _ _ => ?_) (fun h => h)
    fun m hm => (by cases hm)
  exact hok.notifyAll (fun _ => hspawned) fun hn => (hok.woken hn).2

theorem Staff.notifyNone (h : Staff cfg s) {k : ℕ}
    (hx : s.submitters[e]? = some (.notifying n k)) (hno : .parked ∉ (s.pools n).workers) :
    Staff cfg (s.setSubmitter e (if k ≤ 1 then .idle else .notifying n (k - 1))) := by
  have hspawned := h.used _ (List.mem_of_getElem? hx) n rfl
  have hboth : Staff cfg ((s.setPool n (s.pools n)).setSubmitter e
      (if k ≤ 1 then .idle else .notifying n (k - 1))) :=
    h.setBoth hx (fun _ => owing_notifying) (fun _ _ _ => (h.pools n).notifyNone hspawned hno)
      (fun h => h) fun m hm => ⟨uses_after hm, hspawned⟩
  rwa [setPool_pools] at hboth

theorem Staff.notifyOne (h : Staff cfg s) {k : ℕ}
    (hx : s.submitters[e]? = some (.notifying n k)) (hw : (s.pools n).workers[w]? = some .parked) :
    Staff cfg ((s.setPool n ((s.pools n).goto w .locking)).setSubmitter e
      (if k ≤ 1 then .idle else .notifying n (k - 1))) := by
  have hspawned := h.used _ (List.mem_of_getElem? hx) n rfl
  exact h.setBoth hx (fun _ => owing_notifying)
    (fun _ _ _ => (h.pools n).notifyOne h.notified_stop hw) (fun h => h)
    fun m hm => ⟨uses_after hm, hspawned⟩

theorem Staff.shutdown (h : Staff cfg s) (hinit : s.initialized = true) :
    Staff cfg { s with stop := true, stage := .notifying 0 } := by
  refine ⟨⟨fun _ h => (by cases h), fun _ => rfl⟩,
    fun hno => absurd (hinit.symm.trans hno) (by decide), fun m => ?_, h.used, h.made⟩
  have hok := h.pools m
  exact ⟨hok.deciding, fun _ => rfl, fun hr => (by cases hr), hok.unstaffed, hok.queued,
    fun hr => (by cases hr), fun hn => absurd hn (Nat.not_lt_zero m)⟩

/-- **The shutdown notifies a pool** in which nobody is about to block. -/
theorem Staff.notifyAll (h : Staff cfg s) {k : ℕ} (hstage : s.stage = .notifying k)
    (hfree : (s.pools k).free = true) :
    Staff cfg { s.setPool k (s.pools k).notifyAll with stage := .notifying (k + 1) } := by
  have hstop : s.stop = true := h.stop.2 (by rw [hstage]; simp)
  have hopened : s.initialized ≠ false := fun hno => by
    rcases h.opened hno with hs | hs <;> rw [hstage] at hs <;> cases hs
  have hspawned : ∀ m, (s.pools m).spawned = true →
      ((s.setPool k (s.pools k).notifyAll).pools m).spawned = true :=
    fun m hm => spawned_setPool (fun h => h) hm
  refine ⟨⟨fun _ h => (by cases h), fun _ => hstop⟩, fun hno => absurd hno hopened,
    forall_setPool (P := fun m q => q.Ok s.stop (Stage.notifying (k + 1) = .running) (m < k + 1)
      (s.Owed m)) ?_ fun m hmk => ?_,
    fun x hx m hm => hspawned m (h.used x hx m hm), fun req hreq => hspawned _ (h.made req hreq)⟩
  · have hnot : (s.pools k).Ok s.stop (Stage.notifying (k + 1) = .running) (s.Notified cfg k)
        (s.Owed k) :=
      (h.pools k).mono (fun h => (by cases h)) (fun h => h) fun h => h
    exact hnot.notifyAll (fun h => (by cases h)) fun _ => Pool.deciding_not_mem hfree
  · refine (h.pools m).mono (fun h => (by cases h)) (fun hlt => ?_) fun h => h
    unfold Engine.Notified
    rw [hstage]
    exact lt_of_le_of_ne (Nat.lt_succ_iff.1 hlt) hmk

/-- The stage changes, once the pools are notified. -/
theorem Staff.stage (h : Staff cfg s) {stage : Stage} (hnot : stage ≠ .running)
    (hstop : s.stage ≠ .running) (hopen : s.stage ≠ .closed)
    (hnotified : ∀ n, Engine.Notified cfg { s with stage := stage } n → s.Notified cfg n) :
    Staff cfg { s with stage := stage } :=
  ⟨⟨fun _ => hnot, fun _ => h.stop.2 hstop⟩,
    fun hno => ((h.opened hno).elim (fun hs => hstop hs) (fun hs => hopen hs)).elim,
    fun m => (h.pools m).mono (fun h => absurd h hnot) (hnotified m) fun h => h, h.used, h.made⟩

/-- A joined pool was notified. -/
theorem notified_of_joining {k : ℕ} {t : Engine} {stage : Stage} (hstage : s.stage = .joining k)
    (ht : t.stage = s.stage)
    (hlt : ∀ n, Engine.Notified cfg { t with stage := stage } n → n < cfg.nodes) (n : ℕ)
    (hn : Engine.Notified cfg { t with stage := stage } n) : t.Notified cfg n := by
  unfold Engine.Notified
  rw [ht, hstage]
  exact hlt n hn

theorem Staff.join (h : Staff cfg s) (hstop : s.stage ≠ .running) (l : List Item)
    (hqueue : l ≠ [] → (s.pools n).queue ≠ []) :
    Staff cfg (s.setPool n { s.pools n with workers := [], queue := l, hint := 0 }) := by
  have hok := h.pools n
  refine h.setPool ⟨fun h => (by cases h), fun h => (by cases h), fun hr => absurd hr hstop,
    fun _ => rfl, fun hq => hok.queued (hqueue hq), fun hr => absurd hr hstop,
    fun _ => ⟨fun h => (by cases h), fun h => (by cases h)⟩⟩ fun h => h

/-- A submission is finished, or the completions change. -/
theorem Staff.congr (h : Staff cfg s) (hstop : s'.stop = s.stop) (hstage : s'.stage = s.stage)
    (hopened : s'.initialized = false → s.initialized = false ∨ s.stage = .closed)
    (hpools : s'.pools = s.pools) (hsubmitters : s'.submitters = s.submitters)
    (hrequests : ∀ req ∈ s'.requests, (∃ req' ∈ s.requests, req.work = req'.work) ∨
      (s.pools req.work.node).spawned = true) : Staff cfg s' := by
  obtain ⟨hs, ho, hp, hu, hm⟩ := h
  refine ⟨?_, fun hno => ?_, fun m => ?_, ?_, fun req hreq => ?_⟩
  · rw [hstop, hstage]
    exact hs
  · rw [hstage]
    exact (hopened hno).elim ho .inr
  · unfold Engine.Notified Engine.Owed
    rw [hstop, hstage, hpools, hsubmitters]
    exact hp m
  · rw [hpools, hsubmitters]
    exact hu
  · rw [hpools]
    rcases hrequests req hreq with ⟨req', hreq', hwork⟩ | hspawned
    · rw [hwork]
      exact hm req' hreq'
    · exact hspawned

theorem finish_frame (cfg : Config) (s : Engine) (r : ℕ) (req : Request) :
    (finish cfg s r req).stop = s.stop ∧ (finish cfg s r req).stage = s.stage ∧
      (finish cfg s r req).initialized = s.initialized ∧
      (finish cfg s r req).pools = s.pools ∧ (finish cfg s r req).submitters = s.submitters ∧
      (finish cfg s r req).executed = s.executed ∧
      (finish cfg s r req).requests =
        s.requests.set r { req with remaining := req.remaining - 1 } := by
  unfold finish
  dsimp only
  split <;> exact ⟨rfl, rfl, rfl, rfl, rfl, rfl, rfl⟩

theorem poll_frame (s : Engine) (owner seq max : ℕ) :
    (poll s owner seq max).stop = s.stop ∧ (poll s owner seq max).stage = s.stage ∧
      (poll s owner seq max).initialized = s.initialized ∧
      (poll s owner seq max).pools = s.pools ∧ (poll s owner seq max).submitters = s.submitters ∧
      (poll s owner seq max).executed = s.executed ∧
      (poll s owner seq max).requests = s.requests ∧ (poll s owner seq max).pushed = s.pushed := by
  unfold poll
  dsimp only
  split <;> exact ⟨rfl, rfl, rfl, rfl, rfl, rfl, rfl, rfl⟩

/-- The engine is initialised again, and there is no pool yet. -/
theorem Staff.restart (h : Staff cfg s) (hnone : ∀ n, (s.pools n).spawned = false) :
    Staff cfg { s with initialized := true, stop := false, stage := .running } := by
  refine ⟨⟨fun h => (by cases h), fun h => absurd rfl h⟩, fun hno => (by cases hno), fun n => ?_,
    h.used, h.made⟩
  have hok := h.pools n
  have hworkers := hok.unstaffed (hnone n)
  have hqueue : (s.pools n).queue = [] := by
    by_contra hne
    exact absurd (hok.queued hne) (by rw [hnone n]; decide)
  refine ⟨hok.deciding, fun he => ?_, fun _ hs => ?_, hok.unstaffed, hok.queued,
    fun _ hq => absurd hqueue hq, fun hn => hn.elim⟩
  · rw [hworkers] at he
    cases he
  · rw [hnone n] at hs
    cases hs

theorem Staff.step (h : Staff cfg s) (hwithin : Within cfg s) {l : Label}
    (hcalm : Calm cfg s l = true) (hstep : step cfg s l = some s') : Staff cfg s' := by
  have hmade : ∀ req ∈ s.requests, (∃ req' ∈ s.requests, req.work = req'.work) ∨
      (s.pools req.work.node).spawned = true := fun req hreq => .inl ⟨req, hreq, rfl⟩
  cases Step.of_step hstep with
  | started | refuse => exact h
  | start hinit =>
    by_cases hrun : s.stage = .running
    · have hstop : s.stop = false := by
        by_contra hstop
        exact h.stop.1 (by simpa using hstop) hrun
      exact h.congr hstop.symm hrun.symm (fun hno => by cases hno) rfl rfl hmade
    · exact h.restart (hwithin.unspawned ((h.opened hinit).resolve_left hrun) hcalm)
  | submit hx => exact h.submitter hx rfl (fun m hm => by cases hm) fun m m' hm => by cases hm
  | spawn hx => exact h.spawn hx
  | @push e work hx hfree =>
    have hspawned := h.used _ (List.mem_of_getElem? hx) work.node rfl
    refine (h.push hx hfree (items s.requests.length work.size)).congr rfl rfl .inl rfl rfl
      fun req hreq => ?_
    rcases List.mem_append.1 hreq with hreq | hreq
    · exact .inl ⟨req, hreq, rfl⟩
    · rw [List.mem_singleton.1 hreq]
      exact .inr (spawned_setPool (fun h => h) hspawned)
  | publish hx => exact h.publish hx
  | notifyPool hx => exact h.notifyPool hx
  | notifyNone hx hno => exact h.notifyNone hx hno
  | notifyOne hx hw => exact h.notifyOne hx hw
  | @move n w l p hmove =>
    refine h.setPool ((h.pools n).move h.notified_stop hmove) fun hs => ?_
    obtain ⟨a, hw, _, ⟨a', rfl, _⟩ | ⟨x, rest, _, rfl, _⟩⟩ := Pool.move_cases hmove
    · exact hs
    · exact hs
  | @execute n w y hw =>
    have hgoto : ((s.pools n).goto w (.copied y)).Ok s.stop (s.stage = .running)
        (s.Notified cfg n) (s.Owed n) :=
      (h.pools n).goto h.notified_stop hw (by simp) (by simp) (by simp)
    exact (h.setPool hgoto fun hs => hs).congr rfl rfl .inl rfl rfl
      fun req hreq => .inl ⟨req, hreq, rfl⟩
  | @complete n w y req hw hr =>
    obtain ⟨hstop, hstage, hinit, hpools, hsubmitters, _, hrequests⟩ :=
      finish_frame cfg (s.setPool n ((s.pools n).goto w (.looking 0))) y.request req
    have hgoto : ((s.pools n).goto w (.looking 0)).Ok s.stop (s.stage = .running)
        (s.Notified cfg n) (s.Owed n) :=
      (h.pools n).goto h.notified_stop hw (by simp) (by simp) (by simp)
    refine (h.setPool hgoto fun hs => hs).congr hstop hstage (fun hno => .inl (hinit ▸ hno))
      hpools hsubmitters fun req' hreq' => ?_
    rw [hrequests] at hreq'
    rcases List.mem_or_eq_of_mem_set hreq' with hreq' | rfl
    · exact .inl ⟨req', hreq', rfl⟩
    · exact .inl ⟨req, List.mem_of_getElem? hr, rfl⟩
  | @spurious n w hw =>
    refine h.setPool ?_ fun hs => hs
    exact (h.pools n).goto h.notified_stop hw (by simp) (by simp) (by simp)
  | @poll owner seq max =>
    obtain ⟨hstop, hstage, hinit, hpools, hsubmitters, _, hrequests, _⟩ :=
      poll_frame s owner seq max
    exact h.congr hstop hstage (fun hno => .inl (hinit ▸ hno)) hpools hsubmitters
      fun req hreq => hmade req (hrequests ▸ hreq)
  | shutdown hinit => exact h.shutdown hinit
  | notifyAll hstage hk =>
    refine h.notifyAll hstage ?_
    simp only [Calm, hstage, Bool.or_eq_true, decide_eq_true_eq] at hcalm
    exact hcalm.resolve_left (Nat.not_le.2 hk)
  | notified hstage hk =>
    refine h.stage (by simp) (by simp [hstage]) (by simp [hstage]) fun n hn => ?_
    unfold Engine.Notified
    rw [hstage]
    exact lt_of_lt_of_le hn hk
  | join hstage =>
    have hnot : s.stage ≠ .running := by simp [hstage]
    have hopen : s.stage ≠ .closed := by simp [hstage]
    refine (h.join hnot _ fun hl => ?_).stage (by simp) hnot hopen
      (notified_of_joining hstage rfl fun n hn => hn)
    split at hl
    · exact absurd rfl hl
    · exact hl
  | close hstage =>
    have hclosed : Staff cfg { s with stage := .closed } :=
      h.stage (by simp) (by simp [hstage]) (by simp [hstage])
        (notified_of_joining hstage rfl fun n hn => hn)
    exact hclosed.congr rfl rfl (fun _ => .inr rfl) rfl rfl hmade

/-! ## The shards -/

def isItem (y : Item) : Item → Bool := fun z => decide (z = y)

def ofRequest (r : ℕ) : Item → Bool := fun z => decide (z.request = r)

structure Books (s : Engine) : Prop where
  /-- What a pool has was submitted to it. -/
  here : ∀ n y, 0 < (s.pools n).pending (isItem y) →
    ∃ req, s.requests[y.request]? = some req ∧ req.work.node = n ∧ y.shard < req.work.size
  old : ∀ y ∈ s.executed, y.request < s.requests.length
  /-- A shard is queued, or taken, or executed, and only one of these. -/
  once : ∀ r req, s.requests[r]? = some req → ∀ k,
    (s.pools req.work.node).tally ⟨r, k⟩ + s.executed.count ⟨r, k⟩ ≤ 1 ∧
      (s.stage = .running → k < req.work.size →
        (s.pools req.work.node).tally ⟨r, k⟩ + s.executed.count ⟨r, k⟩ = 1)
  remaining : ∀ r req, s.requests[r]? = some req →
    (s.pools req.work.node).pending (ofRequest r) ≤ req.remaining ∧
      (s.stage = .running → (s.pools req.work.node).pending (ofRequest r) = req.remaining)

theorem Books.init (k : ℕ) : Books (Engine.init k) := by
  refine ⟨fun n y h => absurd h (Nat.lt_irrefl 0), fun y hy => absurd hy List.not_mem_nil,
    fun r req h => (by cases h), fun r req h => (by cases h)⟩

theorem Books.congr (h : Books s) (hrequests : s'.requests = s.requests)
    (hexecuted : s'.executed = s.executed) (hstage : s'.stage = .running → s.stage = .running)
    (htally : ∀ n y, (s'.pools n).tally y = (s.pools n).tally y)
    (hpending : ∀ n f, (s'.pools n).pending f = (s.pools n).pending f) : Books s' := by
  refine ⟨fun n y hy => ?_, ?_, fun r req hr k => ?_, fun r req hr => ?_⟩
  · rw [hpending] at hy
    rw [hrequests]
    exact h.here n y hy
  · rw [hexecuted, hrequests]
    exact h.old
  · rw [hrequests] at hr
    obtain ⟨hle, heq⟩ := h.once r req hr k
    rw [htally, hexecuted]
    exact ⟨hle, fun hrun => heq (hstage hrun)⟩
  · rw [hrequests] at hr
    obtain ⟨hle, heq⟩ := h.remaining r req hr
    rw [hpending]
    exact ⟨hle, fun hrun => heq (hstage hrun)⟩

/-- **A pool changes, and its shards are where they were.** -/
theorem Books.setPool (h : Books s) (htally : ∀ y, p.tally y = (s.pools n).tally y)
    (hpending : ∀ f, p.pending f = (s.pools n).pending f) : Books (s.setPool n p) := by
  refine h.congr rfl rfl (fun h => h) (fun m y => ?_) fun m f => ?_
  · exact forall_setPool (P := fun m q => q.tally y = (s.pools m).tally y) (htally y)
      (fun _ _ => rfl) m
  · exact forall_setPool (P := fun m q => q.pending f = (s.pools m).pending f) (hpending f)
      (fun _ _ => rfl) m

theorem pending_pos {f : Item → Bool} (h : 0 < p.pending f) :
    ∃ y, f y = true ∧ 0 < p.pending (isItem y) := by
  unfold Pool.pending at h
  by_cases hq : 0 < p.queue.countP f
  · obtain ⟨y, hy, hf⟩ := List.countP_pos_iff.1 hq
    exact ⟨y, hf, Nat.add_pos_left (List.countP_pos_iff.2 ⟨y, hy, decide_eq_true rfl⟩) _⟩
  · obtain ⟨a, ha, hf⟩ := List.countP_pos_iff.1 (by omega : 0 < p.workers.countP (Worker.worksOn f))
    unfold Worker.worksOn at hf
    obtain ⟨y, hy, hfy⟩ := (Option.any_eq_true _ _).1 hf
    refine ⟨y, hfy, Nat.add_pos_right _ (List.countP_pos_iff.2 ⟨a, ha, ?_⟩)⟩
    unfold Worker.worksOn
    rw [hy]
    exact decide_eq_true rfl

theorem pending_of_item {a : Worker Item} (hw : p.workers[w]? = some a) (ha : a.item = some y) :
    0 < p.pending (isItem y) := by
  refine Nat.add_pos_right _ (List.countP_pos_iff.2 ⟨a, List.mem_of_getElem? hw, ?_⟩)
  unfold Worker.worksOn
  rw [ha]
  exact decide_eq_true rfl

theorem tally_le_pending : p.tally y ≤ p.pending (isItem y) := by
  rw [Pool.tally, Pool.pending, List.count_eq_countP, List.count_eq_countP]
  refine Nat.add_le_add (List.countP_mono_left fun z _ hz => ?_)
    (List.countP_mono_left fun a _ ha => ?_)
  · exact decide_eq_true (beq_iff_eq.1 hz)
  · rw [of_decide_eq_true ha]
    exact decide_eq_true rfl

/-- **A shard is executed.** -/
theorem Books.execute (h : Books s) (hw : (s.pools n).workers[w]? = some (.holding y)) :
    Books { s.setPool n ((s.pools n).goto w (.copied y)) with executed := s.executed ++ [y] } := by
  obtain ⟨reqy, hreqy, hnode, _⟩ := h.here n y (pending_of_item hw rfl)
  have hpending : ∀ m f, ((s.setPool n ((s.pools n).goto w (.copied y))).pools m).pending f =
      (s.pools m).pending f := by
    intro m f
    refine forall_setPool (P := fun m q => q.pending f = (s.pools m).pending f) ?_
      (fun _ _ => rfl) m
    exact Pool.pending_goto hw rfl
  refine ⟨fun m z hz => ?_, fun z hz => ?_, fun r req hr k => ?_, fun r req hr => ?_⟩
  · have hz' : 0 < ((s.setPool n ((s.pools n).goto w (.copied y))).pools m).pending (isItem z) := hz
    rw [hpending] at hz'
    exact h.here m z hz'
  · rcases List.mem_append.1 hz with hz | hz
    · exact h.old z hz
    · rw [List.mem_singleton.1 hz]
      exact (List.getElem?_eq_some_iff.1 hreqy).1
  · have hsame : ((s.setPool n ((s.pools n).goto w (.copied y))).pools req.work.node).tally ⟨r, k⟩ +
        (s.executed ++ [y]).count ⟨r, k⟩ =
        (s.pools req.work.node).tally ⟨r, k⟩ + s.executed.count ⟨r, k⟩ := by
      rw [List.count_append, List.count_singleton]
      by_cases hy : y = ⟨r, k⟩
      · subst hy
        cases Option.some.inj (hreqy.symm.trans hr)
        subst hnode
        have hexec := Pool.tally_execute (y := ⟨r, k⟩) hw
        rw [setPool_self]
        simp only [beq_self_eq_true, if_true] at hexec ⊢
        omega
      · rw [if_neg (by simpa using hy)]
        by_cases hmn : req.work.node = n
        · have hexec := Pool.tally_execute (y := ⟨r, k⟩) hw
          rw [if_neg hy] at hexec
          rw [hmn, setPool_self]
          omega
        · rw [setPool_ne hmn, Nat.add_zero]
    obtain ⟨hle, heq⟩ := h.once r req hr k
    rw [← hsame] at hle heq
    exact ⟨hle, heq⟩
  · obtain ⟨hle, heq⟩ := h.remaining r req hr
    rw [← hpending] at hle heq
    exact ⟨hle, heq⟩

/-- **A shard is done with**, and its submission's counter is lowered. -/
theorem Books.complete (h : Books s) {req : Request}
    (hw : (s.pools n).workers[w]? = some (.copied y)) (hreq : s.requests[y.request]? = some req) :
    Books { s.setPool n ((s.pools n).goto w (.looking 0)) with
      requests := s.requests.set y.request { req with remaining := req.remaining - 1 } } := by
  obtain ⟨req', hreq', hnode, _⟩ := h.here n y (pending_of_item hw rfl)
  cases Option.some.inj (hreq'.symm.trans hreq)
  subst hnode
  have hlt := (List.getElem?_eq_some_iff.1 hreq).1
  have hpending : ∀ m f, ((s.setPool req.work.node
      ((s.pools req.work.node).goto w (.looking 0))).pools m).pending f +
        (if m = req.work.node ∧ f y = true then 1 else 0) = (s.pools m).pending f := by
    intro m f
    refine forall_setPool (P := fun m q => q.pending f +
      (if m = req.work.node ∧ f y = true then 1 else 0) = (s.pools m).pending f) ?_ ?_ m
    · simpa using Pool.pending_complete (f := f) hw
    · intro m hmn
      rw [if_neg fun h => hmn h.1, Nat.add_zero]
  have htally : ∀ m z, ((s.setPool req.work.node
      ((s.pools req.work.node).goto w (.looking 0))).pools m).tally z = (s.pools m).tally z :=
    fun m z => forall_setPool (P := fun m q => q.tally z = (s.pools m).tally z)
      (Pool.tally_goto hw (by simp) (by simp)) (fun _ _ => rfl) m
  -- the other submissions, and what this one is, stay
  have hget : ∀ r req₁, (s.requests.set y.request { req with remaining := req.remaining - 1 })[r]? =
      some req₁ → ∃ req₂, s.requests[r]? = some req₂ ∧ req₁.work = req₂.work ∧
        req₁.remaining = req₂.remaining - if r = y.request then 1 else 0 := by
    intro r req₁ hr
    by_cases hry : y.request = r
    · subst hry
      rw [List.getElem?_set_self hlt] at hr
      cases hr
      exact ⟨req, hreq, rfl, by rw [if_pos rfl]⟩
    · rw [List.getElem?_set_ne hry] at hr
      exact ⟨req₁, hr, rfl, by rw [if_neg fun h => hry h.symm]; rfl⟩
  refine ⟨fun m z hz => ?_, fun z hz => ?_, fun r req₁ hr k => ?_, fun r req₁ hr => ?_⟩
  · have hle := hpending m (isItem z)
    have hz' : 0 < (s.pools m).pending (isItem z) := lt_of_lt_of_le hz (by
      rw [← hle]
      exact Nat.le_add_right _ _)
    obtain ⟨req₁, hreq₁, hnode, hlt₁⟩ := h.here m z hz'
    by_cases hzy : y.request = z.request
    · rw [hzy, hreq₁] at hreq
      cases hreq
      refine ⟨{ req with remaining := req.remaining - 1 }, ?_, hnode, hlt₁⟩
      show (s.requests.set y.request _)[z.request]? = _
      rw [← hzy, List.getElem?_set_self hlt]
    · refine ⟨req₁, ?_, hnode, hlt₁⟩
      show (s.requests.set y.request _)[z.request]? = _
      rw [List.getElem?_set_ne hzy]
      exact hreq₁
  · show z.request < (s.requests.set y.request _).length
    rw [List.length_set]
    exact h.old z hz
  · obtain ⟨req₂, hr₂, hwork, _⟩ := hget r req₁ hr
    rw [hwork]
    obtain ⟨hle, heq⟩ := h.once r req₂ hr₂ k
    rw [← htally] at hle heq
    exact ⟨hle, heq⟩
  · obtain ⟨req₂, hr₂, hwork, hremaining⟩ := hget r req₁ hr
    obtain ⟨hle, heq⟩ := h.remaining r req₂ hr₂
    have hsplit := hpending req₂.work.node (ofRequest r)
    have hone : (if req₂.work.node = req.work.node ∧ ofRequest r y = true then 1 else 0) =
        if r = y.request then 1 else 0 := by
      by_cases hry : r = y.request
      · subst hry
        cases Option.some.inj (hr₂.symm.trans hreq)
        simp [ofRequest]
      · rw [if_neg fun h => hry (of_decide_eq_true h.2).symm, if_neg hry]
    rw [hone] at hsplit
    rw [hwork, hremaining]
    have hnow : ((s.setPool req.work.node ((s.pools req.work.node).goto w (.looking 0))).pools
        req₂.work.node).pending (ofRequest r) =
          (s.pools req₂.work.node).pending (ofRequest r) - if r = y.request then 1 else 0 := by omega
    exact ⟨hnow.trans_le (Nat.sub_le_sub_right hle _),
      fun hrun => hnow.trans (by rw [heq hrun])⟩

theorem count_items (r size : ℕ) (y : Item) :
    (items r size).count y = if y.request = r ∧ y.shard < size then 1 else 0 := by
  unfold items
  obtain ⟨a, b⟩ := y
  by_cases har : a = r
  · subst har
    rw [List.count_map_of_injective _ _ (fun i j h => (Item.mk.inj h).2)]
    simp [List.count_range]
  · rw [if_neg fun h => har h.1]
    apply List.count_eq_zero.2
    intro hmem
    obtain ⟨k, _, hk⟩ := List.mem_map.1 hmem
    exact har (Item.mk.inj hk).1.symm

theorem countP_items (r size q : ℕ) :
    (items r size).countP (ofRequest q) = if q = r then size else 0 := by
  unfold items
  rw [List.countP_map]
  by_cases hqr : q = r
  · have hall : ∀ k ∈ List.range size,
        (ofRequest q ∘ fun shard => (⟨r, shard⟩ : Item)) k = true :=
      fun k _ => decide_eq_true hqr.symm
    rw [if_pos hqr, List.countP_eq_length.2 hall, List.length_range]
  · rw [if_neg hqr]
    exact List.countP_eq_zero.2 fun k _ h => hqr (of_decide_eq_true h).symm

theorem tally_append (y : Item) (l : List Item) :
    ({ p with queue := p.queue ++ l } : Pool Item).tally y = p.tally y + l.count y := by
  show (p.queue ++ l).count y + _ = _
  rw [List.count_append, Nat.add_right_comm]
  rfl

theorem pending_append (f : Item → Bool) (l : List Item) :
    ({ p with queue := p.queue ++ l } : Pool Item).pending f = p.pending f + l.countP f := by
  show (p.queue ++ l).countP f + _ = _
  rw [List.countP_append, Nat.add_right_comm]
  rfl

/-- Nothing is anywhere of a submission that is not made yet. -/
theorem Books.pending_new (h : Books s) (n : ℕ) :
    (s.pools n).pending (ofRequest s.requests.length) = 0 := by
  by_contra hpos
  obtain ⟨y, hy, hpending⟩ := pending_pos (Nat.pos_of_ne_zero hpos)
  obtain ⟨req, hreq, _⟩ := h.here n y hpending
  have hlt := (List.getElem?_eq_some_iff.1 hreq).1
  rw [of_decide_eq_true hy] at hlt
  exact Nat.lt_irrefl _ hlt

theorem Books.tally_new (h : Books s) (n k : ℕ) :
    (s.pools n).tally ⟨s.requests.length, k⟩ = 0 := by
  have hle : (s.pools n).tally ⟨s.requests.length, k⟩ ≤ _ := tally_le_pending
  by_contra hpos
  obtain ⟨req, hreq, _⟩ :=
    h.here n _ (lt_of_lt_of_le (Nat.pos_of_ne_zero hpos) hle)
  exact Nat.lt_irrefl _ (List.getElem?_eq_some_iff.1 hreq).1

/-- A submission was made before, or is the new one. -/
theorem request_cases {l : List Request} {new req : Request} (hr : (l ++ [new])[r]? = some req) :
    l[r]? = some req ∧ r ≠ l.length ∨ r = l.length ∧ req = new := by
  rcases Nat.lt_trichotomy r l.length with hlt | heq | hgt
  · rw [List.getElem?_append_left hlt] at hr
    exact .inl ⟨hr, Nat.ne_of_lt hlt⟩
  · rw [heq, List.getElem?_concat_length] at hr
    exact .inr ⟨heq, (Option.some.inj hr).symm⟩
  · rw [List.getElem?_eq_none (by simp; omega)] at hr
    cases hr

/-- **The shards of a submission are queued.** -/
theorem Books.push (h : Books s) (work : Work) :
    Books { s.setPool work.node { s.pools work.node with
      queue := (s.pools work.node).queue ++ items s.requests.length work.size } with
        requests := s.requests ++ [⟨work, work.size⟩] } := by
  generalize hl : items s.requests.length work.size = l
  have htally : ∀ m y, ((s.setPool work.node { s.pools work.node with
      queue := (s.pools work.node).queue ++ l }).pools m).tally y =
        (s.pools m).tally y + if m = work.node then l.count y else 0 := by
    intro m y
    refine forall_setPool (P := fun m q => q.tally y = (s.pools m).tally y +
      if m = work.node then l.count y else 0) ?_ ?_ m
    · rw [tally_append, if_pos rfl]
    · intro m hm
      rw [if_neg hm, Nat.add_zero]
  have hpending : ∀ m f, ((s.setPool work.node { s.pools work.node with
      queue := (s.pools work.node).queue ++ l }).pools m).pending f =
        (s.pools m).pending f + if m = work.node then l.countP f else 0 := by
    intro m f
    refine forall_setPool (P := fun m q => q.pending f = (s.pools m).pending f +
      if m = work.node then l.countP f else 0) ?_ ?_ m
    · rw [pending_append, if_pos rfl]
    · intro m hm
      rw [if_neg hm, Nat.add_zero]
  refine ⟨fun m y hy => ?_, fun y hy => ?_, fun r req hr k => ?_, fun r req hr => ?_⟩
  · have hy' : 0 < ((s.setPool work.node { s.pools work.node with
        queue := (s.pools work.node).queue ++ l }).pools m).pending (isItem y) := hy
    rw [hpending] at hy'
    by_cases hold : 0 < (s.pools m).pending (isItem y)
    · obtain ⟨req, hreq, hrest⟩ := h.here m y hold
      refine ⟨req, ?_, hrest⟩
      show (s.requests ++ _)[y.request]? = _
      rw [List.getElem?_append_left (List.getElem?_eq_some_iff.1 hreq).1]
      exact hreq
    · split at hy'
      · rename_i hm
        obtain ⟨z, hz, hzy⟩ := List.countP_pos_iff.1 (by omega : 0 < l.countP (isItem y))
        rw [of_decide_eq_true hzy, ← hl] at hz
        obtain ⟨k, hk, rfl⟩ := List.mem_map.1 hz
        exact ⟨_, List.getElem?_concat_length, hm.symm, List.mem_range.1 hk⟩
      · omega
  · show y.request < (s.requests ++ _).length
    rw [List.length_append]
    exact Nat.lt_add_right _ (h.old y hy)
  · have hcount : l.count ⟨r, k⟩ = if r = s.requests.length ∧ k < work.size then 1 else 0 := by
      rw [← hl, count_items]
    have hsum : ((s.setPool work.node { s.pools work.node with
        queue := (s.pools work.node).queue ++ l }).pools req.work.node).tally ⟨r, k⟩ =
          (s.pools req.work.node).tally ⟨r, k⟩ +
            if req.work.node = work.node ∧ r = s.requests.length ∧ k < work.size then 1 else 0 := by
      rw [htally, hcount]
      by_cases hm : req.work.node = work.node <;> simp [hm]
    rcases request_cases hr with ⟨hr, hne⟩ | ⟨rfl, rfl⟩
    · obtain ⟨hle, heq⟩ := h.once r req hr k
      rw [if_neg fun h => hne h.2.1, Nat.add_zero] at hsum
      rw [← hsum] at hle heq
      exact ⟨hle, heq⟩
    · have hexec : s.executed.count ⟨s.requests.length, k⟩ = 0 :=
        List.count_eq_zero.2 fun hmem => Nat.lt_irrefl _ (h.old _ hmem)
      rw [h.tally_new, Nat.zero_add] at hsum
      constructor
      · refine (congrArg₂ (· + ·) hsum hexec).trans_le ?_
        split <;> decide
      · intro _ hk
        refine (congrArg₂ (· + ·) hsum hexec).trans ?_
        rw [if_pos ⟨rfl, rfl, hk⟩]
  · have hsum : ((s.setPool work.node { s.pools work.node with
        queue := (s.pools work.node).queue ++ l }).pools req.work.node).pending (ofRequest r) =
          (s.pools req.work.node).pending (ofRequest r) +
            if req.work.node = work.node ∧ r = s.requests.length then work.size else 0 := by
      rw [hpending, ← hl, countP_items]
      by_cases hm : req.work.node = work.node <;> simp [hm]
    rcases request_cases hr with ⟨hr, hne⟩ | ⟨rfl, rfl⟩
    · obtain ⟨hle, heq⟩ := h.remaining r req hr
      rw [if_neg fun h => hne h.2, Nat.add_zero] at hsum
      rw [← hsum] at hle heq
      exact ⟨hle, heq⟩
    · rw [h.pending_new, Nat.zero_add, if_pos ⟨rfl, rfl⟩] at hsum
      exact ⟨Nat.le_of_eq hsum, fun _ => hsum⟩

/-- A pool loses what it has, when the engine is shut down. -/
theorem Books.lose (h : Books s) (hrun : s.stage ≠ .running)
    (htally : ∀ y, p.tally y ≤ (s.pools n).tally y)
    (hpending : ∀ f, p.pending f ≤ (s.pools n).pending f) : Books (s.setPool n p) := by
  have htally' : ∀ m y, ((s.setPool n p).pools m).tally y ≤ (s.pools m).tally y := fun m y =>
    forall_setPool (P := fun m q => q.tally y ≤ (s.pools m).tally y) (htally y)
      (fun _ _ => Nat.le_refl _) m
  have hpending' : ∀ m f, ((s.setPool n p).pools m).pending f ≤ (s.pools m).pending f :=
    fun m f => forall_setPool (P := fun m q => q.pending f ≤ (s.pools m).pending f) (hpending f)
      (fun _ _ => Nat.le_refl _) m
  refine ⟨fun m y hy => h.here m y (lt_of_lt_of_le hy (hpending' m _)), h.old, fun r req hr k => ?_,
    fun r req hr => ?_⟩
  · exact ⟨(Nat.add_le_add_right (htally' _ _) _).trans (h.once r req hr k).1,
      fun hrunning => absurd hrunning hrun⟩
  · exact ⟨(hpending' _ _).trans (h.remaining r req hr).1, fun hrunning => absurd hrunning hrun⟩

/-- Before its workers are created a pool is as good as empty. -/
theorem Books.spawn (h : Books s) {workers : List (Worker Item)} (hnone : (s.pools n).workers = [])
    (hitems : ∀ a ∈ workers, a.item = none) (spawned : Bool) :
    Books (s.setPool n { s.pools n with workers := workers, spawned := spawned }) := by
  refine h.setPool (fun y => congrArg ((s.pools n).queue.count y + ·) ?_)
    fun f => congrArg ((s.pools n).queue.countP f + ·) ?_
  · rw [hnone]
    refine List.count_eq_zero.2 fun hmem => ?_
    cases hitems _ hmem
  · rw [hnone]
    refine List.countP_eq_zero.2 fun a ha hf => ?_
    unfold Worker.worksOn at hf
    rw [hitems a ha] at hf
    cases hf

/-- **A submitter's pool changes.** -/
theorem Books.setSubmitter (h : Books s) (e : ℕ) (x : Submitter) : Books (s.setSubmitter e x) :=
  h.congr rfl rfl (fun h => h) (fun _ _ => rfl) fun _ _ => rfl

/-- Nothing was submitted yet, when the engine is initialised again. -/
theorem Books.restart (h : Books s) (hnone : s.requests = []) :
    Books { s with initialized := true, stop := false, stage := .running } := by
  have hno : ∀ (r : ℕ) (req : Request), s.requests[r]? ≠ some req := fun r req => by
    rw [hnone]
    simp
  exact ⟨h.here, h.old, fun r req hr => absurd hr (hno r req), fun r req hr => absurd hr (hno r req)⟩

theorem Staff.requests_nil (h : Staff cfg s) (hnone : ∀ n, (s.pools n).spawned = false) :
    s.requests = [] := by
  refine List.eq_nil_iff_forall_not_mem.2 fun req hreq => ?_
  have hspawned := h.made req hreq
  rw [hnone] at hspawned
  cases hspawned

theorem Books.step (h : Books s) (hs : Staff cfg s) (hwithin : Within cfg s) {l : Label}
    (hcalm : Calm cfg s l = true) (hstep : step cfg s l = some s') : Books s' := by
  have hkeep : ∀ t : Engine, t.requests = s.requests → t.executed = s.executed →
      t.pools = s.pools → (t.stage = .running → s.stage = .running) → Books t := by
    intro t hr he hp hstage
    exact h.congr hr he hstage (fun n y => by rw [hp]) fun n f => by rw [hp]
  cases Step.of_step hstep with
  | started | refuse => exact h
  | start hinit =>
    rcases hs.opened hinit with hrun | hclosed
    · exact hkeep _ rfl rfl rfl fun _ => hrun
    · exact h.restart (hs.requests_nil (hwithin.unspawned hclosed hcalm))
  | submit | notifyNone => exact hkeep _ rfl rfl rfl fun h => h
  | @spawn e work hx =>
    refine Books.setSubmitter (?_ : Books (s.setPool work.node _)) e _
    split
    · rw [setPool_pools]
      exact h
    · rename_i hno
      refine h.spawn ((hs.pools work.node).unstaffed (by simpa using hno)) (fun a ha => ?_) true
      rw [List.eq_of_mem_replicate ha]
      rfl
  | @push e work => exact (h.push work).setSubmitter e _
  | @publish e n k =>
    exact (h.setPool (n := n) (p := { s.pools n with hint := (s.pools n).hint + k })
      (fun _ => rfl) fun _ => rfl).setSubmitter e _
  | @notifyPool e n =>
    exact (h.setPool (n := n) (fun _ => Pool.tally_notifyAll)
      fun _ => Pool.pending_notifyAll).setSubmitter e _
  | @notifyOne e n k w hx hw =>
    exact (h.setPool (n := n) (p := (s.pools n).goto w .locking)
      (fun _ => Pool.tally_goto hw (by simp) (by simp))
      fun _ => Pool.pending_goto hw rfl).setSubmitter e _
  | move hmove => exact h.setPool (fun _ => Pool.tally_move hmove) fun _ => Pool.pending_move hmove
  | execute hw => exact h.execute hw
  | @complete n w y req hw hreq =>
    obtain ⟨_, hstage, _, hpools, _, hexecuted, hrequests⟩ :=
      finish_frame cfg (s.setPool n ((s.pools n).goto w (.looking 0))) y.request req
    exact (h.complete hw hreq).congr hrequests hexecuted (fun h => hstage ▸ h)
      (fun m y => by rw [hpools]) fun m f => by rw [hpools]
  | spurious hw =>
    exact h.setPool (fun _ => Pool.tally_goto hw (by simp) (by simp))
      fun _ => Pool.pending_goto hw rfl
  | @poll owner seq max =>
    obtain ⟨_, hstage, _, hpools, _, hexecuted, hrequests, _⟩ := poll_frame s owner seq max
    exact hkeep _ hrequests hexecuted hpools fun h => hstage ▸ h
  | shutdown | notified | close => exact hkeep _ rfl rfl rfl fun h => by cases h
  | @notifyAll k =>
    exact (h.setPool (n := k) (fun _ => Pool.tally_notifyAll)
      fun _ => Pool.pending_notifyAll).congr rfl rfl (fun h => by cases h) (fun _ _ => rfl)
        fun _ _ => rfl
  | @join k hstage =>
    -- the queue that is thrown away is at most what it was
    refine (h.lose (n := k) (by simp [hstage]) (fun y => ?_) fun f => ?_).congr rfl rfl
      (fun h => by cases h) (fun _ _ => rfl) fun _ _ => rfl
    · refine Nat.add_le_add ?_ (Nat.zero_le _)
      show (if _ then _ else _ : List Item).count y ≤ _
      split
      · exact Nat.zero_le _
      · exact Nat.le_refl _
    · refine Nat.add_le_add ?_ (Nat.zero_le _)
      show (if _ then _ else _ : List Item).countP f ≤ _
      split
      · exact Nat.zero_le _
      · exact Nat.le_refl _

end HostPools
end Executor
end HyLink
