import HyLink.Fastpath.AllReduce
import HyLink.Theory.Agenda

/-!
# What the workers and their streams keep in order

The step of the system case by case, and the invariants of the lists and of the
words of the slot, for every interleaving.

* `AllReduce.pending` — the kernels that have an element still to process; a
  step never adds to it (`AllReduce.pending_of_step`).
* `AllReduce.Protocol` — the lists of a worker belong together, and a word of
  the slot means what its readers take it to mean; kept by every step
  (`AllReduce.Protocol.step`).
* `AllReduce.allRead` — no peer has still to read a send buffer.
-/

namespace HyLink
namespace Fastpath

variable {V : Type}

namespace StreamOp

/-- The source a kernel copies from. -/
def source? : StreamOp → Option SourceInfo
  | .seed src | .load src => some src
  | .reduce | .reduceOwn => none

/-- The kernel reads the send buffer of rank `s`. -/
def readsFrom (s : ℕ) (op : StreamOp) : Bool := op.source? = some (.device s)

/-- The kernel writes the receive buffer. -/
def writesRecv : StreamOp → Bool
  | .load _ => false
  | .seed _ | .reduce | .reduceOwn => true

end StreamOp

namespace AllReduce

variable (c : AllReduce V)

/-! ## What is left to do -/

/-- The kernels that have not processed element `i` at rank `r`: those launched and those
still to be launched. -/
def pending (st : State V) (r i : ℕ) : List StreamOp :=
  (if i ∈ (st.worker r).processed then (st.worker r).queue.tail else (st.worker r).queue) ++
    (st.worker r).todo.flatMap (c.launched r)

/-- Rank `r` has still to read element `i` of the send buffer of `s`. -/
def unread (st : State V) (r s i : ℕ) : Bool := (c.pending st r i).any (StreamOp.readsFrom s)

/-- No peer has anything to read from the send buffer of `r`. -/
def allRead (st : State V) (r : ℕ) : Bool :=
  (List.range c.worldSize).all fun s => s == r ||
    (List.range c.count).all fun i => !c.unread st s r i

/-- An in-place rank writes its buffer only once its peers have read it. -/
def readersFinished (st : State V) : Label → Bool
  | .element r _ =>
    match (st.worker r).queue with
    | op :: _ => !(c.inPlace r && op.writesRecv) || c.allRead st r
    | [] => true
  | _ => true

/-- What a step does to the send buffers. -/
inductive Access where
  /-- The first rank reads the buffer of the second. -/
  | read (reader owner : ℕ)
  /-- The rank writes its buffer. -/
  | overwrite (owner : ℕ)
  deriving DecidableEq, Repr

/-- The accesses of a step to send buffers: reads by peers, and writes by the owner. -/
def accesses (st : State V) : Label → List Access
  | .element r _ =>
    match (st.worker r).queue with
    | op :: _ =>
      (((List.range c.worldSize).filter fun s => s != r && op.readsFrom s).map (.read r)) ++
        if c.inPlace r && op.writesRecv then [.overwrite r] else []
    | [] => []
  | _ => []

/-- The second access is not a read of what the first has overwritten. -/
def NotLate (a b : Access) : Prop := ∀ s r, a = .overwrite s → b ≠ .read r s

variable {c}

/-! ## What an operation of the worker does -/

theorem status_publish (w : SlotWords) (r p : ℕ) (ok : Bool) :
    c.getFastpathDirectStatus (c.publishFastpathDirectStatus w r ok) p =
      if p = r then some ok else c.getFastpathDirectStatus w p := by
  have hpos := c.workSeq_pos
  by_cases hp : p = r
  · subst hp
    cases ok <;> simp [getFastpathDirectStatus, publishFastpathDirectStatus, hpos.ne]
  · cases ok <;> simp [getFastpathDirectStatus, publishFastpathDirectStatus, hp]

variable (c) in
/-- What rank `r` does when its worker, in state `w` and with `op` dropped from its list,
does `op`. -/
structure HostEffect (st st' : State V) (r : ℕ) (w w' : Worker) (op : HostOp) : Prop where
  worker : st'.worker = Function.update st.worker r w'
  todo : w'.todo = w.todo
  queue : w'.queue = w.queue ++ c.launched r op
  processed : w'.processed = w.processed
  userReady : w'.userReady = w.userReady
  mem : st'.mem = st.mem ∨
    op = .stage ∧ w.allDirect = false ∧ st'.mem = stageLocalSource st.mem r
  readySeq : ∀ s, st'.words.readySeq s = c.workSeq ↔
    st.words.readySeq s = c.workSeq ∨ s = r ∧ op = .ready
  stageSeq : ∀ s, st'.words.stageSeq s = c.workSeq ↔
    st.words.stageSeq s = c.workSeq ∨ s = r ∧ op = .stage
  status : ∀ p, c.getFastpathDirectStatus st'.words p =
    if p = r ∧ op = .publishStatus then some (c.localNeedsAllDirectSources r)
    else c.getFastpathDirectStatus st.words p
  allDirect : w'.allDirect = true → w.allDirect = true ∧
    ∀ p, op = .resolve p → c.getFastpathDirectStatus st.words p = some true
  waited : op = .ready → w.userReady = true
  source : ∀ s, op = .seed s ∨ op = .fold s → c.sourceReady st.words r s = true
  drained : op = .synchronize → w.queue = []

theorem hostStep_effect {st st' : State V} {r : ℕ} {w : Worker} {op : HostOp}
    (h : c.hostStep st r w op = some st') : ∃ w', c.HostEffect st st' r w w' op := by
  cases op with
  | ready =>
    simp only [hostStep, Option.ite_none_right_eq_some, Option.some.injEq] at h
    obtain ⟨hu, rfl⟩ := h
    refine ⟨w, rfl, rfl, (List.append_nil _).symm, rfl, rfl, Or.inl rfl, fun s => ?_, by simp,
      by simp [getFastpathDirectStatus], by simp, fun _ => hu, by simp, by simp⟩
    by_cases hs : s = r <;> simp [hs]
  | publishStatus =>
    simp only [hostStep, Option.some.injEq] at h
    subst h
    refine ⟨w, rfl, rfl, (List.append_nil _).symm, rfl, rfl, Or.inl rfl, fun s => ?_,
      fun s => ?_, by simp [status_publish], by simp, by simp, by simp, by simp⟩
    · cases hb : c.localNeedsAllDirectSources r <;> simp [publishFastpathDirectStatus]
    · cases hb : c.localNeedsAllDirectSources r <;> simp [publishFastpathDirectStatus]
  | resolve p =>
    simp only [hostStep, Option.map_eq_some_iff] at h
    obtain ⟨ok, hok, rfl⟩ := h
    refine ⟨_, rfl, rfl, (List.append_nil _).symm, rfl, rfl, Or.inl rfl, by simp, by simp,
      by simp, fun hall => ?_, by simp, by simp, by simp⟩
    simp only [Bool.and_eq_true] at hall
    refine ⟨hall.1, fun q hq => ?_⟩
    cases hq
    rw [hok, hall.2]
  | stage =>
    simp only [hostStep, Option.some.injEq] at h
    subst h
    refine ⟨w, rfl, rfl, (List.append_nil _).symm, rfl, rfl, ?_, by simp, fun s => ?_,
      by simp [getFastpathDirectStatus], by simp, by simp, by simp, by simp⟩
    · cases hw : w.allDirect with
      | true => exact Or.inl rfl
      | false => exact Or.inr ⟨rfl, rfl, rfl⟩
    · by_cases hs : s = r <;> simp [hs]
  | seed s =>
    simp only [hostStep, Option.ite_none_right_eq_some, Option.some.injEq] at h
    obtain ⟨hready, rfl⟩ := h
    exact ⟨_, rfl, rfl, rfl, rfl, rfl, Or.inl rfl, by simp, by simp, by simp, by simp, by simp,
      by simp [hready], by simp⟩
  | fold s =>
    simp only [hostStep, Option.ite_none_right_eq_some, Option.some.injEq] at h
    obtain ⟨hready, rfl⟩ := h
    exact ⟨_, rfl, rfl, rfl, rfl, rfl, Or.inl rfl, by simp, by simp, by simp, by simp, by simp,
      by simp [hready], by simp⟩
  | synchronize | leave =>
    simp only [hostStep, Option.ite_none_right_eq_some, Option.some.injEq] at h
    obtain ⟨hwait, rfl⟩ := h
    exact ⟨w, rfl, rfl, (List.append_nil _).symm, rfl, rfl, Or.inl rfl, by simp, by simp,
      by simp, by simp, by simp, by simp, by simp [hwait]⟩
  | arrive =>
    simp only [hostStep, Option.some.injEq] at h
    subst h
    refine ⟨_, rfl, rfl, (List.append_nil _).symm, rfl, rfl, Or.inl rfl, fun s => ?_,
      fun s => ?_, fun p => ?_, by simp, by simp, by simp, by simp⟩
    all_goals
      unfold arriveBarrier
      split <;> simp [getFastpathDirectStatus]

/-- The step of the system, case by case. -/
theorem step_cases {st st' : State V} {l : Label} (h : c.step st l = some st') :
    (∃ r, l = .user r ∧ r < c.worldSize ∧ (st.worker r).userReady = false ∧
      st' = { st with
        mem := Function.update st.mem (.send r) (c.input r)
        worker := Function.update st.worker r { st.worker r with userReady := true } }) ∨
    (∃ r op rest, l = .host r ∧ r < c.worldSize ∧ (st.worker r).todo = op :: rest ∧
      c.hostStep st r { st.worker r with todo := rest } op = some st') ∨
    (∃ r i op rest, l = .element r i ∧ (st.worker r).queue = op :: rest ∧ i < c.count ∧
      i ∉ (st.worker r).processed ∧
      st' = { st with
        mem := c.runElement st.mem r i op
        worker := Function.update st.worker r
          { st.worker r with processed := i :: (st.worker r).processed } }) ∨
    ∃ r op rest, l = .retire r ∧ (st.worker r).queue = op :: rest ∧
      (∀ i < c.count, i ∈ (st.worker r).processed) ∧
      st' = { st with
        worker := Function.update st.worker r
          { st.worker r with queue := rest, processed := [] } } := by
  cases l with
  | user r =>
    simp only [step, Option.ite_none_right_eq_some, Option.some.injEq] at h
    obtain ⟨⟨hr, hu⟩, rfl⟩ := h
    exact Or.inl ⟨r, rfl, hr, hu, rfl⟩
  | host r =>
    cases htodo : (st.worker r).todo with
    | nil => simp [step, htodo] at h
    | cons op rest =>
      simp only [step, htodo, Option.ite_none_right_eq_some] at h
      exact Or.inr (Or.inl ⟨r, op, rest, rfl, h.1, htodo, h.2⟩)
  | element r i =>
    cases hqueue : (st.worker r).queue with
    | nil => simp [step, hqueue] at h
    | cons op rest =>
      simp only [step, hqueue, Option.ite_none_right_eq_some, Option.some.injEq] at h
      obtain ⟨⟨hi, hnew⟩, rfl⟩ := h
      exact Or.inr (Or.inr (Or.inl ⟨r, i, op, rest, rfl, hqueue, hi, hnew, by rw [← hqueue]⟩))
  | retire r =>
    cases hqueue : (st.worker r).queue with
    | nil => simp [step, hqueue] at h
    | cons op rest =>
      simp only [step, hqueue, Option.ite_none_right_eq_some, Option.some.injEq] at h
      obtain ⟨hall, rfl⟩ := h
      exact Or.inr (Or.inr (Or.inr ⟨r, op, rest, rfl, hqueue, hall, rfl⟩))

/-- **Pending work only shrinks.**  A step leaves what is pending for an element as it was,
or processes the element with the first pending kernel. -/
theorem pending_of_step {st st' : State V} {l : Label}
    (hidle : ∀ r, (st.worker r).queue = [] → (st.worker r).processed = [])
    (h : c.step st l = some st') {s j : ℕ} (hj : j < c.count) :
    c.pending st' s j = c.pending st s j ∨
      ∃ op rest, l = .element s j ∧ (st.worker s).queue = op :: rest ∧
        c.pending st s j = op :: c.pending st' s j := by
  obtain ⟨r, rfl, -, -, rfl⟩ | ⟨r, op, rest, rfl, -, htodo, hhost⟩ |
    ⟨r, i, op, rest, rfl, hqueue, -, hnew, rfl⟩ | ⟨r, op, rest, rfl, hqueue, hall, rfl⟩ :=
    step_cases h
  · left
    by_cases hs : s = r
    · subst hs; simp [pending]
    · simp [pending, hs]
  · left
    obtain ⟨w', heff⟩ := hostStep_effect hhost
    obtain ⟨hw', htodo', hqueue', hprocessed'⟩ :=
      (⟨heff.worker, heff.todo, heff.queue, heff.processed⟩ : _ ∧ _ ∧ _ ∧ _)
    dsimp only at htodo' hqueue' hprocessed'
    by_cases hs : s = r
    · subst hs
      by_cases hp : j ∈ (st.worker s).processed
      · have hne : (st.worker s).queue ≠ [] := fun hnil => by simp [hidle s hnil] at hp
        simp [pending, hw', htodo', hqueue', hprocessed', htodo, hp,
          List.tail_append_of_ne_nil hne]
      · simp [pending, hw', htodo', hqueue', hprocessed', htodo, hp]
    · simp [pending, hw', hs]
  · by_cases hs : s = r
    · subst hs
      by_cases hij : j = i
      · subst hij
        exact Or.inr ⟨op, rest, rfl, hqueue, by simp [pending, hqueue, hnew]⟩
      · left
        simp [pending, hij]
    · left
      simp [pending, hs]
  · left
    by_cases hs : s = r
    · subst hs
      simp [pending, hqueue, hall j hj]
    · simp [pending, hs]

/-! ## The order of a worker's operations -/

theorem mem_executeAllReduce {r : ℕ} {op : HostOp} (h : op ∈ c.executeAllReduce r) :
    (op = .seed (c.seedSource r) ∧ c.inPlace r = false) ∨
      (∃ s ∈ c.foldSources r, op = .fold s) ∨ op = .synchronize := by
  simp only [executeAllReduce, List.mem_append, List.mem_map, List.mem_singleton] at h
  obtain (h | ⟨s, hs, rfl⟩) | rfl := h
  · cases hp : c.inPlace r with
    | true => simp [hp] at h
    | false => simp only [hp, Bool.false_eq_true, if_false, List.mem_singleton] at h
               exact Or.inl ⟨h, rfl⟩
  · exact Or.inr (Or.inl ⟨s, hs, rfl⟩)
  · exact Or.inr (Or.inr rfl)

/-- Once the stage word is written, the list holds the launches and the end. -/
theorem not_mem_after_stage {r : ℕ} {op : HostOp} (h : op ∈ c.executeAllReduce r ++ [.arrive, .leave]) :
    op ≠ .ready ∧ op ≠ .publishStatus ∧ op ≠ .stage ∧ ∀ p, op ≠ .resolve p := by
  rcases List.mem_append.1 h with h | h
  · obtain ⟨rfl, -⟩ | ⟨s, -, rfl⟩ | rfl := mem_executeAllReduce h <;> simp
  · simp only [List.mem_cons, List.not_mem_nil, or_false] at h
    rcases h with rfl | rfl <;> simp

theorem execute_eq (r : ℕ) :
    ∃ tail, c.execute r = .ready :: tail ∧ HostOp.ready ∉ tail := by
  refine ⟨.publishStatus :: ((List.range c.worldSize).map .resolve ++ .stage ::
    (c.executeAllReduce r ++ [.arrive, .leave])), by simp [execute], fun hm => ?_⟩
  simp only [List.mem_cons, List.mem_append, List.mem_map] at hm
  rcases hm with h | ⟨p, -, h⟩ | h | hm
  · cases h
  · cases h
  · cases h
  · exact (not_mem_after_stage (by simpa using hm)).1 rfl

theorem ready_notMem {r : ℕ} {op : HostOp} {rest : List HostOp}
    (h : op :: rest <:+ c.execute r) : HostOp.ready ∉ rest := by
  intro hmem
  obtain ⟨tail, htail, hready⟩ := c.execute_eq r
  exact List.not_mem_nil (Theory.mem_of_suffix_cons (p := []) hready (by simpa [htail] using h) hmem)

/-- A list that still waits for the user's stream is the whole list. -/
theorem eq_execute_of_ready_mem {r : ℕ} {todo : List HostOp} (h : todo <:+ c.execute r)
    (hmem : HostOp.ready ∈ todo) : todo = c.execute r := by
  obtain ⟨tail, htail, hready⟩ := c.execute_eq r
  rw [htail] at h ⊢
  rcases List.suffix_cons_iff.1 h with heq | hsuf
  · exact heq
  · exact absurd (hsuf.subset hmem) hready

/-- What stands before the stage word launches nothing. -/
theorem launched_of_stage_mem {r : ℕ} {op : HostOp} {rest : List HostOp}
    (h : op :: rest <:+ c.execute r) (hmem : HostOp.stage ∈ rest) : c.launched r op = [] := by
  have hx : HostOp.stage ∉ c.executeAllReduce r ++ [.arrive, .leave] :=
    fun hm => (not_mem_after_stage hm).2.2.1 rfl
  have hpre : op ∈ [.ready, .publishStatus] ++ (List.range c.worldSize).map HostOp.resolve :=
    Theory.mem_of_suffix_cons hx (by simpa [execute] using h) hmem
  simp only [List.mem_append, List.mem_cons, List.not_mem_nil, or_false, List.mem_map] at hpre
  obtain (rfl | rfl) | ⟨p, -, rfl⟩ := hpre <;> rfl

/-- Behind the end of the stream launches nothing. -/
theorem launched_of_synchronize_notMem {r : ℕ} {op : HostOp} {rest : List HostOp}
    (h : op :: rest <:+ c.execute r) (hmem : HostOp.synchronize ∉ op :: rest) :
    c.launched r op = [] := by
  have hpost : op ∈ [HostOp.arrive, .leave] := by
    refine Theory.mem_post_of_suffix_cons (p := [.ready, .publishStatus] ++
      (List.range c.worldSize).map .resolve ++ [.stage] ++
      ((if c.inPlace r then [] else [.seed (c.seedSource r)]) ++ (c.foldSources r).map .fold))
      ?_ hmem
    simpa [execute, executeAllReduce] using h
  simp only [List.mem_cons, List.not_mem_nil, or_false] at hpost
  rcases hpost with rfl | rfl <;> rfl

/-- Behind the stage word no status is resolved. -/
theorem resolve_notMem {r : ℕ} {rest : List HostOp} (h : .stage :: rest <:+ c.execute r) (p : ℕ) :
    HostOp.resolve p ∉ HostOp.stage :: rest := by
  intro hmem
  have hpost : rest <:+ c.executeAllReduce r ++ [.arrive, .leave] := by
    refine Theory.suffix_of_suffix_cons (x := HostOp.stage) (p := [.ready, .publishStatus] ++
      (List.range c.worldSize).map .resolve) (by simp) ?_
    simpa [execute] using h
  rcases List.mem_cons.1 hmem with h | h
  · cases h
  · exact (not_mem_after_stage (hpost.subset h)).2.2.2 p rfl

/-- The kernels a rank launches. -/
theorem mem_launched {r : ℕ} {hop : HostOp} {op : StreamOp} (hmem : hop ∈ c.execute r)
    (h : op ∈ c.launched r hop) :
    (hop = .seed (c.seedSource r) ∧ c.inPlace r = false ∧
      op = .seed (c.sourceInfo r (c.seedSource r))) ∨
    (hop = .fold r ∧ c.inPlace r = false ∧ op = .reduceOwn) ∨
    ∃ s, s ≠ r ∧ hop = .fold s ∧ (op = .load (c.sourceInfo r s) ∨ op = .reduce) := by
  have hexec : hop ∈ c.executeAllReduce r := by
    simp only [execute, List.mem_append, List.mem_cons, List.not_mem_nil, or_false,
      List.mem_map] at hmem
    obtain ((((rfl | rfl) | ⟨p, -, rfl⟩) | rfl) | hm) | rfl | rfl := hmem
    all_goals first | exact hm | simp [launched] at h
  obtain ⟨rfl, hp⟩ | ⟨s, hs, rfl⟩ | rfl := mem_executeAllReduce hexec
  · exact Or.inl ⟨rfl, hp, by simpa [launched] using h⟩
  · by_cases hsr : s = r
    · subst hsr
      refine Or.inr (Or.inl ⟨rfl, ?_, by simpa [launched] using h⟩)
      cases hp : c.inPlace s with
      | true => simp [foldSources, seedSource, hp] at hs
      | false => rfl
    · exact Or.inr (Or.inr ⟨s, hsr, rfl, by simpa [launched, hsr] using h⟩)
  · simp [launched] at h

theorem seedSource_lt {r : ℕ} (hr : r < c.worldSize) : c.seedSource r < c.worldSize := by
  unfold seedSource
  split
  · exact hr
  · cases h : (List.range c.worldSize).find? fun s => s != r with
    | none => exact hr
    | some s => exact List.mem_range.1 (List.mem_of_find?_eq_some h)

/-- The ranks whose contributions an operation launches are ranks of the communicator. -/
theorem source_lt {r s : ℕ} (hr : r < c.worldSize) {op : HostOp} (hmem : op ∈ c.execute r)
    (hop : op = .seed s ∨ op = .fold s) : s < c.worldSize := by
  have hexec : op ∈ c.executeAllReduce r := by
    rcases hop with rfl | rfl <;> simpa [execute] using hmem
  obtain ⟨rfl, -⟩ | ⟨t, ht, rfl⟩ | rfl := mem_executeAllReduce hexec
  · simp only [HostOp.seed.injEq, reduceCtorEq, or_false] at hop
    exact hop ▸ seedSource_lt hr
  · simp only [reduceCtorEq, HostOp.fold.injEq, false_or] at hop
    exact hop ▸ List.mem_range.1 (List.mem_filter.1 ht).1
  · simp at hop

/-! ## The words and the lists -/

variable (c) in
/-- What a launched kernel of rank `r` relies on. -/
structure Fed (st : State V) (r : ℕ) (op : StreamOp) : Prop where
  rank : r < c.worldSize
  /-- An in-place rank copies nothing to its buffer. -/
  outOfPlace : op.writesRecv = true → op ≠ .reduce → c.inPlace r = false
  device : ∀ s, op.source? = some (.device s) →
    (st.worker s).userReady = true ∧ (s = r → c.inPlace r = false) ∧
      (s ≠ r → c.bound r s = true)
  host : ∀ s, op.source? = some (.host s) →
    c.bound r s = false ∧ s ≠ r ∧ s < c.worldSize ∧ st.words.stageSeq s = c.workSeq

variable (c) in
/-- How the lists of a worker belong together. -/
structure Orderly (st : State V) (r : ℕ) : Prop where
  idle : (st.worker r).queue = [] → (st.worker r).processed = []
  todo : (st.worker r).todo <:+ c.execute r
  staged : HostOp.stage ∈ (st.worker r).todo → (st.worker r).queue = []
  drained : HostOp.synchronize ∉ (st.worker r).todo → (st.worker r).queue = []
  unready : (st.worker r).userReady = false → HostOp.ready ∈ (st.worker r).todo
  resolved : (st.worker r).allDirect = true → ∀ p < c.worldSize,
    HostOp.resolve p ∉ (st.worker r).todo → c.localNeedsAllDirectSources p = true
  fed : ∀ op ∈ (st.worker r).queue, c.Fed st r op

variable (c) in
/-- The workers are in order, and the words of the slot say what they mean. -/
structure Protocol (st : State V) : Prop where
  orderly : ∀ r, c.Orderly st r
  ready : ∀ r, st.words.readySeq r = c.workSeq → (st.worker r).userReady = true
  status : ∀ r ok, c.getFastpathDirectStatus st.words r = some ok →
    ok = c.localNeedsAllDirectSources r

theorem Fed.mono {st st' : State V} {r : ℕ} {op : StreamOp} (h : c.Fed st r op)
    (huser : ∀ s, (st.worker s).userReady = true → (st'.worker s).userReady = true)
    (hstage : ∀ s, st.words.stageSeq s = c.workSeq → st'.words.stageSeq s = c.workSeq) :
    c.Fed st' r op where
  rank := h.rank
  outOfPlace := h.outOfPlace
  device := fun s hs => ⟨huser s (h.device s hs).1, (h.device s hs).2⟩
  host := fun s hs =>
    ⟨(h.host s hs).1, (h.host s hs).2.1, (h.host s hs).2.2.1, hstage s (h.host s hs).2.2.2⟩

theorem Orderly.mono {st st' : State V} {r : ℕ} (h : c.Orderly st r)
    (hworker : st'.worker r = st.worker r)
    (huser : ∀ s, (st.worker s).userReady = true → (st'.worker s).userReady = true)
    (hstage : ∀ s, st.words.stageSeq s = c.workSeq → st'.words.stageSeq s = c.workSeq) :
    c.Orderly st' r where
  idle := hworker ▸ h.idle
  todo := hworker ▸ h.todo
  staged := hworker ▸ h.staged
  drained := hworker ▸ h.drained
  unready := hworker ▸ h.unready
  resolved := hworker ▸ h.resolved
  fed := fun op hop => (h.fed op (hworker ▸ hop)).mono huser hstage

theorem Protocol.start {mem : Buf → ℕ → V} {words : SlotWords} (hstale : c.Stale words) :
    c.Protocol (c.start mem words) where
  orderly := fun r =>
    { idle := fun _ => rfl
      todo := List.suffix_rfl
      staged := fun _ => rfl
      drained := fun _ => rfl
      unready := fun _ => by simp [AllReduce.start, execute]
      resolved := fun _ p hp hmem => absurd (by simp [AllReduce.start, execute, hp]) hmem
      fed := fun op h => by simp [AllReduce.start] at h }
  ready := fun r h => absurd h (hstale.2 r).1.ne
  status := fun r ok h => by
    simp [AllReduce.start, getFastpathDirectStatus, (hstale.2 r).2.2.1.ne,
      (hstale.2 r).2.2.2.ne] at h

/-- A worker past its first operation has the user's data. -/
theorem Protocol.userReady_of_head {st : State V} (h : c.Protocol st) {r : ℕ} {op : HostOp}
    {rest : List HostOp} (htodo : (st.worker r).todo = op :: rest) (hne : op ≠ .ready) :
    (st.worker r).userReady = true := by
  by_contra hu
  have hmem := (h.orderly r).unready (by simpa using hu)
  rw [htodo] at hmem
  rcases List.mem_cons.1 hmem with heq | hmem
  · exact hne heq.symm
  · exact ready_notMem (htodo ▸ (h.orderly r).todo) hmem

/-- A source that is ready gives its kernel what it relies on. -/
theorem Protocol.fed_launched {st : State V} (h : c.Protocol st) {r : ℕ} {op : HostOp}
    {rest : List HostOp} (hr : r < c.worldSize) (htodo : (st.worker r).todo = op :: rest)
    (hsource : ∀ s, op = .seed s ∨ op = .fold s → c.sourceReady st.words r s = true)
    {k : StreamOp} (hk : k ∈ c.launched r op) : c.Fed st r k := by
  have hsuf : op :: rest <:+ c.execute r := htodo ▸ (h.orderly r).todo
  have hready : ∀ s, op = .seed s ∨ op = .fold s → (st.worker s).userReady = true := fun s hs => by
    have hsr := hsource s hs
    simp only [sourceReady, Bool.or_eq_true, decide_eq_true_eq, Bool.and_eq_true] at hsr
    rcases hsr with rfl | ⟨hword, -⟩
    · rcases hs with rfl | rfl <;> exact h.userReady_of_head htodo (by simp)
    · exact h.ready s hword
  have hcopy : ∀ s, op = .seed s ∨ op = .fold s → ∀ info, c.sourceInfo r s = info →
      (∀ t, info = .device t → (st.worker t).userReady = true ∧ (t ≠ r → c.bound r t = true)) ∧
      ∀ t, info = .host t → c.bound r t = false ∧ t ≠ r ∧ t < c.worldSize ∧
        st.words.stageSeq t = c.workSeq := by
    rintro s hs info rfl
    unfold sourceInfo
    split
    · rename_i hdir
      refine ⟨fun t ht => ?_, fun t ht => (by cases ht)⟩
      cases ht
      exact ⟨hready s hs, hdir.resolve_left⟩
    · rename_i hdir
      push Not at hdir
      refine ⟨fun t ht => (by cases ht), fun t ht => ?_⟩
      cases ht
      have hsr := hsource s hs
      simp only [sourceReady, Bool.or_eq_true, decide_eq_true_eq, Bool.and_eq_true] at hsr
      have hb : c.bound r s = false := by simpa using hdir.2
      refine ⟨hb, hdir.1, source_lt hr (hsuf.subset List.mem_cons_self) hs, ?_⟩
      rcases hsr with heq | ⟨-, hbound | hstage⟩
      · exact absurd heq hdir.1
      · rw [hb] at hbound; cases hbound
      · exact hstage
  obtain ⟨rfl, hp, rfl⟩ | ⟨rfl, hp, rfl⟩ | ⟨s, hs, rfl, rfl | rfl⟩ :=
    mem_launched (hsuf.subset List.mem_cons_self) hk
  · exact ⟨hr, fun _ _ => hp,
      fun s hs => (hcopy _ (Or.inl rfl) _ (Option.some.inj hs)).1 s rfl |>.imp_right
        fun hb => ⟨fun _ => hp, hb⟩,
      fun s hs => (hcopy _ (Or.inl rfl) _ (Option.some.inj hs)).2 s rfl⟩
  · exact ⟨hr, fun _ _ => hp, fun s hs => (by cases hs), fun s hs => (by cases hs)⟩
  · refine ⟨hr, fun hw => absurd hw (by simp [StreamOp.writesRecv]),
      fun t ht => (hcopy _ (Or.inr rfl) _ (Option.some.inj ht)).1 t rfl |>.imp_right
        fun hb => ⟨fun htr => ?_, hb⟩,
      fun t ht => (hcopy _ (Or.inr rfl) _ (Option.some.inj ht)).2 t rfl⟩
    have hdev : c.sourceInfo r s = .device t := Option.some.inj ht
    unfold sourceInfo at hdev
    split at hdev <;> cases hdev
    exact absurd htr hs
  · exact ⟨hr, fun _ hne => absurd rfl hne, fun s hs => (by cases hs), fun s hs => (by cases hs)⟩

theorem Protocol.host {st st' : State V} {r : ℕ} {op : HostOp} {rest : List HostOp}
    (h : c.Protocol st) (hr : r < c.worldSize) (htodo : (st.worker r).todo = op :: rest)
    (hhost : c.hostStep st r { st.worker r with todo := rest } op = some st') :
    c.Protocol st' := by
  obtain ⟨w', heff⟩ := hostStep_effect hhost
  have hsuf : op :: rest <:+ c.execute r := htodo ▸ (h.orderly r).todo
  have htodo' : w'.todo = rest := heff.todo
  have hqueue' : w'.queue = (st.worker r).queue ++ c.launched r op := heff.queue
  have hprocessed' : w'.processed = (st.worker r).processed := heff.processed
  have huser' : w'.userReady = (st.worker r).userReady := heff.userReady
  have hself : st'.worker r = w' := by rw [heff.worker, Function.update_self]
  have hother : ∀ q, q ≠ r → st'.worker q = st.worker q := fun q hq => by
    rw [heff.worker, Function.update_of_ne hq]
  have huser : ∀ q, (st'.worker q).userReady = (st.worker q).userReady := fun q => by
    by_cases hq : q = r
    · subst hq; rw [hself, huser']
    · rw [hother q hq]
  have hmono : ∀ s, st.words.stageSeq s = c.workSeq → st'.words.stageSeq s = c.workSeq :=
    fun s hs => (heff.stageSeq s).2 (Or.inl hs)
  refine ⟨fun q => ?_, fun q hq => ?_, fun q ok hq => ?_⟩
  · by_cases hqr : q = r
    · subst hqr
      have hold := h.orderly q
      refine ⟨fun hnil => ?_, ?_, fun hmem => ?_, fun hmem => ?_, fun hu => ?_,
        fun hall p hp hmem => ?_, fun k hk => ?_⟩ <;> rw [hself] at *
      · rw [hqueue'] at hnil
        rw [hprocessed']
        exact hold.idle (List.append_eq_nil_iff.1 hnil).1
      · rw [htodo']
        exact (List.suffix_cons op rest).trans hsuf
      · rw [htodo'] at hmem
        have hempty := hold.staged (by rw [htodo]; exact List.mem_cons_of_mem _ hmem)
        rw [hqueue', hempty, launched_of_stage_mem hsuf hmem]
        rfl
      · rw [htodo'] at hmem
        by_cases hop : op = .synchronize
        · have hempty : (st.worker q).queue = [] := heff.drained hop
          rw [hqueue', hempty, hop]
          rfl
        · have hnot : HostOp.synchronize ∉ op :: rest := fun hm =>
            (List.mem_cons.1 hm).elim (fun heq => hop heq.symm) hmem
          rw [hqueue', hold.drained (by rw [htodo]; exact hnot),
            launched_of_synchronize_notMem hsuf hnot]
          rfl
      · rw [huser'] at hu
        have hmem := hold.unready hu
        rw [htodo] at hmem
        rw [htodo']
        rcases List.mem_cons.1 hmem with heq | hmem
        · have hwaited : (st.worker q).userReady = true := heff.waited heq.symm
          rw [hu] at hwaited
          cases hwaited
        · exact hmem
      · rw [htodo'] at hmem
        obtain ⟨hall', hresolve⟩ := heff.allDirect hall
        by_cases hop : op = .resolve p
        · exact (h.status p true (hresolve p hop)).symm
        · refine hold.resolved hall' p hp fun hm => ?_
          rw [htodo] at hm
          rcases List.mem_cons.1 hm with heq | hm
          · exact hop heq.symm
          · exact hmem hm
      · have hfed : ∀ k, c.Fed st q k → c.Fed st' q k := fun k hfed =>
          hfed.mono (fun s hs => by rw [huser s]; exact hs) hmono
        rw [hqueue'] at hk
        rcases List.mem_append.1 hk with hk | hk
        · exact hfed k (hold.fed k hk)
        · exact hfed k (h.fed_launched hr htodo heff.source hk)
    · exact (h.orderly q).mono (hother q hqr) (fun s hs => by rw [huser s]; exact hs) hmono
  · rw [huser q]
    rcases (heff.readySeq q).1 hq with hq | ⟨rfl, hop⟩
    · exact h.ready q hq
    · exact heff.waited hop
  · rw [heff.status q] at hq
    split at hq
    · rename_i hpub
      rw [hpub.1]
      exact (Option.some.inj hq).symm
    · exact h.status q ok hq

/-- A step that leaves the words alone and only changes one worker. -/
theorem Protocol.update {st st' : State V} {r : ℕ} (h : c.Protocol st) {w : Worker}
    (hwords : st'.words = st.words) (hworker : st'.worker = Function.update st.worker r w)
    (huser : (st.worker r).userReady = true → w.userReady = true)
    (hr : (∀ k, c.Fed st r k → c.Fed st' r k) → st'.worker r = w → c.Orderly st' r) :
    c.Protocol st' := by
  have hself : st'.worker r = w := by rw [hworker, Function.update_self]
  have hother : ∀ q, q ≠ r → st'.worker q = st.worker q := fun q hq => by
    rw [hworker, Function.update_of_ne hq]
  have hmono : ∀ q, (st.worker q).userReady = true → (st'.worker q).userReady = true :=
    fun q hq => by
      by_cases hqr : q = r
      · subst hqr; rw [hself]; exact huser hq
      · rw [hother q hqr]; exact hq
  have hstage : ∀ s, st.words.stageSeq s = c.workSeq → st'.words.stageSeq s = c.workSeq :=
    fun s hs => hwords ▸ hs
  refine ⟨fun q => ?_, fun q hq => hmono q (h.ready q (hwords ▸ hq)),
    fun q ok hq => h.status q ok (hwords ▸ hq)⟩
  by_cases hqr : q = r
  · subst hqr
    exact hr (fun k hk => hk.mono hmono hstage) hself
  · exact (h.orderly q).mono (hother q hqr) hmono hstage

theorem Protocol.step {st st' : State V} {l : Label} (h : c.Protocol st)
    (hstep : c.step st l = some st') : c.Protocol st' := by
  obtain ⟨r, rfl, -, hu, hst⟩ | ⟨r, op, rest, rfl, hr, htodo, hhost⟩ |
    ⟨r, i, op, rest, rfl, hqueue, -, -, hst⟩ | ⟨r, op, rest, rfl, hqueue, -, hst⟩ :=
    step_cases hstep
  · refine h.update (r := r) (by rw [hst]) (by rw [hst]) (fun _ => rfl) fun hfed hself => ?_
    have hold := h.orderly r
    refine ⟨?_, ?_, ?_, ?_, ?_, ?_, fun k hk => hfed k (hold.fed k ?_)⟩ <;> rw [hself] at *
    · exact hold.idle
    · exact hold.todo
    · exact hold.staged
    · exact hold.drained
    · exact fun hu => absurd hu (by simp)
    · exact hold.resolved
    · exact hk
  · exact h.host hr htodo hhost
  · refine h.update (r := r)
      (w := { st.worker r with processed := i :: (st.worker r).processed })
      (by rw [hst]) (by rw [hst]) id fun hfed hself => ?_
    have hold := h.orderly r
    refine ⟨fun hnil => ?_, ?_, ?_, ?_, ?_, ?_, fun k hk => hfed k (hold.fed k ?_)⟩ <;>
      rw [hself] at *
    · have hnil' : (st.worker r).queue = [] := hnil
      rw [hqueue] at hnil'
      cases hnil'
    · exact hold.todo
    · exact hold.staged
    · exact hold.drained
    · exact hold.unready
    · exact hold.resolved
    · exact hk
  · refine h.update (r := r) (w := { st.worker r with queue := rest, processed := [] })
      (by rw [hst]) (by rw [hst]) id fun hfed hself => ?_
    have hold := h.orderly r
    refine ⟨fun _ => ?_, ?_, fun hmem => ?_, fun hmem => ?_, ?_, ?_,
      fun k hk => hfed k (hold.fed k ?_)⟩ <;> rw [hself] at *
    · exact hold.todo
    · have hnil := hold.staged hmem
      rw [hqueue] at hnil
      cases hnil
    · have hnil := hold.drained hmem
      rw [hqueue] at hnil
      cases hnil
    · exact hold.unready
    · exact hold.resolved
    · rw [hqueue]
      exact List.mem_cons_of_mem _ hk

/-! ## What a step leaves unread -/

theorem unread_mono {st st' : State V} {l : Label} (hp : c.Protocol st)
    (hstep : c.step st l = some st') {r s i : ℕ} (hi : i < c.count)
    (h : c.unread st' r s i = true) : c.unread st r s i = true := by
  rcases pending_of_step (fun q => (hp.orderly q).idle) hstep (s := r) hi with heq | ⟨op, _, -, -, heq⟩
  · rwa [unread, ← heq]
  · rw [unread, heq, List.any_cons, Bool.or_eq_true]
    exact Or.inr h

theorem allRead_eq_true {st : State V} {r : ℕ} : c.allRead st r = true ↔
    ∀ s < c.worldSize, s ≠ r → ∀ i < c.count, c.unread st s r i = false := by
  simp only [allRead, List.all_eq_true, List.mem_range, Bool.or_eq_true, beq_iff_eq,
    Bool.not_eq_true']
  exact ⟨fun h s hs hne => (h s hs).resolve_left hne,
    fun h s hs => (eq_or_ne s r).imp_right (h s hs)⟩

theorem allRead_mono {st st' : State V} {l : Label} (hp : c.Protocol st)
    (hstep : c.step st l = some st') {r : ℕ} (h : c.allRead st r = true) :
    c.allRead st' r = true := by
  rw [allRead_eq_true] at h ⊢
  intro s hs hne i hi
  by_contra hun
  have := unread_mono hp hstep hi (by simpa using hun)
  rw [h s hs hne i hi] at this
  cases this

end AllReduce

end Fastpath
end HyLink
