import HyLink.Executor.Series
import HyLink.Theory.Gate

/-!
# The words at the start of a collective

The executors of all ranks of a communicator, one collective after the other.  A rank that takes a
collective first stores the reader counts of its graph, then resets the cursors of its own active
keys at the parity of the collective, and meets the others at the start barrier; when its nodes are
done it meets them at the end barrier.  The two barriers of a staging region only delay a rank and
are left out; the run loop may publish any progress in any order.

* `Ok.opens` — when the start barrier opens, the cursors of all active keys are zero, and a
  count word that one key has for itself is the count compiled for it.
* `Ok.preparing_ended` — whoever stores a count or resets a cursor does so after every rank has
  arrived at the end barrier of every collective that has started.
* `Counted` — the counts stay until every rank has arrived there.
* `start_clean` — all this, in every run without a failed collective.
* `start_unclean` — the cursors are in use when a second rank passes the start barrier; versions 16
  apart share a count; and a rank whose collective fails does not wait for the others.
-/

namespace HyLink
namespace Ascend
namespace EpochReset

open Theory Ir Executor

/-! ## What a rank stores before the start barrier -/

/-- A collective as the compiler leaves it: the active keys of each rank's graph and the reader
table, which all graphs share. -/
structure Collective where
  active : ℕ → List ProgressKey
  /-- `reader_assignment.chunks` -/
  readers : List (ProgressKey × ℕ)
  /-- The table comes from a map. -/
  nodup : (readers.map Prod.fst).Nodup
  /-- Active keys have words. -/
  inBounds : ∀ r, ∀ key ∈ active r, keyInBounds key.base = true

/-- One store. -/
inductive Store where
  | numReaders (x : Word) (count : ℕ)
  | write (x : Word)
  | consume (x : Word)
  | readerDone (id : ℕ) (x : Word)
  deriving DecidableEq, Repr

/-- `executorThreadFunc`: the counts of the active keys are reset, those of the table are set. -/
def countStores (c : Collective) (r : ℕ) : List Store :=
  (c.active r).map (fun key => .numReaders (wordOf key) 0) ++
    c.readers.map fun chunk => .numReaders (wordOf chunk.1) chunk.2

/-- `resetEpochKeys` for one key. -/
def resetStores (key : ProgressKey) : List Store :=
  if keyInBounds key.base then
    .write (wordOf key) :: .consume (wordOf key) ::
      (List.range maxProgressReaders).map fun id => .readerDone id (wordOf key)
  else []

def prepareStores (c : Collective) (r : ℕ) : List Store :=
  countStores c r ++ (c.active r).flatMap resetStores

/-! ## The executors -/

/-- Where the executor thread of a rank stands. -/
inductive Stage where
  | idle
  /-- Before the start barrier, with the stores still to do. -/
  | preparing (todo : List Store)
  /-- In the start barrier. -/
  | starting
  | running
  /-- In the end barrier. -/
  | finishing
  /-- The collective has failed; an item queued since may be taken. -/
  | failed
  deriving DecidableEq, Repr

/-- What the run loop publishes. -/
inductive Publication where
  | setWriteProgress (key : ProgressKey) (value : ℕ)
  | advanceWriteProgress (key : ProgressKey) (value : ℕ)
  | raiseReaderDone (key : ProgressKey) (id value : ℕ)
  | raiseConsumeProgress (key : ProgressKey) (value : ℕ)
  deriving DecidableEq, Repr

structure State where
  /-- The cursors, by parity. -/
  epoch : ℕ → EpochWords
  numReaders : Word → ℕ
  start : Gate.State
  finish : Gate.State
  stage : ℕ → Stage
  /-- The collectives a rank is through with. -/
  done : ℕ → ℕ

/-- The ranks and the collectives of a communicator; the first is number one. -/
structure Series where
  parties : ℕ
  parties_pos : 0 < parties
  collective : ℕ → Collective

/-- The compare-and-swap loop of a cursor. -/
def raise (cursors : Word → ℕ) (x : Word) (value : ℕ) : Word → ℕ :=
  Function.update cursors x (max (cursors x) value)

namespace State

def goto (s : State) (r : ℕ) (stage : Stage) : State :=
  { s with stage := Function.update s.stage r stage }

/-- The rank is through with its collective. -/
def leave (s : State) (r : ℕ) (stage : Stage) : State :=
  { s.goto r stage with done := Function.update s.done r (s.done r + 1) }

def setEpoch (s : State) (parity : ℕ) (w : EpochWords) : State :=
  { s with epoch := Function.update s.epoch parity w }

/-- A store of a collective with this parity. -/
def store (s : State) (parity : ℕ) : Store → State
  | .numReaders x count => { s with numReaders := Function.update s.numReaders x count }
  | .write x =>
    let w := s.epoch parity
    s.setEpoch parity { w with writeProgress := Function.update w.writeProgress x 0 }
  | .consume x =>
    let w := s.epoch parity
    s.setEpoch parity { w with consumeProgress := Function.update w.consumeProgress x 0 }
  | .readerDone id x =>
    let w := s.epoch parity
    s.setEpoch parity { w with
      readerDone := Function.update w.readerDone id (Function.update (w.readerDone id) x 0) }

def publish (s : State) (parity : ℕ) (p : Publication) : State :=
  let w := s.epoch parity
  s.setEpoch parity <|
    match p with
    | .setWriteProgress key value =>
      { w with writeProgress := Function.update w.writeProgress (wordOf key) value }
    | .advanceWriteProgress key value =>
      { w with writeProgress := raise w.writeProgress (wordOf key) value }
    | .raiseReaderDone key id value =>
      if maxProgressReaders ≤ id then w
      else
        let raised := raise (w.readerDone id) (wordOf key) value
        { w with readerDone := Function.update w.readerDone id raised }
    | .raiseConsumeProgress key value =>
      { w with consumeProgress := raise w.consumeProgress (wordOf key) value }

end State

inductive Label where
  /-- The next step of a rank outside the run loop. -/
  | next (rank : ℕ)
  | publish (rank : ℕ) (p : Publication)
  /-- The run loop ends, without an error. -/
  | complete (rank : ℕ)
  /-- The run loop ends with an error: the collective is finished without the end barrier. -/
  | fail (rank : ℕ)

/-- A rank takes the collective after those it is through with. -/
def take (S : Series) (s : State) (r : ℕ) : State :=
  s.goto r (.preparing (prepareStores (S.collective (s.done r + 1)) r))

/-- The next step of a rank outside the run loop. -/
def next (S : Series) (s : State) (r : ℕ) : Option State :=
  match s.stage r with
  | .idle | .failed => some (take S s r)
  | .preparing (store :: todo) =>
    some ((s.store ((s.done r + 1) % 2) store).goto r (.preparing todo))
  | .preparing [] => some (s.goto r .starting)
  | .starting =>
    (Gate.step S.parties s.start r).map fun gate =>
      { s.goto r (if gate.place r = .outside then .running else .starting) with start := gate }
  | .running => none
  | .finishing =>
    (Gate.step S.parties s.finish r).map fun gate =>
      if gate.place r = .outside then { s.leave r .idle with finish := gate }
      else { s with finish := gate }

def step (S : Series) (s : State) : Label → Option State
  | .next r => if r < S.parties then next S s r else none
  | .publish r p =>
    if r < S.parties ∧ s.stage r = .running then some (s.publish ((s.done r + 1) % 2) p) else none
  | .complete r =>
    if r < S.parties ∧ s.stage r = .running then some (s.goto r .finishing) else none
  | .fail r =>
    if r < S.parties ∧ s.stage r = .running then some (s.leave r .failed) else none

def machine (S : Series) : Machine State Label := ⟨step S⟩

/-- Nobody has taken a collective; what the words and the barriers hold is left from before. -/
def initial (epoch : ℕ → EpochWords) (numReaders : Word → ℕ) (start finish : ℕ) : State where
  epoch := epoch
  numReaders := numReaders
  start := Gate.State.init start
  finish := Gate.State.init finish
  stage := fun _ => .idle
  done := fun _ => 0

/-- No collective fails. -/
def succeeds (_ : State) : Label → Bool
  | .fail _ => false
  | _ => true

/-! ## What is to hold -/

/-- The count compiled for a key. -/
def Collective.compiledCount (c : Collective) (key : ProgressKey) : ℕ :=
  ((c.readers.find? fun chunk => chunk.1 == key).map Prod.snd).getD 0

/-- No other key of the table has the word of the key. -/
def Collective.Unshared (c : Collective) (key : ProgressKey) : Prop :=
  ∀ chunk ∈ c.readers, wordOf chunk.1 = wordOf key → chunk.1 = key

/-- The cursors of the active keys of collective `k` are zero. -/
def CursorsClean (S : Series) (k : ℕ) (s : State) : Prop :=
  ∀ r < S.parties, ∀ key ∈ (S.collective k).active r,
    (s.epoch (k % 2)).writeProgress (wordOf key) = 0 ∧
    (s.epoch (k % 2)).consumeProgress (wordOf key) = 0 ∧
    ∀ id < maxProgressReaders, (s.epoch (k % 2)).readerDone id (wordOf key) = 0

/-- The counts are those compiled for collective `k`, for the active keys that satisfy `p`. -/
def CountsCompiled (S : Series) (k : ℕ) (p : ProgressKey → Prop) (s : State) : Prop :=
  ∀ r < S.parties, ∀ key ∈ (S.collective k).active r, p key →
    s.numReaders (wordOf key) = (S.collective k).compiledCount key

/-! ## The last store of a count -/

/-- The counts stored to a word. -/
def countsOf (x : Word) (stores : List Store) : List ℕ :=
  stores.filterMap fun
    | .numReaders y count => if y = x then some count else none
    | _ => none

@[simp] theorem countsOf_append (x : Word) (stores stores' : List Store) :
    countsOf x (stores ++ stores') = countsOf x stores ++ countsOf x stores' :=
  List.filterMap_append

theorem countsOf_eq_nil {x : Word} {stores : List Store}
    (h : ∀ count, .numReaders x count ∉ stores) : countsOf x stores = [] := by
  unfold countsOf
  rw [List.filterMap_eq_nil_iff]
  intro store hmem
  cases store with
  | numReaders y count =>
    have hne : y ≠ x := by
      rintro rfl
      exact h count hmem
    simp [hne]
  | write | consume | readerDone => rfl

/-- The counts of the table for a word. -/
def Collective.tableCounts (c : Collective) (x : Word) : List ℕ :=
  c.readers.filterMap fun chunk => if wordOf chunk.1 = x then some chunk.2 else none

/-- The count that a rank leaves in a word. -/
def Collective.finalCount (c : Collective) (x : Word) : ℕ := (c.tableCounts x).getLast?.getD 0

theorem countsOf_resets (x : Word) (keys : List ProgressKey) :
    countsOf x (keys.flatMap resetStores) = [] := by
  apply countsOf_eq_nil
  intro count hmem
  obtain ⟨key, -, hin⟩ := List.mem_flatMap.1 hmem
  unfold resetStores at hin
  split at hin
  · simp at hin
  · cases hin

theorem countsOf_table (c : Collective) (x : Word) :
    countsOf x (c.readers.map fun chunk => .numReaders (wordOf chunk.1) chunk.2) =
      c.tableCounts x := by
  unfold countsOf Collective.tableCounts
  rw [List.filterMap_map]
  rfl

/-- **Every rank leaves the same count** in a word it stores a count to. -/
theorem last_count (c : Collective) {r : ℕ} {x : Word} {before todo : List Store} {count : ℕ}
    (h : prepareStores c r = before ++ .numReaders x count :: todo)
    (hlast : ∀ count', .numReaders x count' ∉ todo) : count = c.finalCount x := by
  have hcounts : countsOf x (prepareStores c r) = countsOf x before ++ [count] := by
    have htodo := countsOf_eq_nil hlast
    have hone : countsOf x (.numReaders x count :: todo) = count :: countsOf x todo := by
      simp [countsOf]
    rw [h, countsOf_append, hone, htodo]
  have hparts : countsOf x (prepareStores c r) =
      countsOf x ((c.active r).map fun key => .numReaders (wordOf key) 0) ++ c.tableCounts x := by
    unfold prepareStores countStores
    rw [countsOf_append, countsOf_append, countsOf_resets, countsOf_table, List.append_nil]
  have hgetLast : (countsOf x (prepareStores c r)).getLast? = some count := by
    rw [hcounts, List.getLast?_concat]
  rw [hparts, List.getLast?_append] at hgetLast
  unfold Collective.finalCount
  cases htable : (c.tableCounts x).getLast? with
  | some n =>
    rw [htable] at hgetLast
    exact (Option.some.inj hgetLast).symm
  | none =>
    -- only the zeros of the active keys are stored to the word
    rw [htable, Option.none_or] at hgetLast
    have hmem := List.mem_of_getLast? hgetLast
    obtain ⟨store, hstore, hval⟩ := List.mem_filterMap.1 hmem
    obtain ⟨key, -, rfl⟩ := List.mem_map.1 hstore
    dsimp only at hval
    split at hval
    · exact (Option.some.inj hval).symm
    · cases hval

/-- A word that a key has for itself gets the count compiled for the key. -/
theorem finalCount_unshared (c : Collective) {key : ProgressKey} (h : c.Unshared key) :
    c.finalCount (wordOf key) = c.compiledCount key := by
  have hnodup := c.nodup
  unfold Collective.finalCount Collective.tableCounts Collective.compiledCount
  unfold Collective.Unshared at h
  generalize c.readers = readers at h hnodup
  induction readers with
  | nil => rfl
  | cons chunk readers ih =>
    rw [List.map_cons, List.nodup_cons] at hnodup
    by_cases hkey : chunk.1 = key
    · -- it is the only one
      have hnone : readers.filterMap (fun chunk =>
          if wordOf chunk.1 = wordOf key then some chunk.2 else none) = [] := by
        rw [List.filterMap_eq_nil_iff]
        intro other hother
        have hne : wordOf other.1 ≠ wordOf key := by
          intro hword
          have hsame := h other (List.mem_cons_of_mem _ hother) hword
          refine hnodup.1 ?_
          rw [hkey, ← hsame]
          exact List.mem_map_of_mem hother
        rw [if_neg hne]
      rw [List.filterMap_cons_some (by rw [hkey, if_pos rfl]), hnone,
        List.find?_cons_of_pos (by rw [hkey]; exact beq_self_eq_true key)]
      rfl
    · have hword : wordOf chunk.1 ≠ wordOf key := fun hw => hkey (h chunk List.mem_cons_self hw)
      rw [List.filterMap_cons_none (by rw [if_neg hword]),
        List.find?_cons_of_neg (by rw [beq_false_of_ne hkey]; exact Bool.false_ne_true)]
      exact ih (fun other hother => h other (List.mem_cons_of_mem _ hother)) hnodup.2

/-! ## What holds in every state -/

/-- What a rank still has to store before it meets the others. -/
def Stage.todo : Stage → Option (List Store)
  | .preparing todo => some todo
  | .starting => some []
  | _ => none

/-- The rank is past the start barrier of its collective. -/
def Stage.inside : Stage → ℕ
  | .running | .finishing => 1
  | _ => 0

/-- A rank is still to store a count to the word. -/
def State.CountPending (S : Series) (s : State) (x : Word) : Prop :=
  ∃ p < S.parties, ∃ todo, s.stage p = .preparing todo ∧ ∃ count, .numReaders x count ∈ todo

/-- What a store for collective `k` has left behind is there, or is to be stored again. -/
def State.InEffect (S : Series) (s : State) (k : ℕ) : Store → Prop
  | .numReaders x _ => s.numReaders x = (S.collective k).finalCount x ∨ s.CountPending S x
  | .write x => (s.epoch (k % 2)).writeProgress x = 0
  | .consume x => (s.epoch (k % 2)).consumeProgress x = 0
  | .readerDone id x => (s.epoch (k % 2)).readerDone id x = 0

/-- A rank's counts agree with where it stands. -/
structure RankOk (s : State) (r : ℕ) : Prop where
  started : s.start.passed r = s.done r + (s.stage r).inside
  finished : s.finish.passed r = s.done r
  startPlace : s.stage r ≠ .starting → s.start.place r = .outside
  finishPlace : s.stage r ≠ .finishing → s.finish.place r = .outside
  succeeded : s.stage r ≠ .failed

/-- What holds in every state of a run without a failed collective. -/
structure Ok (S : Series) (g g' : ℕ) (s : State) : Prop where
  start : Gate.Sound S.parties g s.start
  finish : Gate.Sound S.parties g' s.finish
  rank : ∀ r < S.parties, RankOk s r
  /-- While the start barrier is closed for a rank, what it has stored stays. -/
  stores : ∀ r < S.parties, ∀ todo, (s.stage r).todo = some todo →
    g + s.done r = s.start.generation →
    ∃ before, prepareStores (S.collective (s.done r + 1)) r = before ++ todo ∧
      ∀ store ∈ before, s.InEffect S (s.done r + 1) store

variable {S : Series} {g g' : ℕ} {s s' : State} {r q : ℕ}

namespace Ok

/-- A rank that prepares is level with the start barrier. -/
theorem preparing_level (h : Ok S g g' s) (hr : r < S.parties) {todo : List Store}
    (hst : s.stage r = .preparing todo) : g + s.done r = s.start.generation := by
  have hrank := h.rank r hr
  have hlevel := h.start.level_outside hr (hrank.startPlace (by rw [hst]; exact nofun))
  rw [hrank.started, hst] at hlevel
  exact hlevel

/-- **Nobody runs while a rank waits for the start barrier to open.** -/
theorem not_running (h : Ok S g g' s) (hr : r < S.parties)
    (hlevel : g + s.done r = s.start.generation) (hq : q < S.parties) : s.stage q ≠ .running := by
  intro hrun
  have hrank := h.rank q hq
  have hout := h.start.level_outside hq (hrank.startPlace (by rw [hrun]; exact nofun))
  have hmet := h.finish.passed_le_arrived hr hq
  rw [Gate.State.arrived_outside (hrank.finishPlace (by rw [hrun]; exact nofun)),
    (h.rank r hr).finished, hrank.finished] at hmet
  rw [hrank.started, hrun] at hout
  simp only [Stage.inside] at hout
  omega

/-- **A rank that prepares has met everybody at the end barrier** of all that has started. -/
theorem preparing_ended (h : Ok S g g' s) (hr : r < S.parties) {todo : List Store}
    (hst : s.stage r = .preparing todo) {k : ℕ} (hk : g + k ≤ s.start.generation)
    (hq : q < S.parties) : k ≤ s.finish.arrived q := by
  have hlevel := h.preparing_level hr hst
  have hmet := h.finish.passed_le_arrived hr hq
  rw [(h.rank r hr).finished] at hmet
  omega

/-- What is left to check when a rank moves and stores nothing. -/
theorem move (h : Ok S g g' s) (hstart : Gate.Sound S.parties g s'.start)
    (hfinish : Gate.Sound S.parties g' s'.finish)
    (hgen : s.start.generation ≤ s'.start.generation)
    (hothers : ∀ r, r ≠ q → s'.stage r = s.stage r ∧ s'.done r = s.done r ∧
      (s'.start.place r = s.start.place r ∧ s'.start.passed r = s.start.passed r) ∧
      (s'.finish.place r = s.finish.place r ∧ s'.finish.passed r = s.finish.passed r))
    (hself : RankOk s' q)
    (hepoch : s'.epoch = s.epoch) (hreaders : s'.numReaders = s.numReaders)
    (hpending : ∀ todo, s.stage q = .preparing todo → todo = [])
    (hstores : ∀ todo, (s'.stage q).todo = some todo →
      todo = prepareStores (S.collective (s'.done q + 1)) q ∨
        s'.done q = s.done q ∧ (s.stage q).todo = some todo) : Ok S g g' s' := by
  have hkeep : ∀ k store, s.InEffect S k store → s'.InEffect S k store := by
    intro k store hin
    cases store with
    | numReaders x count =>
      rcases hin with hsame | ⟨p, hp, todo, hst, n, hmem⟩
      · exact .inl (hreaders ▸ hsame)
      · refine .inr ⟨p, hp, todo, ?_, n, hmem⟩
        by_cases hpq : p = q
        · subst hpq
          rw [hpending todo hst] at hmem
          cases hmem
        · rw [(hothers p hpq).1]
          exact hst
    | write x =>
      unfold State.InEffect at hin ⊢
      rw [hepoch]
      exact hin
    | consume x =>
      unfold State.InEffect at hin ⊢
      rw [hepoch]
      exact hin
    | readerDone id x =>
      unfold State.InEffect at hin ⊢
      rw [hepoch]
      exact hin
  have hle : ∀ r < S.parties, g + s.done r ≤ s.start.generation := by
    intro r hr
    have hpassed := h.start.passed_le_generation hr
    rw [(h.rank r hr).started] at hpassed
    omega
  refine ⟨hstart, hfinish, ?_, ?_⟩
  · intro r hr
    by_cases hrq : r = q
    · exact hrq ▸ hself
    · obtain ⟨hst, hdone, ⟨hsp, hss⟩, hfp, hfs⟩ := hothers r hrq
      have hrank := h.rank r hr
      exact ⟨by rw [hss, hdone, hst]; exact hrank.started, by rw [hfs, hdone]; exact hrank.finished,
        by rw [hst, hsp]; exact hrank.startPlace, by rw [hst, hfp]; exact hrank.finishPlace,
        by rw [hst]; exact hrank.succeeded⟩
  · intro r hr todo htodo hlevel
    have hold : s'.done r = s.done r → (s.stage r).todo = some todo →
        ∃ before, prepareStores (S.collective (s'.done r + 1)) r = before ++ todo ∧
          ∀ store ∈ before, s'.InEffect S (s'.done r + 1) store := by
      intro hdone ht
      rw [hdone] at hlevel ⊢
      have hlow := hle r hr
      obtain ⟨before, hsplit, heffect⟩ := h.stores r hr todo ht (by omega)
      exact ⟨before, hsplit, fun store hmem => hkeep _ _ (heffect store hmem)⟩
    by_cases hrq : r = q
    · subst hrq
      rcases hstores todo htodo with rfl | ⟨hdone, ht⟩
      · exact ⟨[], rfl, fun store hmem => absurd hmem List.not_mem_nil⟩
      · exact hold hdone ht
    · obtain ⟨hst, hdone, -⟩ := hothers r hrq
      exact hold hdone (hst ▸ htodo)

/-- A rank changes its place only. -/
theorem goto (h : Ok S g g' s) (hq : q < S.parties) {stage : Stage}
    (hinside : stage.inside = (s.stage q).inside) (hstarting : s.stage q ≠ .starting)
    (hfinishing : s.stage q ≠ .finishing) (hfailed : stage ≠ .failed)
    (hpending : ∀ todo, s.stage q = .preparing todo → todo = [])
    (hstores : ∀ todo, stage.todo = some todo →
      todo = prepareStores (S.collective (s.done q + 1)) q ∨ (s.stage q).todo = some todo) :
    Ok S g g' (s.goto q stage) := by
  have hstage : (s.goto q stage).stage q = stage := Function.update_self _ _ _
  have hrank := h.rank q hq
  refine h.move (q := q) h.start h.finish (le_refl _) ?_ ?_ rfl rfl hpending ?_
  · intro r hr
    exact ⟨Function.update_of_ne hr _ _, rfl, ⟨rfl, rfl⟩, rfl, rfl⟩
  · refine ⟨?_, hrank.finished, fun _ => hrank.startPlace hstarting,
      fun _ => hrank.finishPlace hfinishing, ?_⟩
    · rw [hstage, hinside]
      exact hrank.started
    · rw [hstage]
      exact hfailed
  · intro todo htodo
    rw [hstage] at htodo
    rcases hstores todo htodo with hnew | hold
    · exact .inl hnew
    · exact .inr ⟨rfl, hold⟩

/-- **A rank goes on in the start barrier,** or is past it. -/
theorem startGate (h : Ok S g g' s) (hq : q < S.parties) (hst : s.stage q = .starting)
    {gate : Gate.State} (hgate : Gate.step S.parties s.start q = some gate) :
    Ok S g g' { s.goto q (if gate.place q = .outside then .running else .starting) with
      start := gate } := by
  obtain ⟨hother, hself⟩ := Gate.step_cases hgate
  have hrank := h.rank q hq
  have hstarted := hrank.started
  rw [hst] at hstarted
  refine h.move (q := q) (h.start.step hq hgate) h.finish (h.start.generation_le hq hgate) ?_ ?_ rfl
    rfl ?_ ?_
  · intro r hr
    exact ⟨Function.update_of_ne hr _ _, rfl, hother r hr, rfl, rfl⟩
  · have hfin : s.finish.place q = .outside := hrank.finishPlace (by rw [hst]; exact nofun)
    rcases hself with ⟨hin, hpass⟩ | ⟨hout, hpass, -⟩
    · rw [if_neg hin]
      have hstage : (s.goto q .starting).stage q = .starting := Function.update_self _ _ _
      refine ⟨?_, hrank.finished, fun hne => absurd hstage hne, fun _ => hfin, ?_⟩
      · show gate.passed q = s.done q + ((s.goto q .starting).stage q).inside
        rw [hstage, hpass]
        exact hstarted
      · show (s.goto q .starting).stage q ≠ .failed
        rw [hstage]
        exact nofun
    · rw [if_pos hout]
      have hstage : (s.goto q .running).stage q = .running := Function.update_self _ _ _
      refine ⟨?_, hrank.finished, fun _ => hout, fun _ => hfin, ?_⟩
      · show gate.passed q = s.done q + ((s.goto q .running).stage q).inside
        rw [hstage, hpass, hstarted]
        rfl
      · show (s.goto q .running).stage q ≠ .failed
        rw [hstage]
        exact nofun
  · intro todo htodo
    rw [hst] at htodo
    cases htodo
  · intro todo htodo
    change ((s.goto q _).stage q).todo = some todo at htodo
    rw [show (s.goto q (if gate.place q = .outside then .running else .starting)).stage q =
      if gate.place q = .outside then .running else .starting from Function.update_self _ _ _] at htodo
    split at htodo
    · cases htodo
    · rw [hst]
      exact .inr ⟨rfl, htodo⟩

/-- **A rank goes on in the end barrier,** or is through with its collective. -/
theorem finishGate (h : Ok S g g' s) (hq : q < S.parties) (hst : s.stage q = .finishing)
    {gate : Gate.State} (hgate : Gate.step S.parties s.finish q = some gate) :
    Ok S g g' (if gate.place q = .outside then { s.leave q .idle with finish := gate }
      else { s with finish := gate }) := by
  obtain ⟨hother, hself⟩ := Gate.step_cases hgate
  have hrank := h.rank q hq
  have hstarted := hrank.started
  rw [hst] at hstarted
  have hplace : s.start.place q = .outside := hrank.startPlace (by rw [hst]; exact nofun)
  have hpending : ∀ todo, s.stage q = .preparing todo → todo = [] := by
    intro todo htodo
    rw [hst] at htodo
    cases htodo
  rcases hself with ⟨hin, hpass⟩ | ⟨hout, hpass, -⟩
  · rw [if_neg hin]
    refine h.move (q := q) h.start (h.finish.step hq hgate) (le_refl _) ?_ ?_ rfl rfl hpending ?_
    · intro r hr
      exact ⟨rfl, rfl, ⟨rfl, rfl⟩, hother r hr⟩
    · exact ⟨hrank.started, hpass.trans hrank.finished, hrank.startPlace,
        fun hne => absurd hst hne, hrank.succeeded⟩
    · exact fun todo htodo => .inr ⟨rfl, htodo⟩
  · rw [if_pos hout]
    have hstage : (s.leave q .idle).stage q = .idle := Function.update_self _ _ _
    have hdone : (s.leave q .idle).done q = s.done q + 1 := Function.update_self _ _ _
    refine h.move (q := q) h.start (h.finish.step hq hgate) (le_refl _) ?_ ?_ rfl rfl hpending ?_
    · intro r hr
      exact ⟨Function.update_of_ne hr _ _, Function.update_of_ne hr _ _, ⟨rfl, rfl⟩, hother r hr⟩
    · refine ⟨?_, ?_, fun _ => hplace, fun _ => hout, ?_⟩
      · show s.start.passed q = (s.leave q .idle).done q + ((s.leave q .idle).stage q).inside
        rw [hstage, hdone, hstarted]
        rfl
      · show gate.passed q = (s.leave q .idle).done q
        rw [hdone, hpass, hrank.finished]
      · show (s.leave q .idle).stage q ≠ .failed
        rw [hstage]
        exact nofun
    · intro todo htodo
      change ((s.leave q .idle).stage q).todo = some todo at htodo
      rw [hstage] at htodo
      cases htodo

/-- **A rank publishes:** nobody's stores matter then. -/
theorem publish (h : Ok S g g' s) (hq : q < S.parties) (hst : s.stage q = .running) (parity : ℕ)
    (p : Publication) : Ok S g g' (s.publish parity p) := by
  refine ⟨h.start, h.finish, fun r hr => ?_, ?_⟩
  · obtain ⟨h1, h2, h3, h4, h5⟩ := h.rank r hr
    exact ⟨h1, h2, h3, h4, h5⟩
  · intro r hr todo _ hlevel
    exact absurd hst (h.not_running hr hlevel hq)

/-- A store of a rank leaves its own effect, and those of the stores before. -/
theorem inEffect_store (hq : q < S.parties) {store : Store} {todo : List Store}
    (hst : s.stage q = .preparing (store :: todo)) {before : List Store}
    (hsplit : prepareStores (S.collective (s.done q + 1)) q = before ++ store :: todo)
    {other : Store} (hother : s.InEffect S (s.done q + 1) other ∨ other = store) :
    ((s.store ((s.done q + 1) % 2) store).goto q (.preparing todo)).InEffect S (s.done q + 1)
      other := by
  have hpending : ∀ {x}, s.CountPending S x → (∀ count, store ≠ .numReaders x count) →
      ((s.store ((s.done q + 1) % 2) store).goto q (.preparing todo)).CountPending S x := by
    rintro x ⟨p, hp, todo', hst', count, hmem⟩ hne
    by_cases hpq : p = q
    · subst hpq
      rw [hst] at hst'
      cases hst'
      rcases List.mem_cons.1 hmem with heq | hmem
      · exact absurd heq.symm (hne count)
      · exact ⟨p, hp, todo, Function.update_self _ _ _, count, hmem⟩
    · refine ⟨p, hp, todo', ?_, count, hmem⟩
      have hstage : (s.store ((s.done q + 1) % 2) store).stage = s.stage := by cases store <;> rfl
      show Function.update (s.store _ store).stage q _ p = _
      rw [Function.update_of_ne hpq, hstage]
      exact hst'
  cases other with
  | numReaders x count =>
    by_cases hx : ∃ n, store = .numReaders x n
    · -- the last store of the rank to the word has the count of the table
      obtain ⟨n, rfl⟩ := hx
      by_cases hmore : ∃ n', .numReaders x n' ∈ todo
      · obtain ⟨n', hmem⟩ := hmore
        exact .inr ⟨q, hq, todo, Function.update_self _ _ _, n', hmem⟩
      · refine .inl ?_
        show Function.update s.numReaders x n x = _
        rw [Function.update_self]
        exact last_count _ hsplit fun n' hmem => hmore ⟨n', hmem⟩
    · have hne : ∀ n, store ≠ .numReaders x n := fun n heq => hx ⟨n, heq⟩
      have hin := hother.resolve_right fun heq => hne count heq.symm
      rcases hin with hsame | hpend
      · refine .inl ?_
        rw [← hsame]
        cases store with
        | numReaders y n =>
          have hxy : x ≠ y := by
            rintro rfl
            exact hne n rfl
          exact Function.update_of_ne hxy _ _
        | write | consume | readerDone => rfl
      · exact .inr (hpending hpend hne)
  | write x =>
    show ((s.store _ store).epoch _).writeProgress x = 0
    cases store with
    | write y =>
      simp only [State.store, State.setEpoch, Function.update_self]
      by_cases hxy : x = y
      · rw [hxy, Function.update_self]
      · rw [Function.update_of_ne hxy]
        exact hother.resolve_right fun heq => hxy (Store.write.inj heq)
    | numReaders y n => exact hother.resolve_right nofun
    | consume y | readerDone id y =>
      simp only [State.store, State.setEpoch, Function.update_self]
      exact hother.resolve_right nofun
  | consume x =>
    show ((s.store _ store).epoch _).consumeProgress x = 0
    cases store with
    | consume y =>
      simp only [State.store, State.setEpoch, Function.update_self]
      by_cases hxy : x = y
      · rw [hxy, Function.update_self]
      · rw [Function.update_of_ne hxy]
        exact hother.resolve_right fun heq => hxy (Store.consume.inj heq)
    | numReaders y n => exact hother.resolve_right nofun
    | write y | readerDone id y =>
      simp only [State.store, State.setEpoch, Function.update_self]
      exact hother.resolve_right nofun
  | readerDone id x =>
    show ((s.store _ store).epoch _).readerDone id x = 0
    cases store with
    | readerDone id' y =>
      simp only [State.store, State.setEpoch, Function.update_self]
      by_cases hid : id = id'
      · subst hid
        rw [Function.update_self]
        by_cases hxy : x = y
        · rw [hxy, Function.update_self]
        · rw [Function.update_of_ne hxy]
          exact hother.resolve_right fun heq => hxy (Store.readerDone.inj heq).2
      · rw [Function.update_of_ne hid]
        exact hother.resolve_right fun heq => hid (Store.readerDone.inj heq).1
    | numReaders y n => exact hother.resolve_right nofun
    | write y | consume y =>
      simp only [State.store, State.setEpoch, Function.update_self]
      exact hother.resolve_right nofun

/-- **A rank stores** what it has to before it meets the others. -/
theorem store (h : Ok S g g' s) (hq : q < S.parties) {store : Store} {todo : List Store}
    (hst : s.stage q = .preparing (store :: todo)) :
    Ok S g g' ((s.store ((s.done q + 1) % 2) store).goto q (.preparing todo)) := by
  have hlevel := h.preparing_level hq hst
  obtain ⟨before, hsplit, heffect⟩ := h.stores q hq (store :: todo) (by rw [hst]; rfl) hlevel
  obtain ⟨hstage, hdone, hstart, hfinish⟩ : (s.store ((s.done q + 1) % 2) store).stage = s.stage ∧
      (s.store ((s.done q + 1) % 2) store).done = s.done ∧
      (s.store ((s.done q + 1) % 2) store).start = s.start ∧
      (s.store ((s.done q + 1) % 2) store).finish = s.finish := by
    cases store <;> exact ⟨rfl, rfl, rfl, rfl⟩
  have hself : ((s.store ((s.done q + 1) % 2) store).goto q (.preparing todo)).stage q =
      .preparing todo := Function.update_self _ _ _
  have hne : ∀ r, r ≠ q → ((s.store ((s.done q + 1) % 2) store).goto q (.preparing todo)).stage r =
      s.stage r := by
    intro r hr
    rw [← hstage]
    exact Function.update_of_ne hr _ _
  refine ⟨?_, ?_, ?_, ?_⟩
  · exact hstart.symm ▸ h.start
  · exact hfinish.symm ▸ h.finish
  · intro r hr
    have hrank := h.rank r hr
    by_cases hrq : r = q
    · subst hrq
      obtain ⟨h1, h2, h3, h4, -⟩ := hrank
      rw [hst] at h1 h3 h4
      refine ⟨?_, ?_, fun _ => ?_, fun _ => ?_, ?_⟩
      · show (s.store _ store).start.passed r = (s.store _ store).done r + _
        rw [hself, hstart, hdone]
        exact h1
      · show (s.store _ store).finish.passed r = (s.store _ store).done r
        rw [hfinish, hdone]
        exact h2
      · show (s.store _ store).start.place r = _
        rw [hstart]
        exact h3 nofun
      · show (s.store _ store).finish.place r = _
        rw [hfinish]
        exact h4 nofun
      · rw [hself]
        exact nofun
    · obtain ⟨h1, h2, h3, h4, h5⟩ := hrank
      refine ⟨?_, ?_, ?_, ?_, ?_⟩
      · show (s.store _ store).start.passed r = (s.store _ store).done r + _
        rw [hne r hrq, hstart, hdone]
        exact h1
      · show (s.store _ store).finish.passed r = (s.store _ store).done r
        rw [hfinish, hdone]
        exact h2
      · rw [hne r hrq]
        show _ → (s.store _ store).start.place r = _
        rw [hstart]
        exact h3
      · rw [hne r hrq]
        show _ → (s.store _ store).finish.place r = _
        rw [hfinish]
        exact h4
      · rw [hne r hrq]
        exact h5
  · intro r hr todo' htodo hlevel'
    change g + (s.store _ store).done r = (s.store _ store).start.generation at hlevel'
    show ∃ before, prepareStores (S.collective ((s.store _ store).done r + 1)) r = before ++ todo' ∧
      ∀ st ∈ before, State.InEffect S _ ((s.store _ store).done r + 1) st
    rw [hdone, hstart] at hlevel'
    rw [hdone]
    -- whoever waits for the start barrier is in the same collective
    have hsame : s.done r = s.done q := by omega
    by_cases hrq : r = q
    · subst hrq
      rw [hself] at htodo
      cases htodo
      refine ⟨before ++ [store], by rw [hsplit, List.append_assoc]; rfl, ?_⟩
      intro st hmem
      refine inEffect_store hr hst hsplit ?_
      rcases List.mem_append.1 hmem with hmem | hmem
      · exact .inl (heffect st hmem)
      · exact .inr (List.mem_singleton.1 hmem)
    · rw [hne r hrq] at htodo
      obtain ⟨before', hsplit', heffect'⟩ := h.stores r hr todo' htodo hlevel'
      refine ⟨before', hsplit', ?_⟩
      intro st hmem
      have hin := heffect' st hmem
      rw [hsame] at hin ⊢
      exact inEffect_store hq hst hsplit (.inl hin)

end Ok

/-! ## Every run -/

theorem Ok.step (h : Ok S g g' s) {l : Label} (hsucceeds : succeeds s l = true)
    (hstep : step S s l = some s') : Ok S g g' s' := by
  cases l with
  | fail r => cases hsucceeds
  | publish r p =>
    simp only [EpochReset.step] at hstep
    split at hstep
    · rename_i hr
      cases hstep
      exact h.publish hr.1 hr.2 _ p
    · cases hstep
  | complete r =>
    simp only [EpochReset.step] at hstep
    split at hstep
    · rename_i hr
      cases hstep
      refine h.goto hr.1 (by rw [hr.2]; rfl) (by rw [hr.2]; exact nofun) (by rw [hr.2]; exact nofun)
        nofun ?_ nofun
      intro todo htodo
      rw [hr.2] at htodo
      cases htodo
    · cases hstep
  | next r =>
    simp only [EpochReset.step] at hstep
    split at hstep
    · rename_i hr
      unfold next at hstep
      split at hstep
      case h_1 hst =>
        cases hstep
        refine h.goto hr (by rw [hst]; rfl) (by rw [hst]; exact nofun) (by rw [hst]; exact nofun)
          nofun ?_ ?_
        · intro todo htodo
          rw [hst] at htodo
          cases htodo
        · intro todo htodo
          cases htodo
          exact .inl rfl
      case h_2 hst => exact absurd hst (h.rank r hr).succeeded
      case h_3 store todo hst =>
        cases hstep
        exact h.store hr hst
      case h_4 hst =>
        cases hstep
        refine h.goto hr (by rw [hst]; rfl) (by rw [hst]; exact nofun) (by rw [hst]; exact nofun)
          nofun ?_ ?_
        · intro todo htodo
          rw [hst] at htodo
          cases htodo
          rfl
        · intro todo htodo
          rw [hst]
          exact .inr htodo
      case h_5 hst =>
        obtain ⟨gate, hgate, rfl⟩ := Option.map_eq_some_iff.1 hstep
        exact h.startGate hr hst hgate
      case h_6 => cases hstep
      case h_7 hst =>
        obtain ⟨gate, hgate, rfl⟩ := Option.map_eq_some_iff.1 hstep
        exact h.finishGate hr hst hgate
    · cases hstep

theorem Ok.initial (S : Series) (epoch : ℕ → EpochWords) (numReaders : Word → ℕ)
    (start finish : ℕ) : Ok S start finish (initial epoch numReaders start finish) := by
  refine ⟨.init S.parties_pos _, .init S.parties_pos _, ?_, ?_⟩
  · intro r _
    exact ⟨rfl, rfl, fun _ => rfl, fun _ => rfl, nofun⟩
  · intro r _ todo htodo
    cases htodo

theorem mem_prepareStores_reset {c : Collective} {key : ProgressKey} (hkey : key ∈ c.active r)
    {store : Store} (hstore : store ∈ resetStores key) : store ∈ prepareStores c r :=
  List.mem_append_right _ (List.mem_flatMap.2 ⟨key, hkey, hstore⟩)

theorem mem_prepareStores_count {c : Collective} {key : ProgressKey} (hkey : key ∈ c.active r) :
    .numReaders (wordOf key) 0 ∈ prepareStores c r :=
  List.mem_append_left _ (List.mem_append_left _ (List.mem_map.2 ⟨key, hkey, rfl⟩))

/-- **When the start barrier opens** everybody's stores are in effect. -/
theorem Ok.opens (h : Ok S g g' s) (hq : q < S.parties)
    {gate : Gate.State} (hgate : Gate.step S.parties s.start q = some gate)
    (hne : gate.generation ≠ s.start.generation) :
    ∃ k, gate.generation = g + k ∧ CursorsClean S k s ∧
      CountsCompiled S k (S.collective k).Unshared s := by
  obtain ⟨hopen, hall⟩ := h.start.opens hq hgate hne
  have hstarting : ∀ r < S.parties, s.stage r = .starting := by
    intro r hr
    by_contra hno
    exact (hall r hr).1 ((h.rank r hr).startPlace hno)
  have hdone : ∀ r < S.parties, g + s.done r = s.start.generation := by
    intro r hr
    have hpassed := (hall r hr).2
    rw [(h.rank r hr).started, hstarting r hr] at hpassed
    exact hpassed
  have heffect : ∀ r < S.parties, ∀ store ∈ prepareStores (S.collective (s.done q + 1)) r,
      s.InEffect S (s.done q + 1) store := by
    intro r hr store hmem
    have hsame : s.done r = s.done q := by
      have h1 := hdone r hr
      have h2 := hdone q hq
      omega
    obtain ⟨before, hsplit, hbefore⟩ := h.stores r hr [] (by rw [hstarting r hr]; rfl) (hdone r hr)
    rw [hsame, List.append_nil] at hsplit
    rw [hsame] at hbefore
    exact hbefore store (hsplit ▸ hmem)
  refine ⟨s.done q + 1, ?_, ?_, ?_⟩
  · have hlevel := hdone q hq
    omega
  · intro r hr key hkey
    have hstores : ∀ store ∈ resetStores key, s.InEffect S (s.done q + 1) store :=
      fun store hmem => heffect r hr store (mem_prepareStores_reset hkey hmem)
    unfold resetStores at hstores
    rw [if_pos ((S.collective _).inBounds r key hkey)] at hstores
    refine ⟨hstores (.write _) List.mem_cons_self,
      hstores (.consume _) (List.mem_cons_of_mem _ List.mem_cons_self), ?_⟩
    intro id hid
    refine hstores (.readerDone id _) (List.mem_cons_of_mem _ (List.mem_cons_of_mem _ ?_))
    exact List.mem_map.2 ⟨id, List.mem_range.2 hid, rfl⟩
  · intro r hr key hkey hunshared
    rw [← finalCount_unshared _ hunshared]
    rcases heffect r hr _ (mem_prepareStores_count hkey) with hfinal | ⟨p, hp, todo, hprep, -⟩
    · exact hfinal
    · rw [hstarting p hp] at hprep
      cases hprep

/-- **What a step can do:** a rank stores what it has to, or the counts stay, and a rank moves. -/
theorem step_cases {l : Label} (hsucceeds : succeeds s l = true) (hstep : step S s l = some s') :
    ∃ r < S.parties,
      (∃ store todo, s.stage r = .preparing (store :: todo) ∧
        s' = (s.store ((s.done r + 1) % 2) store).goto r (.preparing todo)) ∨
      (s.stage r = .failed ∨ s'.numReaders = s.numReaders ∧
        (∀ q, q ≠ r → s'.stage q = s.stage q ∧ s'.done q = s.done q) ∧
        (s'.start = s.start ∨ Gate.step S.parties s.start r = some s'.start ∧ s'.epoch = s.epoch) ∧
        (s'.done r = s.done r ∧ (s.stage r = .finishing → s'.stage r = .finishing) ∨
          s'.done r = s.done r + 1 ∧ s.stage r = .finishing)) := by
  cases l with
  | fail r => cases hsucceeds
  | publish r p =>
    simp only [EpochReset.step] at hstep
    split at hstep
    · rename_i hr
      cases hstep
      exact ⟨r, hr.1, .inr (.inr ⟨rfl, fun _ _ => ⟨rfl, rfl⟩, .inl rfl, .inl ⟨rfl, id⟩⟩)⟩
    · cases hstep
  | complete r =>
    simp only [EpochReset.step] at hstep
    split at hstep
    · rename_i hr
      cases hstep
      refine ⟨r, hr.1, .inr (.inr ⟨rfl, ?_, .inl rfl, .inl ⟨rfl, ?_⟩⟩)⟩
      · exact fun q hq => ⟨Function.update_of_ne hq _ _, rfl⟩
      · exact fun _ => Function.update_self _ _ _
    · cases hstep
  | next r =>
    simp only [EpochReset.step] at hstep
    split at hstep
    · rename_i hr
      refine ⟨r, hr, ?_⟩
      have hmoves : ∀ {stage}, s.stage r ≠ .finishing →
          (∀ q, q ≠ r → (s.goto r stage).stage q = s.stage q ∧ s.done q = s.done q) ∧
            (s.stage r = .finishing → (s.goto r stage).stage r = .finishing) :=
        fun hne => ⟨fun q hq => ⟨Function.update_of_ne hq _ _, rfl⟩, fun h => absurd h hne⟩
      unfold next at hstep
      split at hstep
      case h_1 hst =>
        cases hstep
        obtain ⟨hothers, hself⟩ := hmoves (by rw [hst]; exact nofun)
        exact .inr (.inr ⟨rfl, hothers, .inl rfl, .inl ⟨rfl, hself⟩⟩)
      case h_2 hst => exact .inr (.inl hst)
      case h_3 store todo hst =>
        cases hstep
        exact .inl ⟨store, todo, hst, rfl⟩
      case h_4 hst =>
        cases hstep
        obtain ⟨hothers, hself⟩ := hmoves (by rw [hst]; exact nofun)
        exact .inr (.inr ⟨rfl, hothers, .inl rfl, .inl ⟨rfl, hself⟩⟩)
      case h_5 hst =>
        obtain ⟨gate, hgate, rfl⟩ := Option.map_eq_some_iff.1 hstep
        obtain ⟨hothers, hself⟩ := hmoves (by rw [hst]; exact nofun)
        exact .inr (.inr ⟨rfl, hothers, .inr ⟨hgate, rfl⟩, .inl ⟨rfl, hself⟩⟩)
      case h_6 => cases hstep
      case h_7 hst =>
        obtain ⟨gate, hgate, rfl⟩ := Option.map_eq_some_iff.1 hstep
        refine .inr (.inr ?_)
        split
        · refine ⟨rfl, fun q hq => ⟨Function.update_of_ne hq _ _, Function.update_of_ne hq _ _⟩,
            .inl rfl, .inr ⟨Function.update_self _ _ _, hst⟩⟩
        · exact ⟨rfl, fun _ _ => ⟨rfl, rfl⟩, .inl rfl, .inl ⟨rfl, id⟩⟩
    · cases hstep

/-- While a rank is not done with the collective whose start barrier has opened last, the counts
are those compiled for it. -/
def Counted (S : Series) (g : ℕ) (s : State) : Prop :=
  ∀ k, 0 < k → s.start.generation = g + k →
    (∃ q < S.parties, s.done q < k ∧ s.stage q ≠ .finishing) →
      CountsCompiled S k (S.collective k).Unshared s

theorem Counted.step (hc : Counted S g s) (h : Ok S g g' s) {l : Label}
    (hsucceeds : succeeds s l = true) (hstep : EpochReset.step S s l = some s') :
    Counted S g s' := by
  intro k hpos hgen hbusy
  obtain ⟨q, hq, hdone, hstage⟩ := hbusy
  obtain ⟨r, hr, hmove⟩ := step_cases hsucceeds hstep
  rcases hmove with ⟨store, todo, hst, rfl⟩ | hfailed | ⟨hcounts, hothers, hstart, hself⟩
  · -- a rank that stores has met everybody at the end barrier
    have hsame : (s.store ((s.done r + 1) % 2) store).stage = s.stage ∧
        (s.store ((s.done r + 1) % 2) store).done = s.done ∧
        (s.store ((s.done r + 1) % 2) store).start = s.start := by
      cases store <;> exact ⟨rfl, rfl, rfl⟩
    change (s.store _ store).done q < k at hdone
    change (s.store _ store).start.generation = g + k at hgen
    rw [hsame.2.1] at hdone
    rw [hsame.2.2] at hgen
    have hmet := h.preparing_ended hr hst hgen.ge hq
    have hplace : s.finish.place q = .outside := by
      apply (h.rank q hq).finishPlace
      by_cases hqr : q = r
      · rw [hqr, hst]
        exact nofun
      · intro hfin
        apply hstage
        show Function.update (s.store _ store).stage r _ q = _
        rw [Function.update_of_ne hqr, hsame.1]
        exact hfin
    rw [Gate.State.arrived_outside hplace, (h.rank q hq).finished] at hmet
    omega
  · exact absurd hfailed (h.rank r hr).succeeded
  · unfold CountsCompiled
    rw [hcounts]
    by_cases hopen : s'.start.generation = s.start.generation
    · rw [hopen] at hgen
      refine hc k hpos hgen ⟨q, hq, ?_⟩
      by_cases hqr : q = r
      · subst hqr
        rcases hself with ⟨hsame, hstays⟩ | ⟨hnext, hfin⟩
        · exact ⟨by omega, fun hfin => hstage (hstays hfin)⟩
        · -- a rank in the end barrier is in the collective that has started last
          have hrank := h.rank q hq
          have hlevel := h.start.level_outside hq (hrank.startPlace (by rw [hfin]; exact nofun))
          rw [hrank.started, hfin] at hlevel
          simp only [Stage.inside] at hlevel
          omega
      · obtain ⟨hsame, hsameDone⟩ := hothers q hqr
        rw [hsame] at hstage
        rw [hsameDone] at hdone
        exact ⟨hdone, hstage⟩
    · rcases hstart with hsame | ⟨hgate, -⟩
      · exact absurd (by rw [hsame]) hopen
      · obtain ⟨k', hk', -, hcompiled⟩ := h.opens hr hgate hopen
        obtain rfl : k' = k := by omega
        exact hcompiled

/-- **A collective starts clean.**  In every run without a failed collective: when a step opens the
start barrier, it opens it for a collective whose active keys have cursors of zero; while a rank
runs, the counts of the active keys are those compiled for its collective, where no other key of
the reader table has their word; and a rank that has a count or a cursor to store has met every
rank at the end barrier of all collectives whose start barrier has opened. -/
theorem start_clean (S : Series) (epoch : ℕ → EpochWords) (numReaders : Word → ℕ)
    (start finish : ℕ) {labels : List Label} {s : State}
    (hrun : (machine S).runFrom succeeds (initial epoch numReaders start finish) labels = some s) :
    (∀ l s', step S s l = some s' → s'.start.generation ≠ s.start.generation →
      ∃ k, s'.start.generation = start + k ∧ CursorsClean S k s' ∧
        CountsCompiled S k (S.collective k).Unshared s') ∧
    (∀ r < S.parties, s.stage r = .running →
      CountsCompiled S (s.done r + 1) (S.collective (s.done r + 1)).Unshared s) ∧
    ∀ r < S.parties, ∀ store todo, s.stage r = .preparing (store :: todo) →
      ∀ k, start + k ≤ s.start.generation → ∀ q < S.parties, k ≤ s.finish.arrived q := by
  obtain ⟨h, hc⟩ := (machine S).invariant (I := fun s => Ok S start finish s ∧ Counted S start s)
    (fun s l s' hs hsucceeds hstep =>
      ⟨hs.1.step hsucceeds hstep, hs.2.step hs.1 hsucceeds hstep⟩)
    ⟨.initial S _ _ _ _, fun k hpos hgen => absurd (show start = start + k from hgen) (by omega)⟩ hrun
  refine ⟨?_, ?_, fun r hr store todo hst k hk q hq => h.preparing_ended hr hst hk hq⟩
  · intro l s' hstep hne
    cases l with
    | fail r =>
      simp only [EpochReset.step] at hstep
      split at hstep
      · cases hstep
        exact absurd rfl hne
      · cases hstep
    | next r | publish r p | complete r =>
      obtain ⟨r, hr, hmove⟩ := step_cases rfl hstep
      rcases hmove with ⟨store, todo, -, rfl⟩ | hfailed | ⟨hcounts, -, hstart, -⟩
      · refine absurd ?_ hne
        cases store <;> rfl
      · exact absurd hfailed (h.rank r hr).succeeded
      · rcases hstart with hsame | ⟨hgate, hepoch⟩
        · exact absurd (by rw [hsame]) hne
        · unfold CursorsClean CountsCompiled
          rw [hcounts, hepoch]
          exact h.opens hr hgate hne
  · intro r hr hst
    have hrank := h.rank r hr
    have hlevel := h.start.level_outside hr (hrank.startPlace (by rw [hst]; exact nofun))
    rw [hrank.started, hst] at hlevel
    exact hc _ (Nat.succ_pos _) hlevel.symm ⟨r, hr, Nat.lt_succ_self _, by rw [hst]; exact nofun⟩

/-! ## Two ranks -/

/-- A rank takes some steps outside the run loop. -/
def rankSteps (r n : ℕ) : List Label := List.replicate n (.next r)

/-- All words are zero, the barriers are new. -/
def noWords : State :=
  initial (fun _ => ⟨fun _ => 0, fun _ => 0, fun _ _ => 0⟩) (fun _ => 0) 0 0

def firstKey : ProgressKey := ⟨hostKey 0 0, 1⟩

/-- The keys, which all ranks use. -/
def Collective.ofTable (readers : List (ProgressKey × ℕ)) (hnodup : (readers.map Prod.fst).Nodup)
    (hbounds : ∀ key ∈ readers.map Prod.fst, keyInBounds key.base = true) : Collective :=
  ⟨fun _ => readers.map Prod.fst, readers, hnodup, fun _ => hbounds⟩

/-- Two ranks whose collectives have one key. -/
def pair : Series where
  parties := 2
  parties_pos := Nat.two_pos
  collective := fun _ => .ofTable [(firstKey, 1)] (by decide) (by decide)

/-- Both ranks are in the start barrier, and rank 1 is to open it. -/
def bothStarting : List Label := rankSteps 0 40 ++ rankSteps 1 41

theorem start_clean_pair : ∃ s s',
    (machine pair).runFrom succeeds noWords bothStarting = some s ∧
      step pair s (.next 1) = some s' ∧ s'.start.generation = 1 ∧ CursorsClean pair 1 s' ∧
        CountsCompiled pair 1 (pair.collective 1).Unshared s' := by
  have hobs : ((machine pair).runFrom succeeds noWords bothStarting).map (fun s =>
      (s.start.generation, (step pair s (.next 1)).map fun s' => s'.start.generation)) =
      some (0, some 1) := by decide +kernel
  obtain ⟨s, hrun, hs⟩ := Option.map_eq_some_iff.1 hobs
  obtain ⟨hbefore, hopen⟩ := Prod.mk.inj hs
  obtain ⟨s', hstep, hgen⟩ := Option.map_eq_some_iff.1 hopen
  obtain ⟨k, hk, hclean, hcounts⟩ := (start_clean pair _ _ 0 0 hrun).1 _ s' hstep (by omega)
  obtain rfl : k = 1 := by omega
  exact ⟨s, s', hrun, hstep, hgen, hclean, hcounts⟩

/-- One rank whose collectives have two keys with one word. -/
def sharing : Series where
  parties := 1
  parties_pos := Nat.one_pos
  collective := fun _ =>
    .ofTable [(firstKey, 1), (⟨hostKey 0 0, 17⟩, 2)] (by decide) (by decide)

/-- **Not every start is clean:** for a rank that is not the first to pass, for a key that shares
its word, and with a rank whose collective fails. -/
theorem start_unclean :
    (¬ ∀ labels s r s', (machine pair).runFrom succeeds noWords labels = some s →
      step pair s (.next r) = some s' → s.stage r = .starting → s'.stage r = .running →
        CursorsClean pair (s.done r + 1) s') ∧
    (¬ ∀ labels s r s', (machine sharing).runFrom succeeds noWords labels = some s →
      step sharing s (.next r) = some s' → s.stage r = .starting → s'.stage r = .running →
        CountsCompiled sharing (s.done r + 1) (fun _ => True) s') ∧
    ¬ ∀ labels s, (machine pair).runFrom Machine.anyStep noWords labels = some s →
      ∀ r < 2, ∀ store todo, s.stage r = .preparing (store :: todo) →
        ∀ k, 0 + k ≤ s.start.generation → ∀ q < 2, k ≤ s.finish.arrived q := by
  refine ⟨?_, ?_, ?_⟩
  · intro hall
    -- rank 1 has published when rank 0 passes
    have hobs : ((machine pair).runFrom succeeds noWords (bothStarting ++ rankSteps 1 1 ++
        [.publish 1 (.setWriteProgress firstKey 1)])).map (fun s =>
        (s.stage 0, s.done 0, (step pair s (.next 0)).map fun s' =>
          (s'.stage 0, (s'.epoch 1).writeProgress (wordOf firstKey)))) =
        some (.starting, 0, some (.running, 1)) := by decide +kernel
    obtain ⟨s, hrun, hs⟩ := Option.map_eq_some_iff.1 hobs
    simp only [Prod.mk.injEq] at hs
    obtain ⟨hstage, hdone, hpass⟩ := hs
    obtain ⟨s', hstep, hs'⟩ := Option.map_eq_some_iff.1 hpass
    obtain ⟨hstage', hword⟩ := Prod.mk.inj hs'
    have hclean := hall _ s 0 s' hrun hstep hstage hstage'
    rw [hdone] at hclean
    have hzero := (hclean 0 Nat.two_pos firstKey List.mem_cons_self).1
    change (s'.epoch 1).writeProgress (wordOf firstKey) = 0 at hzero
    omega
  · intro hall
    -- the count of the second key is stored last
    have hobs : ((machine sharing).runFrom succeeds noWords (rankSteps 0 77)).map (fun s =>
        (s.stage 0, s.done 0, (step sharing s (.next 0)).map fun s' =>
          (s'.stage 0, s'.numReaders (wordOf firstKey)))) =
        some (.starting, 0, some (.running, 2)) := by decide +kernel
    obtain ⟨s, hrun, hs⟩ := Option.map_eq_some_iff.1 hobs
    simp only [Prod.mk.injEq] at hs
    obtain ⟨hstage, hdone, hpass⟩ := hs
    obtain ⟨s', hstep, hs'⟩ := Option.map_eq_some_iff.1 hpass
    obtain ⟨hstage', hcount⟩ := Prod.mk.inj hs'
    have hcounts := hall _ s 0 s' hrun hstep hstage hstage'
    have hone : s'.numReaders (wordOf firstKey) = 1 :=
      hcounts 0 Nat.one_pos firstKey List.mem_cons_self trivial
    omega
  · intro hall
    -- rank 0 takes its second collective while rank 1 runs the first
    have hobs : ((machine pair).runFrom Machine.anyStep noWords (bothStarting ++ rankSteps 1 1 ++
        rankSteps 0 1 ++ [.fail 0] ++ rankSteps 0 1)).map (fun s =>
        (s.stage 0, s.start.generation, s.finish.arrived 1)) =
        some (.preparing (prepareStores (pair.collective 2) 0), 1, 0) := by decide +kernel
    obtain ⟨s, hrun, hs⟩ := Option.map_eq_some_iff.1 hobs
    simp only [Prod.mk.injEq] at hs
    obtain ⟨hstage, hgen, harrived⟩ := hs
    have hmet := hall _ s hrun 0 Nat.two_pos _ _ hstage 1 (by omega) 1 Nat.one_lt_two
    omega

end EpochReset
end Ascend
end HyLink
