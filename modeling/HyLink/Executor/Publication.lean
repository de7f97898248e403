import HyLink.Executor.Ledger

/-!
# What the published cursors say

A node's write cursor and its reader cursors count a prefix of its slices, but
the executor publishes a slice as soon as it finds it complete: H2H completions
are polled in whatever order they come, and a slice without bytes is published
at submission, whatever is still in flight.

The cursors are right exactly where publication is in order.  `Publishes.InOrder`
says so of one step, for the nodes in question, and

* `Sound.step` — a step that publishes in order keeps the cursors sound;
* `h2h_publication_sound` — H2H cursors are sound in every run in which no H2H
  slice is published while an earlier slice of its node is unfinished;
* `dma_publication_sound` — DMA cursors are sound in every run in which no DMA
  slice is published at submission while an earlier one is unfinished: the event
  rings publish in order by themselves.
-/

namespace HyLink
namespace Executor

open Ir Compiler

/-! ## Publishing in order -/

/-- No slice of node `i` before `sc` is unfinished in flight. -/
def Exec.earlierFinished (e : Exec) (i : ℕ) (n : InstructionNode) (sc : ℕ) : Bool :=
  (e.inflight (queueOf n)).all fun x => decide (x.node = i → x.sc < sc → x.finished = true)

namespace Cluster

variable (c : Cluster)

/-- A step publishes no slice of a node in `Q` before the earlier ones are finished. -/
def publishesInOrder (Q : InstructionNode → Bool) (s : State) (l : Label) : Bool :=
  match (s.execs l.rank).published l with
  | none => true
  | some (i, sc) =>
      match c.node? l.rank i with
      | none => true
      | some n => !Q n || (s.execs l.rank).earlierFinished i n sc

/-- A slice is complete: nothing of it is unfinished in flight, every worker has worked
through its share, and with that every byte up to the last whole unit. -/
structure SliceComplete (tr : List Piece) (s : State) (r i : ℕ) (n : InstructionNode) (sc : ℕ) :
    Prop where
  done : SliceDone (s.execs r) i sc
  executed : c.SliceExecuted tr r i n sc
  covered : ∀ x < c.subchunkSize n sc / c.workUnit n * c.workUnit n, Executed tr r i sc x

def isHostNode (n : InstructionNode) : Bool := decide (n.op = .h2h ∨ n.op = .h2hReduce)

def isDmaNode (n : InstructionNode) : Bool :=
  decide (n.op = .d2h ∨ n.op = .h2d ∨ n.op = .d2d ∨ n.op = .d2dReduce)

/-- No H2H slice is published before the earlier slices of its node are finished. -/
def h2hInOrder : State → Label → Bool := c.publishesInOrder isHostNode

/-- No DMA slice is published at its submission, for want of bytes to move, before the
earlier slices of its node are finished. -/
def shortcutsInOrder (s : State) : Label → Bool
  | .run r => c.publishesInOrder isDmaNode s (.run r)
  | _ => true

end Cluster

/-- Whatever an operation still publishes for a node in `Q` is done. -/
def OpSound (c : Cluster) (Q : InstructionNode → Bool) (r : ℕ) (e : Exec) : Op → Prop
  | .advanceWriteProgress key value =>
      ∀ i n, c.node? r i = some n → Q n = true → n.output = key → ∀ sc < value, SliceDone e i sc
  | .advanceReaderDone key id value =>
      ∀ i n, c.node? r i = some n → Q n = true → c.Reads r i key id → ∀ sc < value,
        SliceDone e i sc
  | _ => True

/-- The cursors of the nodes in `Q` count done slices only. -/
structure Sound (c : Cluster) (Q : InstructionNode → Bool) (s : State) : Prop where
  write : ∀ r < c.worldSize, ∀ i n, c.node? r i = some n → Q n = true →
    ∀ sc < s.words.getWriteProgress n.output, SliceDone (s.execs r) i sc
  reader : ∀ r < c.worldSize, ∀ i n, c.node? r i = some n → Q n = true →
    ∀ key id, c.Reads r i key id → ∀ sc < s.words.getReaderDone id key,
      SliceDone (s.execs r) i sc
  ops : ∀ r < c.worldSize, ∀ op ∈ (s.execs r).todo, OpSound c Q r (s.execs r) op

section

variable {c : Cluster} {Q : InstructionNode → Bool} {r : ℕ} {e e' : Exec} {w w' : SharedWords}
  {s s' : State} {l : Label}

theorem Tidy.entry_unique (h : Tidy c r e) {q : Queue} {x y : Inflight} (hx : x ∈ e.inflight q)
    (hy : y ∈ e.inflight q) (hnode : x.node = y.node) (hsc : x.sc = y.sc) : x = y := by
  obtain ⟨a, ha, rfl⟩ := List.getElem_of_mem hx
  obtain ⟨b, hb, rfl⟩ := List.getElem_of_mem hy
  have hp := List.pairwise_iff_getElem.1 (h.sorted q)
  rcases Nat.lt_trichotomy a b with hab | rfl | hab
  · have := hp a b ha hb hab hnode; omega
  · rfl
  · have := hp b a hb ha hab hnode.symm; omega

/-- All entries of a node are in the node's own queue. -/
theorem Tidy.mem_queueOf (h : Tidy c r e) {q : Queue} {x : Inflight} (hx : x ∈ e.inflight q)
    {n : InstructionNode} (hn : c.node? r x.node = some n) : x ∈ e.inflight (queueOf n) := by
  obtain ⟨n', hn', rfl⟩ := h.queue q x hx
  cases hn.symm.trans hn'
  exact hx

/-- When a step publishes a slice and the earlier ones are finished, every slice up
to the published one is done. -/
theorem done_of_published (ht : Tidy c r e) (hm : Motion c r e e' l) {i sc : ℕ}
    {n : InstructionNode} (hpub : e.published l = some (i, sc)) (hn : c.node? r i = some n)
    (hord : e.earlierFinished i n sc = true) {k : ℕ} (hk : k < sc + 1) : SliceDone e' i k := by
  have hearlier : ∀ q, ∀ x ∈ e.inflight q, x.node = i → x.sc < sc → x.finished = true :=
    fun q x hx hi hsc => by
      subst hi
      exact of_decide_eq_true (List.all_eq_true.1 hord x (ht.mem_queueOf hx hn)) rfl hsc
  cases hm with
  | @finish r' i' _ hhead _ hnext _ hin _ =>
    simp only [Exec.published, hhead, Option.some.injEq, Prod.mk.injEq] at hpub
    obtain ⟨rfl, rfl⟩ := hpub
    refine ⟨by rw [hnext, Function.update_self]; exact hk, fun q x hx hi hsc => ?_⟩
    rw [hin] at hx
    have hissued := ht.issued q x hx
    rw [hi] at hissued
    exact hearlier q x hx hi hissued
  | @poll r' q j entry _ _ _ hentry hfinished _ hnext _ hin _ =>
    simp only [Exec.published, hentry, Option.map_some, Option.some.injEq,
      Prod.mk.injEq] at hpub
    obtain ⟨rfl, rfl⟩ := hpub
    have hmem := List.mem_of_getElem? hentry
    refine ⟨?_, fun q' x hx hi hsc => ?_⟩
    · rw [hnext]
      exact (Nat.le_of_lt_succ hk).trans_lt (ht.issued q entry hmem)
    · rw [hin] at hx
      have hx' := mem_update_eraseIdx hx
      rcases Nat.lt_or_ge x.sc entry.sc with hlt | hge
      · exact hearlier q' x hx' hi hlt
      · have hx'' : x ∈ e.inflight q := by
          obtain ⟨n₁, hn₁, rfl⟩ := ht.queue q entry hmem
          exact ht.mem_queueOf hx' (hi ▸ hn₁)
        rw [ht.entry_unique hx'' hmem hi (by omega)]
        exact hfinished
  | push hhead =>
    rcases hhead with hhead | hhead
    · rw [published_run hhead fun i h => by cases h] at hpub
      cases hpub
    · rw [published_run hhead fun i h => by cases h] at hpub
      cases hpub
  | work => cases hpub
  | count => cases hpub
  | still _ _ _ hquiet => exact absurd hn (hquiet i sc n hpub)

/-! ## Which operations publish -/

theorem OpSound.of_startOps {op : Op} (h : op ∈ c.startOps r) : OpSound c Q r e op := by
  simp only [Cluster.startOps, List.mem_append, List.mem_cons, List.mem_map] at h
  rcases h with (⟨k, -, rfl⟩ | ⟨k, -, rfl⟩) | rfl | ⟨k, -, rfl⟩ <;> exact trivial

theorem OpSound.of_remoteReady {n : InstructionNode} {op : Op} (h : op ∈ remoteReady n) :
    OpSound c Q r e op := by
  simp only [remoteReady] at h
  split at h <;> simp only [List.mem_singleton, List.not_mem_nil] at h
  subst h
  exact trivial

theorem OpSound.of_attemptOps {n : InstructionNode} {i sc : ℕ} {op : Op}
    (h : op ∈ c.attemptOps r i n sc) : OpSound c Q r e op := by
  rcases kind_attemptOps h with h | h <;> cases op <;> first | exact trivial | cases h

/-- The operations that publish slice `sc` are sound when every slice up to it is done. -/
theorem OpSound.of_publishOps {i sc : ℕ} {n : InstructionNode} (hn : c.node? r i = some n)
    (hdone : Q n = true → ∀ k < sc + 1, SliceDone e i k) {op : Op} (h : op ∈ publishOps n sc) :
    OpSound c Q r e op := by
  simp only [publishOps, List.mem_cons, List.mem_filterMap, Option.map_eq_some_iff] at h
  rcases h with rfl | ⟨x, hx, id, hid, rfl⟩
  · intro i' n' hn' hQ hout
    obtain ⟨-, rfl⟩ := node?_injective hn' hn hout
    cases hn.symm.trans hn'
    exact hdone hQ
  · intro i' n' hn' hQ hreads
    obtain ⟨-, rfl⟩ := hreads.injective ⟨n, hn, x, hx, rfl, hid⟩
    cases hn.symm.trans hn'
    exact hdone hQ

theorem OpSound.mono (hm : Motion c r e e' l) {op : Op} (h : OpSound c Q r e op) :
    OpSound c Q r e' op := by
  cases op with
  | advanceWriteProgress key value =>
    exact fun i n hn hQ hout sc hsc => (h i n hn hQ hout sc hsc).of_motion hm
  | advanceReaderDone key id value =>
    exact fun i n hn hQ hreads sc hsc => (h i n hn hQ hreads sc hsc).of_motion hm
  | _ => exact trivial

/-- Operations a step adds are sound if the step publishes in order. -/
theorem OpSound.of_fresh (ht : Tidy c r e) (hm : Motion c r e e' l)
    (hord : ∀ i sc n, e.published l = some (i, sc) → c.node? r i = some n → Q n = true →
      e.earlierFinished i n sc = true) {op : Op} (h : Fresh c r w e l op) :
    OpSound c Q r e' op := by
  cases h with
  | start hop => exact .of_startOps hop
  | attempt _ _ _ hop => exact .of_attemptOps hop
  | @poll r' q j entry n _ hq hentry _ hn hop =>
    have hpub : e.published (.poll r' q j) = some (entry.node, entry.sc) := by
      simp only [Exec.published, hentry, Option.map_some]
    exact .of_publishOps hn
      (fun hQ _ hk => done_of_published ht hm hpub hn (hord _ _ n hpub hn hQ) hk) hop
  | @finish r' i n _ hhead hn hop =>
    have hpub : e.published (.run r') = some (i, e.next i) := by
      simp only [Exec.published, hhead]
    exact .of_publishOps hn
      (fun hQ _ hk => done_of_published ht hm hpub hn (hord _ _ n hpub hn hQ) hk) hop
  | record _ _ hop =>
    rcases List.mem_append.1 hop with hop | hop
    · exact .of_remoteReady hop
    · rw [List.mem_singleton] at hop
      subst hop
      exact trivial
  | _ => exact trivial

/-! ## Soundness is preserved -/

/-- **A step that publishes in order keeps the cursors sound.** -/
theorem Sound.step (hd : c.DistinctWords) (hb : Base c s) (h : Sound c Q s)
    (hord : ∀ i sc n, (s.execs l.rank).published l = some (i, sc) →
      c.node? l.rank i = some n → Q n = true →
      (s.execs l.rank).earlierFinished i n sc = true)
    (hstep : c.machine.step s l = some s') : Sound c Q s' := by
  obtain ⟨hr₀, w, e, hlocal, rfl⟩ := step_cases hstep
  have hm := Motion.of_localStep hlocal
  have hstores := Stores.of_localStep hlocal
  have hlift : ∀ {r i sc}, SliceDone (s.execs r) i sc →
      SliceDone (Function.update s.execs l.rank e r) i sc := fun {r i sc} hdone => by
    by_cases hr : r = l.rank
    · subst hr; rw [Function.update_self]; exact hdone.of_motion hm
    · rwa [Function.update_of_ne hr]
  have horigin : ∀ {op}, (s.execs l.rank).todo.head? = some op → Origin c l.rank op :=
    fun hhead => hb.origin _ _ (List.mem_of_mem_head? hhead)
  have hops : ∀ {op}, (s.execs l.rank).todo.head? = some op →
      OpSound c Q l.rank (s.execs l.rank) op :=
    fun hhead => h.ops _ hr₀ _ (List.mem_of_mem_head? hhead)
  constructor
  · intro r hr i n hn hQ sc hsc
    have hkey := mem_allKeys_of_active hr (output_active hn)
    rcases hstores.writeProgress n.output with heq | ⟨k, v, hword, ⟨hhead, heq⟩ | ⟨hhead, heq⟩⟩
    · exact hlift (h.write r hr i n hn hQ sc (heq ▸ hsc))
    · -- a version of the start-up stores is never an output
      obtain ⟨hk, -⟩ := horigin hhead
      have hsame := hd.eq hkey (mem_allKeys_of_active hr₀ (initial_active hk)) hword
      have := version_pos_of_node? hn
      rw [hsame, version_of_initial hk] at this
      exact absurd this (lt_irrefl _)
    · obtain ⟨⟨i', n', hn', hout⟩, -⟩ := horigin hhead
      have hsame := hd.eq hkey
        (hout ▸ mem_allKeys_of_active hr₀ (output_active hn')) hword
      obtain ⟨rfl, rfl⟩ := node?_injective hn hn' (hsame.trans hout.symm)
      simp only at hsc
      rw [heq, lt_max_iff] at hsc
      rcases hsc with hsc | hsc
      · exact hlift (h.write _ hr i n hn hQ sc hsc)
      · exact hlift (hops hhead i n hn hQ hsame sc hsc)
  · intro r hr i n hn hQ key id hreads sc hsc
    rcases hstores.readerDone id key with heq | ⟨k, v, hword, hhead, heq⟩
    · exact hlift (h.reader r hr i n hn hQ key id hreads sc (heq ▸ hsc))
    · obtain ⟨⟨i', hreads'⟩, -⟩ := horigin hhead
      obtain rfl := hd.eq (hreads.mem_allKeys hr) (hreads'.mem_allKeys hr₀) hword
      obtain ⟨rfl, rfl⟩ := hreads.injective hreads'
      simp only at hsc
      rw [heq, lt_max_iff] at hsc
      rcases hsc with hsc | hsc
      · exact hlift (h.reader _ hr i n hn hQ key id hreads sc hsc)
      · exact hlift (hops hhead i n hn hQ hreads sc hsc)
  · intro r hr op hop
    by_cases hrank : r = l.rank
    · subst hrank
      simp only [Function.update_self] at hop ⊢
      rcases Fresh.of_mem_todo hlocal hop with hop | hf
      · exact (h.ops _ hr op hop).mono hm
      · exact .of_fresh (hb.tidy _) hm hord hf
    · simp only [Function.update_of_ne hrank] at hop ⊢
      exact h.ops r hr op hop

theorem Sound.init (stale : Word → ℕ) : Sound c Q (State.init stale) :=
  ⟨fun _ _ _ _ _ _ _ h => absurd h (Nat.not_lt_zero _),
    fun _ _ _ _ _ _ _ _ _ _ h => absurd h (Nat.not_lt_zero _), by simp [State.init]⟩

theorem earlierFinished_of_publishesInOrder (h : c.publishesInOrder Q s l = true) {i sc : ℕ}
    {n : InstructionNode} (hpub : (s.execs l.rank).published l = some (i, sc))
    (hn : c.node? l.rank i = some n) (hQ : Q n = true) :
    (s.execs l.rank).earlierFinished i n sc = true := by
  simpa [Cluster.publishesInOrder, hpub, hn, hQ] using h

/-- An event ring is polled from its oldest entry on, so what is polled has nothing
unfinished before it. -/
theorem earlierFinished_of_oldest (ht : Tidy c r e) {q : Queue} {entry : Inflight}
    (hentry : (e.inflight q)[0]? = some entry) {n : InstructionNode}
    (hn : c.node? r entry.node = some n) : e.earlierFinished entry.node n entry.sc = true := by
  refine List.all_eq_true.2 fun x hx => decide_eq_true fun hnode hsc => ?_
  obtain ⟨n', hn', rfl⟩ := ht.queue q entry (List.mem_of_getElem? hentry)
  cases hn.symm.trans hn'
  obtain ⟨h0, rfl⟩ := List.getElem?_eq_some_iff.1 hentry
  obtain ⟨b, hb, rfl⟩ := List.getElem_of_mem hx
  rcases Nat.eq_zero_or_pos b with rfl | hpos
  · exact absurd hsc (lt_irrefl _)
  · have := List.pairwise_iff_getElem.1 (ht.sorted (queueOf n)) 0 b h0 hb hpos hnode.symm
    omega

theorem earlierFinished_of_shortcutsInOrder (ht : Tidy c l.rank (s.execs l.rank))
    (hm : Motion c l.rank (s.execs l.rank) e' l) (h : c.shortcutsInOrder s l = true)
    {i sc : ℕ} {n : InstructionNode} (hpub : (s.execs l.rank).published l = some (i, sc))
    (hn : c.node? l.rank i = some n) (hQ : Cluster.isDmaNode n = true) :
    (s.execs l.rank).earlierFinished i n sc = true := by
  cases hm with
  | finish => exact earlierFinished_of_publishesInOrder h hpub hn hQ
  | push => exact earlierFinished_of_publishesInOrder h hpub hn hQ
  | @poll r' q j entry _ _ hq hentry _ hnode _ _ _ _ =>
    simp only [Label.rank] at hentry hnode hn
    simp only [Exec.published, Label.rank, hentry, Option.map_some, Option.some.injEq,
      Prod.mk.injEq] at hpub
    obtain ⟨rfl, rfl⟩ := hpub
    -- a DMA sits in an event ring
    have hj : j = 0 := hq.resolve_left fun hq => by
      obtain ⟨n', hn', hq'⟩ := ht.queue q entry (List.mem_of_getElem? hentry)
      cases hn.symm.trans hn'
      simp only [Cluster.isDmaNode, decide_eq_true_eq] at hQ
      rw [hq] at hq'
      rcases hQ with hop | hop | hop | hop <;> simp [queueOf, hop] at hq'
      split at hq' <;> cases hq'
    subst hj
    exact earlierFinished_of_oldest ht hentry hn
  | work => cases hpub
  | count => cases hpub
  | still _ _ _ hquiet => exact absurd hn (hquiet i sc n hpub)

/-! ## The cursors over a run -/

theorem Sound.complete (h : Sound c Q s) {tr : List Piece} (hl : Ledger c tr s)
    (hr : r < c.worldSize) {i : ℕ} {n : InstructionNode} (hn : c.node? r i = some n)
    (hQ : Q n = true) (hskip : ¬ c.skipped n) :
    (∀ sc < s.words.getWriteProgress n.output, c.SliceComplete tr s r i n sc) ∧
      ∀ x ∈ n.inputs, ∀ id, x.readerId = some id →
        ∀ sc < s.words.getReaderDone id x.key, c.SliceComplete tr s r i n sc := by
  have hall : ∀ sc, SliceDone (s.execs r) i sc → c.SliceComplete tr s r i n sc := fun sc hdone =>
    have hexec := hl.executed hn hskip hdone
    ⟨hdone, hexec, fun x hx => hexec.covers hx⟩
  exact ⟨fun sc hsc => hall sc (h.write r hr i n hn hQ sc hsc),
    fun x hx id hid sc hsc => hall sc (h.reader r hr i n hn hQ x.key id ⟨n, hn, x, hx, rfl, hid⟩
      sc hsc)⟩

/-- What a run whose steps satisfy `P` keeps, when `P` makes the nodes in `Q` publish in
order. -/
theorem sound_of_run (hd : c.DistinctWords) {P : State → Label → Bool}
    (hP : ∀ s l w e, Base c s → P s l = true →
      c.localStep l.rank s.words (s.execs l.rank) l = some (w, e) →
      ∀ i sc n, (s.execs l.rank).published l = some (i, sc) → c.node? l.rank i = some n →
        Q n = true → (s.execs l.rank).earlierFinished i n sc = true)
    {stale : Word → ℕ} {ls : List Label}
    (hrun : c.machine.runFrom P (State.init stale) ls = some s) :
    Base c s ∧ Sound c Q s ∧
      Ledger c (c.machine.trace c.effects (State.init stale) ls) s := by
  refine c.machine.invariantTrace_init (E := c.effects)
    (I := fun tr s => Base c s ∧ Sound c Q s ∧ Ledger c tr s)
    (fun tr s l s' ⟨hb, hs, hl⟩ hguard hstep => ?_)
    ⟨Base.init stale, Sound.init stale, Ledger.init stale⟩ hrun
  obtain ⟨-, w, e, hlocal, -⟩ := step_cases hstep
  exact ⟨hb.step hstep, hs.step hd hb (hP s l w e hb hguard hlocal) hstep, hl.step hstep⟩

end

/-- **H2H publication.**  In a run that publishes no H2H slice before the earlier slices
of its node are finished, a write cursor or reader cursor of an H2H node counts complete
slices only. -/
theorem h2h_publication_sound {c : Cluster} (hd : c.DistinctWords) {stale : Word → ℕ}
    {ls : List Label} {s : State}
    (hrun : c.machine.runFrom c.h2hInOrder (State.init stale) ls = some s) {r i : ℕ}
    {n : InstructionNode} (hr : r < c.worldSize) (hn : c.node? r i = some n)
    (hop : n.op = .h2h ∨ n.op = .h2hReduce) :
    (∀ sc < s.words.getWriteProgress n.output,
      c.SliceComplete (c.machine.trace c.effects (State.init stale) ls) s r i n sc) ∧
    ∀ x ∈ n.inputs, ∀ id, x.readerId = some id → ∀ sc < s.words.getReaderDone id x.key,
      c.SliceComplete (c.machine.trace c.effects (State.init stale) ls) s r i n sc := by
  obtain ⟨-, hsound, hledger⟩ := sound_of_run (Q := Cluster.isHostNode) hd
    (fun s l w e _ hguard _ i sc n hpub hn hQ =>
      earlierFinished_of_publishesInOrder hguard hpub hn hQ) hrun
  refine hsound.complete hledger hr hn (decide_eq_true hop) fun hskip => ?_
  rcases hop with hop | hop <;> simp [Cluster.skipped, hop] at hskip

/-! ### A slice that overtakes another -/

/-- Buffers far apart. -/
def plainBinding : RuntimeBinding where
  hostBase := fun owner => some (2 ^ 40 * (owner.toNat + 1))
  deviceBase := fun space owner =>
    some (2 ^ 50 * (owner.toNat + 1) + if space = .output then 2 ^ 40 else 0)

def hostCopyProgram : IRProgram where
  inputChunkCount := 1
  outputChunkCount := 1
  allInstructions :=
    [{ op := .d2h, rank := 0, src := ⟨0, 0⟩, dst := ⟨0, 0⟩ },
     { op := .h2h, rank := 0, src := ⟨0, 0⟩, dst := ⟨0, 1⟩ },
     { op := .h2d, rank := 0, src := ⟨0, 1⟩, dst := ⟨0, 0⟩ }]

/-- One rank, two H2H workers, and a chunk of two slices. -/
def hostCopy : Cluster where
  env := {}
  graphOptions := { legacyLayout := { segCount := 262144 } }
  program := hostCopyProgram
  worldSize := 1
  plan := (plan? _ _ _).get (by decide)
  binding := fun _ => plainBinding
  h2hThreads := 2
  h2hThreads_pos := Nat.two_pos

/-- `k` operations of one thread. -/
def runs (r k : ℕ) : List Label := List.replicate k (.run r)

/-- Both slices are brought to host chunk 0. -/
def hostCopyFill : List Label :=
  [.start 0] ++ runs 0 12 ++ [.attempt 0 0] ++ runs 0 4 ++ [.attempt 0 0] ++ runs 0 4 ++
  [.work 0 .d2h 0 0 524288, .count 0 .d2h 0 0, .work 0 .d2h 1 0 524288, .count 0 .d2h 1 0,
   .poll 0 .d2h 0] ++ runs 0 6 ++ [.poll 0 .d2h 0] ++ runs 0 6

/-- Both slices of the H2H copy are submitted, and the workers get through slice `j`
only, which is then published. -/
def hostCopyOne (j : ℕ) : List Label :=
  [.attempt 0 1] ++ runs 0 3 ++ [.attempt 0 1] ++ runs 0 3 ++
  [.work 0 .h2h j 0 262144, .count 0 .h2h j 0, .work 0 .h2h j 1 262144, .count 0 .h2h j 1,
   .poll 0 .h2h j] ++ runs 0 6

/-- A run that publishes in order. -/
theorem h2h_publication_sound_hostCopy :
    ∃ s n, hostCopy.machine.runFrom hostCopy.h2hInOrder (State.init fun _ => 0)
        (hostCopyFill ++ hostCopyOne 0) = some s ∧
      hostCopy.node? 0 1 = some n ∧ s.words.getWriteProgress n.output = 1 ∧
      ∀ sc < s.words.getWriteProgress n.output, hostCopy.SliceComplete
        (hostCopy.machine.trace hostCopy.effects (State.init fun _ => 0)
          (hostCopyFill ++ hostCopyOne 0)) s 0 1 n sc := by
  have hobs : ((hostCopy.machine.runFrom hostCopy.h2hInOrder (State.init fun _ => 0)
      (hostCopyFill ++ hostCopyOne 0)).map fun s =>
        (hostCopy.node? 0 1).map fun n => (n.op, s.words.getWriteProgress n.output)) =
      some (some (.h2h, 1)) := by decide +kernel
  obtain ⟨s, hrun, hobs⟩ := Option.map_eq_some_iff.1 hobs
  obtain ⟨n, hn, hobs⟩ := Option.map_eq_some_iff.1 hobs
  simp only [Prod.mk.injEq] at hobs
  exact ⟨s, n, hrun, hn, hobs.2,
    (h2h_publication_sound (by decide) hrun (by decide) hn (Or.inl hobs.1)).1⟩

/-- Slice 1 overtakes slice 0: the write cursor and the reader cursor of the H2H copy
reach two, and no byte of slice 0 has been copied. -/
theorem h2h_overtaken :
    ∃ s n, hostCopy.machine.runFrom Theory.Machine.anyStep (State.init fun _ => 0)
        (hostCopyFill ++ hostCopyOne 1) = some s ∧
      hostCopy.node? 0 1 = some n ∧ n.op = .h2h ∧
      s.words.getWriteProgress n.output = 2 ∧
      (∃ x ∈ n.inputs, ∃ id, x.readerId = some id ∧ s.words.getReaderDone id x.key = 2) ∧
      0 < hostCopy.subchunkSize n 0 ∧
      ∀ x, ¬ Executed (hostCopy.machine.trace hostCopy.effects (State.init fun _ => 0)
        (hostCopyFill ++ hostCopyOne 1)) 0 1 0 x := by
  have hobs : ((hostCopy.machine.runFrom Theory.Machine.anyStep (State.init fun _ => 0)
      (hostCopyFill ++ hostCopyOne 1)).map fun s =>
        (hostCopy.node? 0 1).map fun n => (n.op, s.words.getWriteProgress n.output,
          n.inputs.map (fun x => x.readerId.map fun id => s.words.getReaderDone id x.key),
          decide (0 < hostCopy.subchunkSize n 0))) =
      some (some (.h2h, 2, [some 2], true)) := by decide +kernel
  obtain ⟨s, hrun, hobs⟩ := Option.map_eq_some_iff.1 hobs
  obtain ⟨n, hn, hobs⟩ := Option.map_eq_some_iff.1 hobs
  simp only [Prod.mk.injEq] at hobs
  obtain ⟨hop, hwrite, hreaders, hbytes⟩ := hobs
  refine ⟨s, n, hrun, hn, hop, hwrite, ?_, of_decide_eq_true hbytes, ?_⟩
  · have hmem : some 2 ∈ n.inputs.map fun x =>
        x.readerId.map fun id => s.words.getReaderDone id x.key := by
      rw [hreaders]; exact List.mem_singleton_self _
    obtain ⟨x, hx, hid⟩ := List.mem_map.1 hmem
    obtain ⟨id, hid, hdone⟩ := Option.map_eq_some_iff.1 hid
    exact ⟨x, hx, id, hid, hdone⟩
  · rintro x ⟨p, hp, -, hnode, hsc, -⟩
    have hall : (hostCopy.machine.trace hostCopy.effects (State.init fun _ => 0)
        (hostCopyFill ++ hostCopyOne 1)).all (fun p => decide (¬ (p.node = 1 ∧ p.sc = 0))) =
        true := by decide +kernel
    exact of_decide_eq_true (List.all_eq_true.1 hall p hp) ⟨hnode, hsc⟩

/-- **DMA publication.**  In a run that publishes no DMA slice at its submission before
the earlier slices of its node are finished, a write cursor or reader cursor of a DMA node
counts complete slices only. -/
theorem dma_publication_sound {c : Cluster} (hd : c.DistinctWords) (hdma : c.env.skipDma = false)
    {stale : Word → ℕ} {ls : List Label} {s : State}
    (hrun : c.machine.runFrom c.shortcutsInOrder (State.init stale) ls = some s) {r i : ℕ}
    {n : InstructionNode} (hr : r < c.worldSize) (hn : c.node? r i = some n)
    (hop : n.op = .d2h ∨ n.op = .h2d ∨ n.op = .d2d ∨ n.op = .d2dReduce) :
    (∀ sc < s.words.getWriteProgress n.output,
      c.SliceComplete (c.machine.trace c.effects (State.init stale) ls) s r i n sc) ∧
    ∀ x ∈ n.inputs, ∀ id, x.readerId = some id → ∀ sc < s.words.getReaderDone id x.key,
      c.SliceComplete (c.machine.trace c.effects (State.init stale) ls) s r i n sc := by
  obtain ⟨-, hsound, hledger⟩ := sound_of_run (Q := Cluster.isDmaNode) hd
    (fun s l w e hb hguard hlocal i sc n hpub hn hQ =>
      earlierFinished_of_shortcutsInOrder (hb.tidy _) (Motion.of_localStep hlocal) hguard
        hpub hn hQ) hrun
  refine hsound.complete hledger hr hn (decide_eq_true hop) fun hskip => ?_
  rw [Cluster.skipped, hdma] at hskip
  exact absurd hskip.1 Bool.false_ne_true

/-! ### A slice without bytes -/

def unevenProgram : IRProgram where
  inputChunkCount := 2
  outputChunkCount := 2
  allInstructions :=
    [{ op := .d2h, rank := 0, src := ⟨0, 0⟩, dst := ⟨0, 0⟩ },
     { op := .h2d, rank := 0, src := ⟨0, 0⟩, dst := ⟨0, 0⟩ },
     { op := .d2h, rank := 0, src := ⟨0, 1⟩, dst := ⟨0, 1⟩ },
     { op := .h2d, rank := 0, src := ⟨0, 1⟩, dst := ⟨0, 1⟩ }]

/-- 262145 elements in two chunks: the chunks have two slices, and the second slice of
output chunk 0 has no bytes. -/
def uneven : Cluster where
  env := {}
  graphOptions := { legacyLayout := { segCount := 262145 } }
  program := unevenProgram
  worldSize := 1
  plan := (plan? _ _ _).get (by decide)
  binding := fun _ => plainBinding
  h2hThreads := 1
  h2hThreads_pos := Nat.one_pos

/-- Chunk 0 is brought to the host. -/
def unevenFill : List Label :=
  [.start 0] ++ runs 0 17 ++ [.attempt 0 0] ++ runs 0 4 ++ [.attempt 0 0] ++ runs 0 4 ++
  [.work 0 .d2h 0 0 524288, .count 0 .d2h 0 0, .work 0 .d2h 1 0 4, .count 0 .d2h 1 0,
   .poll 0 .d2h 0] ++ runs 0 6 ++ [.poll 0 .d2h 0] ++ runs 0 6

/-- A run that publishes in order. -/
theorem dma_publication_sound_uneven :
    ∃ s n, uneven.machine.runFrom uneven.shortcutsInOrder (State.init fun _ => 0)
        unevenFill = some s ∧
      uneven.node? 0 0 = some n ∧ s.words.getWriteProgress n.output = 2 ∧
      ∀ sc < s.words.getWriteProgress n.output, uneven.SliceComplete
        (uneven.machine.trace uneven.effects (State.init fun _ => 0) unevenFill) s 0 0 n sc := by
  have hobs : ((uneven.machine.runFrom uneven.shortcutsInOrder (State.init fun _ => 0)
      unevenFill).map fun s =>
        (uneven.node? 0 0).map fun n => (n.op, s.words.getWriteProgress n.output)) =
      some (some (.d2h, 2)) := by decide +kernel
  obtain ⟨s, hrun, hobs⟩ := Option.map_eq_some_iff.1 hobs
  obtain ⟨n, hn, hobs⟩ := Option.map_eq_some_iff.1 hobs
  simp only [Prod.mk.injEq] at hobs
  exact ⟨s, n, hrun, hn, hobs.2,
    (dma_publication_sound (by decide) rfl hrun (by decide) hn (Or.inl hobs.1)).1⟩

/-- The slice without bytes is published while slice 0 is in flight: the cursors of the
H2D copy reach two, and no byte of slice 0 has been copied. -/
theorem dma_overtaken :
    ∃ s n, uneven.machine.runFrom Theory.Machine.anyStep (State.init fun _ => 0)
        (unevenFill ++ [.attempt 0 1] ++ runs 0 4 ++ [.attempt 0 1] ++ runs 0 9) = some s ∧
      uneven.node? 0 1 = some n ∧ n.op = .h2d ∧
      s.words.getWriteProgress n.output = 2 ∧
      (∃ x ∈ n.inputs, ∃ id, x.readerId = some id ∧ s.words.getReaderDone id x.key = 2) ∧
      0 < uneven.subchunkSize n 0 ∧
      ∀ x, ¬ Executed (uneven.machine.trace uneven.effects (State.init fun _ => 0)
        (unevenFill ++ [.attempt 0 1] ++ runs 0 4 ++ [.attempt 0 1] ++ runs 0 9)) 0 1 0 x := by
  have hobs : ((uneven.machine.runFrom Theory.Machine.anyStep (State.init fun _ => 0)
      (unevenFill ++ [.attempt 0 1] ++ runs 0 4 ++ [.attempt 0 1] ++ runs 0 9)).map fun s =>
        (uneven.node? 0 1).map fun n => (n.op, s.words.getWriteProgress n.output,
          n.inputs.map (fun x => x.readerId.map fun id => s.words.getReaderDone id x.key),
          decide (0 < uneven.subchunkSize n 0))) =
      some (some (.h2d, 2, [some 2], true)) := by decide +kernel
  obtain ⟨s, hrun, hobs⟩ := Option.map_eq_some_iff.1 hobs
  obtain ⟨n, hn, hobs⟩ := Option.map_eq_some_iff.1 hobs
  simp only [Prod.mk.injEq] at hobs
  obtain ⟨hop, hwrite, hreaders, hbytes⟩ := hobs
  refine ⟨s, n, hrun, hn, hop, hwrite, ?_, of_decide_eq_true hbytes, ?_⟩
  · have hmem : some 2 ∈ n.inputs.map fun x =>
        x.readerId.map fun id => s.words.getReaderDone id x.key := by
      rw [hreaders]; exact List.mem_singleton_self _
    obtain ⟨x, hx, hid⟩ := List.mem_map.1 hmem
    obtain ⟨id, hid, hdone⟩ := Option.map_eq_some_iff.1 hid
    exact ⟨x, hx, id, hid, hdone⟩
  · rintro x ⟨p, hp, -, hnode, hsc, -⟩
    have hall : (uneven.machine.trace uneven.effects (State.init fun _ => 0)
        (unevenFill ++ [.attempt 0 1] ++ runs 0 4 ++ [.attempt 0 1] ++ runs 0 9)).all
        (fun p => decide (¬ (p.node = 1 ∧ p.sc = 0))) = true := by decide +kernel
    exact of_decide_eq_true (List.all_eq_true.1 hall p hp) ⟨hnode, hsc⟩

end Executor
end HyLink
