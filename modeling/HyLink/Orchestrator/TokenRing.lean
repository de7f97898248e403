import HyLink.Orchestrator.StreamTracks

/-!
# The token ring of the value synchronisation

Every user stream of a domain has a context with two rings of 64 tokens.  A submission takes
the next sequence number of the context and, while it holds the mutex of the context, may put
two pairs of a write and a wait on the streams: the user's stream writes the input token for
which the PCIe stream waits, and the PCIe stream writes the completion token for which the
user's stream waits.  A wait lets go when its slot holds at least its own number, so that a later
number that falls into the same slot lets go too.

* `TokenRing.step` — a call of a host thread, or the next operation of a stream.
* `Inv` — what holds in every run: what the ring holds, what the holder of a mutex has put on the
  streams, and a clock by which every write comes before its wait.
* `token_ring` — a wait that lets go has its write behind it, and no streams block each other.
* `progress` — as long as operations are left, some stream goes on.
-/

namespace HyLink
namespace Orchestrator
namespace TokenRing

open Theory
open Streams (Op Queue Token Values kRingSize)

/-! ## The machine -/

/-- `ValueSyncContext`. -/
structure Context where
  tokens : Token → ℕ → ℕ
  nextSequence : ℕ
  /-- The thread that holds `mutex_`. -/
  owner : Option ℕ

/-- `Initialize`. -/
def Context.initialized : Context := ⟨fun _ _ => 0, 1, none⟩

/-- `NextTicket`: the sequence number, and the context after it. -/
def Context.nextTicket (ctx : Context) : Option (ℕ × Context) :=
  if ctx.nextSequence = 2 ^ 64 - 1 then none
  else some (ctx.nextSequence, { ctx with nextSequence := ctx.nextSequence + 1 })

/-- `aclrtValueWrite` of a sequence number into its slot. -/
def Context.write (ctx : Context) (t : Token) (seq : ℕ) : Context :=
  { ctx with
    tokens := fun t' slot =>
      if t' = t ∧ slot = seq % kRingSize then seq else ctx.tokens t' slot }

/-- How far a collective is with its submission. -/
inductive Stage
  | begun
  /-- The input token is to be written by the user's stream. -/
  | inputReady
  /-- It has the input dependency behind it, in one way or another. -/
  | input
  /-- The completion token is to be written by the PCIe stream. -/
  | written
  | over
  deriving DecidableEq, Repr

/-- `ValueSyncSubmission`. -/
structure Submission where
  stream : ℕ
  sequence : ℕ
  stage : Stage

structure State where
  /-- All operations a stream was ever given. -/
  ops : Queue → List Op
  /-- How many of them are finished. -/
  done : Queue → ℕ
  /-- `value_sync_contexts_`, by the user's stream. -/
  context : ℕ → Option Context
  /-- The submission of a thread. -/
  submission : ℕ → Option Submission

inductive Label
  /-- The registry part of `BeginValueSyncSubmission`, for a stream without a context. -/
  | emplace (s : ℕ)
  /-- The rest of `BeginValueSyncSubmission`, in thread `t`. -/
  | begin (t s : ℕ)
  /-- `EnqueueInputReady`; not `ok` also in a collective that has no input dependency. -/
  | inputReady (t : ℕ) (ok : Bool)
  /-- `EnqueueInputWait`. -/
  | inputWait (t : ℕ) (ok : Bool)
  /-- `EnqueueWrite`. -/
  | write (t : ℕ) (ok : Bool)
  /-- `EnqueueWait`. -/
  | wait (t : ℕ) (ok : Bool)
  /-- The collective returns. -/
  | leave (t : ℕ)
  /-- Anything else that is put on a stream. -/
  | work (q : Queue)
  /-- The next operation of a stream is executed. -/
  | device (q : Queue)
  deriving DecidableEq, Repr

variable (st : State)

def State.enqueue (q : Queue) (op : Op) : State :=
  { st with ops := Function.update st.ops q (st.ops q ++ [op]) }

def State.setSubmission (t : ℕ) (sub : Option Submission) : State :=
  { st with submission := Function.update st.submission t sub }

def State.setContext (s : ℕ) (ctx : Context) : State :=
  { st with context := Function.update st.context s (some ctx) }

/-- What a slot of a stream's ring holds. -/
def State.token (t : Token) (s slot : ℕ) : ℕ :=
  match st.context s with
  | some ctx => ctx.tokens t slot
  | none => 0

/-- The operation may finish: a wait with `ACL_STREAM_WAIT_VALUE_GEQ` sees its number or a
greater one. -/
def State.ready : Op → Bool
  | .wait t s seq => decide (seq ≤ st.token t s (seq % kRingSize))
  | _ => true

/-- What an operation does. -/
def State.effect : Op → State
  | .write t s seq =>
    match st.context s with
    | some ctx => st.setContext s (ctx.write t seq)
    | none => st
  | _ => st

/-- A call by thread `t`, whose submission is at `stage`: where it succeeds, `op` is put on `q`
and the submission is at `next`, else it is at `failed`. -/
def State.call (t : ℕ) (stage next failed : Stage) (q : ℕ → Queue) (op : ℕ → ℕ → Op)
    (ok : Bool) : Option State :=
  match st.submission t with
  | none => none
  | some sub =>
    if sub.stage = stage then
      if ok then
        some ((st.enqueue (q sub.stream) (op sub.stream sub.sequence)).setSubmission t
          (some { sub with stage := next }))
      else some (st.setSubmission t (some { sub with stage := failed }))
    else none

def step : Label → Option State
  | .emplace s =>
    if s ≠ 0 ∧ (st.context s).isNone then some (st.setContext s .initialized) else none
  | .begin t s =>
    match st.submission t, st.context s with
    | none, some ctx =>
      if ctx.owner = none then
        match ctx.nextTicket with
        | none => some st
        | some (seq, ctx') =>
          some ((st.setContext s { ctx' with owner := some t }).setSubmission t
            (some ⟨s, seq, .begun⟩))
      else none
    | _, _ => none
  | .inputReady t ok => st.call t .begun .inputReady .input Queue.user (Op.write .inputReady) ok
  | .inputWait t ok =>
    st.call t .inputReady .input .input (fun _ => Queue.pcie) (Op.wait .inputReady) ok
  | .write t ok => st.call t .input .written .over (fun _ => Queue.pcie) (Op.write .completion) ok
  | .wait t ok => st.call t .written .over .over Queue.user (Op.wait .completion) ok
  | .leave t =>
    match st.submission t with
    | none => none
    | some sub =>
      match st.context sub.stream with
      | none => none
      | some ctx =>
        some ((st.setContext sub.stream { ctx with owner := none }).setSubmission t none)
  | .work q => some (st.enqueue q .work)
  | .device q =>
    match (st.ops q)[st.done q]? with
    | none => none
    | some op =>
      if st.ready op then
        some { st.effect op with done := Function.update st.done q (st.done q + 1) }
      else none

def machine : Machine State Label := ⟨step⟩

def start : State := ⟨fun _ => [], fun _ => 0, fun _ => none, fun _ => none⟩

/-! ## What streams block each other -/

variable {st : State}

/-- A wait lets go: it is finished, or it is next on its stream and may finish. -/
def State.Released (st : State) (q : Queue) (op : Op) : Prop :=
  op ∈ (st.ops q).take (st.done q) ∨ (st.ops q)[st.done q]? = some op ∧ st.ready op = true

def State.Executed (st : State) (q : Queue) (op : Op) : Prop :=
  op ∈ (st.ops q).take (st.done q)

/-- Every stream of `X` is held by a wait, and every write that is left and would let the wait go
is on a stream of `X`: whatever the other streams do, those of `X` stand still. -/
def State.MutuallyBlocked (st : State) (X : Set Queue) : Prop :=
  X.Nonempty ∧ ∀ q ∈ X, ∃ t s n, (st.ops q)[st.done q]? = some (.wait t s n) ∧
    st.ready (.wait t s n) = false ∧
    ∀ q' i m, st.done q' ≤ i → (st.ops q')[i]? = some (.write t s m) →
      m % kRingSize = n % kRingSize → n ≤ m → q' ∈ X

/-! ## The streams and the ring -/

/-- The operations in the order in which they were put on the streams. -/
structure Ordered (ops : Queue → List Op) (clock : Queue → ℕ → ℕ) (now : ℕ) : Prop where
  lt : ∀ q i, i < (ops q).length → clock q i < now
  increasing : ∀ q i j, i < j → j < (ops q).length → clock q i < clock q j
  write : ∀ q i t s n, (ops q)[i]? = some (.wait t s n) →
    ∃ j, (ops (t.home s))[j]? = some (.write t s n) ∧ clock (t.home s) j < clock q i

/-- What the streams and the ring say of each other. -/
structure Rings (ops : Queue → List Op) (done : Queue → ℕ) (token : Token → ℕ → ℕ → ℕ) :
    Prop where
  done_le : ∀ q, done q ≤ (ops q).length
  values : Values ops done token
  /-- The slot of a write that was executed never falls below it. -/
  executed : ∀ t s n, .write t s n ∈ (ops (t.home s)).take (done (t.home s)) →
    n ≤ token t s (n % kRingSize)
  ordered : ∃ clock now, Ordered ops clock now

section Streams

variable {ops : Queue → List Op} {done : Queue → ℕ} {token token' : Token → ℕ → ℕ → ℕ}
  {clock : Queue → ℕ → ℕ} {now : ℕ} {q : Queue} {op : Op}

theorem getElem?_update_append (q' : Queue) (i : ℕ) :
    (Function.update ops q (ops q ++ [op]) q')[i]? =
      if q' = q ∧ i = (ops q).length then some op else (ops q')[i]? := by
  by_cases hq : q' = q
  · subst hq
    rw [Function.update_self]
    by_cases hi : i = (ops q').length
    · simp [hi]
    · rw [if_neg fun h => hi h.2, List.getElem?_append]
      split
      · rfl
      · have hlen : [op].length ≤ i - (ops q').length := by
          rw [List.length_singleton]
          omega
        rw [List.getElem?_eq_none hlen, List.getElem?_eq_none (by omega)]
  · rw [Function.update_of_ne hq, if_neg fun h => hq h.1]

theorem length_update_append (q' : Queue) :
    (Function.update ops q (ops q ++ [op]) q').length =
      (ops q').length + if q' = q then 1 else 0 := by
  by_cases hq : q' = q
  · subst hq
    simp
  · simp [hq]

/-- The next operation is the latest. -/
theorem Ordered.enqueue (h : Ordered ops clock now)
    (hwait : ∀ t s n, op = .wait t s n → .write t s n ∈ ops (t.home s)) :
    Ordered (Function.update ops q (ops q ++ [op]))
      (fun q' i => if q' = q ∧ i = (ops q).length then now else clock q' i) (now + 1) := by
  -- An operation that was there has kept its time.
  have hold : ∀ q' i, i < (ops q').length → ¬ (q' = q ∧ i = (ops q).length) := by
    rintro q' i hi ⟨rfl, rfl⟩
    omega
  refine ⟨fun q' i hi => ?_, fun q' i j hij hj => ?_, fun q' i t s n hget => ?_⟩
  · rw [length_update_append] at hi
    show ite _ _ _ < _
    split
    · omega
    · rename_i hne
      have hlt := h.lt q' i (by split at hi <;> grind)
      omega
  · rw [length_update_append] at hj
    have hi : i < (ops q').length := by split at hj <;> omega
    show ite _ _ _ < ite _ _ _
    rw [if_neg (hold q' i hi)]
    split
    · exact h.lt q' i hi
    · exact h.increasing q' i j hij (by split at hj <;> grind)
  · rw [getElem?_update_append] at hget
    have hthere : ∃ j, (ops (t.home s))[j]? = some (.write t s n) ∧
        clock (t.home s) j < if q' = q ∧ i = (ops q).length then now else clock q' i := by
      split at hget
      · obtain ⟨j, hj⟩ := List.mem_iff_getElem?.1 (hwait t s n (Option.some.inj hget))
        obtain ⟨hlt, -⟩ := List.getElem?_eq_some_iff.1 hj
        refine ⟨j, hj, ?_⟩
        rw [if_pos (by assumption)]
        exact h.lt _ j hlt
      · rw [if_neg (by assumption)]
        exact h.write q' i t s n hget
    obtain ⟨j, hj, hlt⟩ := hthere
    obtain ⟨hj', -⟩ := List.getElem?_eq_some_iff.1 hj
    refine ⟨j, ?_, ?_⟩
    · rw [getElem?_update_append, if_neg (hold _ j hj')]
      exact hj
    · show ite _ _ _ < _
      rw [if_neg (hold _ j hj')]
      exact hlt

theorem Rings.enqueue (h : Rings ops done token)
    (hwrite : ∀ t s n, op = .write t s n → q = t.home s ∧ ∀ m, .write t s m ∈ ops q → m < n)
    (hwait : ∀ t s n, op = .wait t s n → 1 ≤ n ∧ .write t s n ∈ ops (t.home s)) :
    Rings (Function.update ops q (ops q ++ [op])) done token := by
  obtain ⟨clock, now, hordered⟩ := h.ordered
  refine ⟨fun q' => ?_, h.values.enqueue h.done_le hwrite hwait, fun t s n hmem => ?_,
    _, _, hordered.enqueue fun t s n hop => (hwait t s n hop).2⟩
  · rw [length_update_append]
    exact (h.done_le q').trans (Nat.le_add_right _ _)
  · rw [Streams.take_ops_append (h.done_le _)] at hmem
    exact h.executed t s n hmem

/-- The next operation is executed: a write puts its number into its slot. -/
theorem Rings.finish (h : Rings ops done token) (hop : (ops q)[done q]? = some op)
    (hnot : ∀ t s slot, (∀ n, op = .write t s n → slot ≠ n % kRingSize) →
      token' t s slot = token t s slot)
    (hwrites : ∀ t s n, op = .write t s n → token' t s (n % kRingSize) = n)
    (hready : ∀ t s n, op = .wait t s n → n ≤ token t s (n % kRingSize)) :
    Rings ops (Function.update done q (done q + 1)) token' := by
  have hlt : done q < (ops q).length := (List.getElem?_eq_some_iff.1 hop).1
  have hslot : ∀ t s slot, token' t s slot = token t s slot ∨ op = .write t s (token' t s slot) := by
    intro t s slot
    by_cases hw : ∀ n, op = .write t s n → slot ≠ n % kRingSize
    · exact .inl (hnot t s slot hw)
    · push Not at hw
      obtain ⟨n, rfl, rfl⟩ := hw
      rw [hwrites t s n rfl]
      exact .inr rfl
  refine ⟨fun q' => ?_, h.values.finish hop hslot hready, fun t s n hmem => ?_, h.ordered⟩
  · by_cases hq : q' = q
    · subst hq
      rw [Function.update_self]
      exact hlt
    · rw [Function.update_of_ne hq]
      exact h.done_le q'
  · rcases Streams.mem_take_of_finish hop hmem with hmem | ⟨-, heq⟩
    · have hle := h.executed t s n hmem
      rcases hslot t s (n % kRingSize) with hsame | hnew
      · rwa [hsame]
      · -- The write that comes now is behind the one of `n` on the same stream.
        have hq : q = t.home s := h.values.home q t s _ (hnew ▸ List.mem_of_getElem? hop)
        rw [← hq] at hmem
        have hsorted := h.values.sorted q
        rw [← List.take_append_drop (done q) (ops q), List.pairwise_append] at hsorted
        have hdrop : op ∈ (ops q).drop (done q) := by
          rw [List.mem_iff_getElem?]
          exact ⟨0, by rwa [List.getElem?_drop, Nat.add_zero]⟩
        exact (hsorted.2.2 _ hmem _ hdrop t s n _ rfl hnew).le
    · rw [hwrites t s n heq.symm]

/-- An operation that waits for what is not there has its write still to come, and it came to the
streams before the wait. -/
theorem Rings.unready {t : Token} {s n i : ℕ} (h : Rings ops done token)
    (hordered : Ordered ops clock now) (hop : (ops q)[i]? = some (.wait t s n))
    (hnot : token t s (n % kRingSize) < n) :
    ∃ j, done (t.home s) ≤ j ∧ (ops (t.home s))[j]? = some (.write t s n) ∧
      clock (t.home s) j < clock q i := by
  obtain ⟨j, hj, hclock⟩ := hordered.write q i t s n hop
  refine ⟨j, Nat.le_of_not_lt fun hlt => ?_, hj, hclock⟩
  have hmem : Op.write t s n ∈ (ops (t.home s)).take (done (t.home s)) := by
    rw [List.mem_iff_getElem?]
    exact ⟨j, by rwa [List.getElem?_take_of_lt hlt]⟩
  have hle := h.executed t s n hmem
  omega

end Streams

/-! ## The submissions -/

/-- What a submission has put on the streams at its stage. -/
structure Submission.Ok (sub : Submission) (ops : Queue → List Op) : Prop where
  begun : sub.stage = .begun →
    .write .inputReady sub.stream sub.sequence ∉ ops (.user sub.stream)
  inputReady : sub.stage = .inputReady →
    .write .inputReady sub.stream sub.sequence ∈ ops (.user sub.stream)
  unwritten : sub.stage ≠ .written → sub.stage ≠ .over →
    .write .completion sub.stream sub.sequence ∉ ops .pcie
  written : sub.stage = .written →
    .write .completion sub.stream sub.sequence ∈ ops .pcie

/-- The contexts and the threads that hold their mutexes. -/
structure Holders (st : State) : Prop where
  positive : ∀ s ctx, st.context s = some ctx → 1 ≤ ctx.nextSequence
  older : ∀ q t s n, .write t s n ∈ st.ops q →
    ∃ ctx, st.context s = some ctx ∧ n < ctx.nextSequence
  holder : ∀ t sub, st.submission t = some sub →
    ∃ ctx, st.context sub.stream = some ctx ∧ ctx.owner = some t ∧
      sub.sequence + 1 = ctx.nextSequence ∧ 1 ≤ sub.sequence
  submitted : ∀ t sub, st.submission t = some sub → sub.Ok st.ops

structure Inv (st : State) : Prop where
  rings : Rings st.ops st.done st.token
  holders : Holders st

section Submit

variable {sub : Submission} {t s : ℕ} {q : Queue} {op : Op} {stage : Stage} {ctx : Context}

/-- An operation that is no write for the stream of a submission. -/
theorem Submission.Ok.enqueue (h : sub.Ok st.ops)
    (hop : ∀ t n, op ≠ .write t sub.stream n) : sub.Ok (st.enqueue q op).ops := by
  have hsame : ∀ t q', .write t sub.stream sub.sequence ∈ (st.enqueue q op).ops q' ↔
      .write t sub.stream sub.sequence ∈ st.ops q' := by
    intro t q'
    constructor
    · intro hmem
      rcases Streams.mem_ops_of_append hmem with hmem | ⟨-, heq⟩
      · exact hmem
      · exact absurd heq.symm (hop t _)
    · exact Streams.mem_ops_append
  exact ⟨fun hs => by rw [hsame]; exact h.begun hs, fun hs => by rw [hsame]; exact h.inputReady hs,
    fun hs hs' => by rw [hsame]; exact h.unwritten hs hs',
    fun hs => by rw [hsame]; exact h.written hs⟩

/-- Two threads hold the mutexes of different streams. -/
theorem Holders.stream_ne (h : Holders st) {t' : ℕ} {sub' : Submission}
    (hsub : st.submission t = some sub) (hsub' : st.submission t' = some sub') (hne : t' ≠ t) :
    sub'.stream ≠ sub.stream := by
  intro heq
  obtain ⟨ctx, hctx, howner, -⟩ := h.holder t sub hsub
  obtain ⟨ctx', hctx', howner', -⟩ := h.holder t' sub' hsub'
  rw [heq, hctx] at hctx'
  obtain rfl := Option.some.inj hctx'
  exact hne (Option.some.inj (howner'.symm.trans howner))

/-- The writes of a ring are at most as new as the submission. -/
theorem Holders.lt_of_notMem (h : Holders st) (hsub : st.submission t = some sub) {tok : Token}
    (hnot : .write tok sub.stream sub.sequence ∉ st.ops q) {m : ℕ}
    (hmem : .write tok sub.stream m ∈ st.ops q) : m < sub.sequence := by
  obtain ⟨ctx, hctx, -, hseq, -⟩ := h.holder t sub hsub
  obtain ⟨ctx', hctx', hlt⟩ := h.older q tok sub.stream m hmem
  rw [hctx] at hctx'
  obtain rfl := Option.some.inj hctx'
  have hne : m ≠ sub.sequence := by
    rintro rfl
    exact hnot hmem
  omega

/-- A thread moves its submission to another stage; the streams have at most a write more, which
is the thread's own. -/
theorem Holders.move {st₁ : State} (h : Holders st) (hcontext : st₁.context = st.context)
    (hsubmission : st₁.submission = st.submission) (hsub : st.submission t = some sub)
    (hwrite : ∀ q tok s n, .write tok s n ∈ st₁.ops q →
      .write tok s n ∈ st.ops q ∨ s = sub.stream ∧ n = sub.sequence)
    (hothers : ∀ t' sub', t' ≠ t → st.submission t' = some sub' → sub'.Ok st₁.ops)
    (hok : Submission.Ok { sub with stage := stage } st₁.ops) :
    Holders (st₁.setSubmission t (some { sub with stage := stage })) := by
  have hupdate : ∀ t' sub', Function.update st₁.submission t (some { sub with stage := stage }) t' =
      some sub' → t' = t ∧ sub' = { sub with stage := stage } ∨
        t' ≠ t ∧ st.submission t' = some sub' := by
    intro t' sub' hsub'
    by_cases ht : t' = t
    · subst ht
      rw [Function.update_self] at hsub'
      exact .inl ⟨rfl, (Option.some.inj hsub').symm⟩
    · rw [Function.update_of_ne ht, hsubmission] at hsub'
      exact .inr ⟨ht, hsub'⟩
  refine ⟨fun s ctx hctx => ?_, fun q tok s n hmem => ?_, fun t' sub' hsub' => ?_,
    fun t' sub' hsub' => ?_⟩
  · exact h.positive s ctx (hcontext ▸ hctx)
  · show ∃ ctx, st₁.context s = some ctx ∧ _
    rw [hcontext]
    rcases hwrite q tok s n hmem with hmem | ⟨rfl, rfl⟩
    · exact h.older q tok s n hmem
    · obtain ⟨ctx, hctx, -, hseq, -⟩ := h.holder t sub hsub
      exact ⟨ctx, hctx, by omega⟩
  · show ∃ ctx, st₁.context sub'.stream = some ctx ∧ _
    rw [hcontext]
    rcases hupdate t' sub' hsub' with ⟨rfl, rfl⟩ | ⟨-, hsub'⟩
    · exact h.holder t' sub hsub
    · exact h.holder t' sub' hsub'
  · rcases hupdate t' sub' hsub' with ⟨rfl, rfl⟩ | ⟨ht, hsub'⟩
    · exact hok
    · exact hothers t' sub' ht hsub'

theorem Holders.setStage (h : Holders st) (hsub : st.submission t = some sub)
    (hok : Submission.Ok { sub with stage := stage } st.ops) :
    Holders (st.setSubmission t (some { sub with stage := stage })) :=
  h.move rfl rfl hsub (fun _ _ _ _ => .inl) (fun t' sub' _ => h.submitted t' sub') hok

theorem Holders.submit (h : Holders st) (hsub : st.submission t = some sub)
    (hop : ∀ tok s n, op = .write tok s n → s = sub.stream ∧ n = sub.sequence)
    (hok : Submission.Ok { sub with stage := stage } (st.enqueue q op).ops) :
    Holders ((st.enqueue q op).setSubmission t (some { sub with stage := stage })) := by
  refine h.move rfl rfl hsub (fun q' tok s n hmem => ?_) (fun t' sub' ht hsub' => ?_) hok
  · rcases Streams.mem_ops_of_append hmem with hmem | ⟨-, heq⟩
    · exact .inl hmem
    · exact .inr (hop tok s n heq.symm)
  · refine (h.submitted t' sub' hsub').enqueue fun tok n heq => ?_
    exact h.stream_ne hsub hsub' ht (hop tok _ n heq).1

theorem Holders.work (h : Holders st) : Holders (st.enqueue q .work) := by
  refine ⟨h.positive, fun q' tok s n hmem => ?_, h.holder, fun t sub hsub => ?_⟩
  · rcases Streams.mem_ops_of_append hmem with hmem | ⟨-, heq⟩
    · exact h.older q' tok s n hmem
    · cases heq
  · exact (h.submitted t sub hsub).enqueue nofun

/-- Contexts may change where no thread holds them, and their numbers only grow. -/
theorem Holders.setContext (h : Holders st) (hpositive : 1 ≤ ctx.nextSequence)
    (hgrows : ∀ ctx', st.context s = some ctx' → ctx'.nextSequence ≤ ctx.nextSequence)
    (hheld : ∀ t sub, st.submission t = some sub → sub.stream = s →
      ctx.owner = some t ∧ sub.sequence + 1 = ctx.nextSequence) :
    Holders (st.setContext s ctx) := by
  refine ⟨fun s' ctx' hctx' => ?_, fun q tok s' n hmem => ?_, fun t sub hsub => ?_, h.submitted⟩
  · change Function.update st.context s _ s' = some ctx' at hctx'
    by_cases hs : s' = s
    · subst hs
      rw [Function.update_self] at hctx'
      obtain rfl := Option.some.inj hctx'
      exact hpositive
    · rw [Function.update_of_ne hs] at hctx'
      exact h.positive s' ctx' hctx'
  · obtain ⟨ctx', hctx', hlt⟩ := h.older q tok s' n hmem
    show ∃ ctx'', Function.update st.context s (some ctx) s' = some ctx'' ∧ _
    by_cases hs : s' = s
    · subst hs
      rw [Function.update_self]
      exact ⟨ctx, rfl, hlt.trans_le (hgrows ctx' hctx')⟩
    · rw [Function.update_of_ne hs]
      exact ⟨ctx', hctx', hlt⟩
  · obtain ⟨ctx', hctx', howner, hseq, hone⟩ := h.holder t sub hsub
    show ∃ ctx'', Function.update st.context s (some ctx) sub.stream = some ctx'' ∧ _
    by_cases hs : sub.stream = s
    · obtain ⟨howner', hseq'⟩ := hheld t sub hsub hs
      rw [hs, Function.update_self]
      exact ⟨ctx, rfl, howner', hseq', hone⟩
    · rw [Function.update_of_ne hs]
      exact ⟨ctx', hctx', howner, hseq, hone⟩

/-- A new submission takes a number that no write has. -/
theorem Holders.begin {seq : ℕ} {ctx' : Context} (h : Holders st) (hctx : st.context s = some ctx)
    (howner : ctx.owner = none) (hnext : ctx.nextTicket = some (seq, ctx')) :
    Holders ((st.setContext s { ctx' with owner := some t }).setSubmission t
      (some ⟨s, seq, .begun⟩)) := by
  unfold Context.nextTicket at hnext
  split at hnext
  · cases hnext
  obtain ⟨rfl, rfl⟩ := Prod.mk.injEq _ _ _ _ ▸ Option.some.inj hnext
  have hone := h.positive s ctx hctx
  have hnew : ∀ tok q, .write tok s ctx.nextSequence ∉ st.ops q := by
    intro tok q hmem
    obtain ⟨ctx', hctx', hlt⟩ := h.older q tok s _ hmem
    rw [hctx] at hctx'
    obtain rfl := Option.some.inj hctx'
    omega
  have hfree : ∀ t sub, st.submission t = some sub → sub.stream ≠ s := by
    rintro t sub hsub rfl
    obtain ⟨ctx', hctx', howner', -⟩ := h.holder t sub hsub
    rw [hctx] at hctx'
    obtain rfl := Option.some.inj hctx'
    rw [howner] at howner'
    cases howner'
  have hset : Holders (st.setContext s ⟨ctx.tokens, ctx.nextSequence + 1, some t⟩) :=
    h.setContext (Nat.le_add_left 1 _) (fun ctx' hctx' => by
        rw [hctx] at hctx'
        obtain rfl := Option.some.inj hctx'
        exact Nat.le_succ _)
      fun t sub hsub hs => absurd hs (hfree t sub hsub)
  refine ⟨hset.positive, hset.older, fun t' sub' hsub' => ?_, fun t' sub' hsub' => ?_⟩
  · change Function.update st.submission t _ t' = some sub' at hsub'
    by_cases ht : t' = t
    · subst ht
      rw [Function.update_self] at hsub'
      obtain rfl := Option.some.inj hsub'
      exact ⟨_, Function.update_self .., rfl, rfl, hone⟩
    · rw [Function.update_of_ne ht] at hsub'
      exact hset.holder t' sub' hsub'
  · change Function.update st.submission t _ t' = some sub' at hsub'
    by_cases ht : t' = t
    · subst ht
      rw [Function.update_self] at hsub'
      obtain rfl := Option.some.inj hsub'
      exact ⟨fun _ => hnew _ _, nofun, fun _ _ => hnew _ _, nofun⟩
    · rw [Function.update_of_ne ht] at hsub'
      exact h.submitted t' sub' hsub'

theorem Holders.leave (h : Holders st) (hsub : st.submission t = some sub)
    (hctx : st.context sub.stream = some ctx) :
    Holders ((st.setContext sub.stream { ctx with owner := none }).setSubmission t none) := by
  have hupdate : ∀ t' sub', Function.update st.submission t none t' = some sub' →
      t' ≠ t ∧ st.submission t' = some sub' := by
    intro t' sub' hsub'
    by_cases ht : t' = t
    · subst ht
      rw [Function.update_self] at hsub'
      cases hsub'
    · rw [Function.update_of_ne ht] at hsub'
      exact ⟨ht, hsub'⟩
  have hdropped : Holders (st.setSubmission t none) :=
    ⟨h.positive, h.older, fun t' sub' hsub' => h.holder t' sub' (hupdate t' sub' hsub').2,
      fun t' sub' hsub' => h.submitted t' sub' (hupdate t' sub' hsub').2⟩
  refine hdropped.setContext (h.positive _ ctx hctx) (fun ctx' hctx' => ?_)
    fun t' sub' hsub' hs => ?_
  · change st.context sub.stream = some ctx' at hctx'
    rw [hctx] at hctx'
    obtain rfl := Option.some.inj hctx'
    exact le_rfl
  · obtain ⟨ht, hsub'⟩ := hupdate t' sub' hsub'
    exact absurd hs (h.stream_ne hsub hsub' ht)

end Submit

/-! ## The steps -/

section Steps

variable {st' : State} {t s : ℕ} {q : Queue} {op : Op}

/-- What a call does. -/
theorem call_cases {stage next failed : Stage} {queue : ℕ → Queue} {toOp : ℕ → ℕ → Op} {ok : Bool}
    (h : st.call t stage next failed queue toOp ok = some st') :
    ∃ sub, st.submission t = some sub ∧ sub.stage = stage ∧
      (ok = true ∧ st' = (st.enqueue (queue sub.stream) (toOp sub.stream sub.sequence)).setSubmission
          t (some { sub with stage := next }) ∨
        ok = false ∧ st' = st.setSubmission t (some { sub with stage := failed })) := by
  unfold State.call at h
  split at h
  · cases h
  · rename_i sub hsub
    split at h
    · rename_i hstage
      refine ⟨sub, hsub, hstage, ?_⟩
      split at h
      · exact .inl ⟨by assumption, (Option.some.inj h).symm⟩
      · exact .inr ⟨by simpa using ‹¬ ok = true›, (Option.some.inj h).symm⟩
    · cases h

theorem Rings.enqueue_wait (tok : Token) {n : ℕ} (h : Rings st.ops st.done st.token) (hn : 1 ≤ n)
    (hwrite : .write tok s n ∈ st.ops (tok.home s)) :
    Rings (st.enqueue q (.wait tok s n)).ops st.done st.token := by
  refine h.enqueue nofun fun tok' s' n' heq => ?_
  obtain ⟨rfl, rfl, rfl⟩ := Op.wait.inj heq
  exact ⟨hn, hwrite⟩

theorem Inv.enqueue_write (tok : Token) {sub : Submission} (h : Inv st)
    (hsub : st.submission t = some sub)
    (hnot : .write tok sub.stream sub.sequence ∉ st.ops (tok.home sub.stream)) :
    Rings (st.enqueue (tok.home sub.stream) (.write tok sub.stream sub.sequence)).ops st.done
      st.token := by
  refine h.rings.enqueue (fun tok' s' n' heq => ?_) nofun
  obtain ⟨rfl, rfl, rfl⟩ := Op.write.inj heq
  exact ⟨rfl, fun m hmem => h.holders.lt_of_notMem hsub hnot hmem⟩

theorem mem_enqueue_self : op ∈ (st.enqueue q op).ops q := by
  show op ∈ Function.update st.ops q (st.ops q ++ [op]) q
  rw [Function.update_self]
  exact List.mem_append_right _ (List.mem_singleton.2 rfl)

theorem notMem_enqueue {op' : Op} {q' : Queue} (h : op' ∉ st.ops q') (hne : op' ≠ op) :
    op' ∉ (st.enqueue q op).ops q' := by
  intro hmem
  rcases Streams.mem_ops_of_append hmem with hmem | ⟨-, heq⟩
  · exact h hmem
  · exact hne heq

theorem Inv.inputReady {ok : Bool} (h : Inv st) (hst : step st (.inputReady t ok) = some st') :
    Inv st' := by
  simp only [step] at hst
  obtain ⟨sub, hsub, hstage, ⟨-, rfl⟩ | ⟨-, rfl⟩⟩ := call_cases hst
  · have hok := h.holders.submitted t sub hsub
    have hnot := hok.begun hstage
    refine ⟨h.enqueue_write .inputReady hsub hnot, h.holders.submit hsub ?_ ?_⟩
    · intro tok s n heq
      obtain ⟨rfl, rfl, rfl⟩ := Op.write.inj heq
      exact ⟨rfl, rfl⟩
    · exact ⟨nofun, fun _ => mem_enqueue_self,
        fun _ _ => notMem_enqueue (hok.unwritten (by simp [hstage]) (by simp [hstage])) nofun, nofun⟩
  · have hok := h.holders.submitted t sub hsub
    exact ⟨h.rings, h.holders.setStage hsub
      ⟨nofun, nofun, fun _ _ => hok.unwritten (by simp [hstage]) (by simp [hstage]), nofun⟩⟩

theorem Inv.inputWait {ok : Bool} (h : Inv st) (hst : step st (.inputWait t ok) = some st') :
    Inv st' := by
  simp only [step] at hst
  obtain ⟨sub, hsub, hstage, ⟨-, rfl⟩ | ⟨-, rfl⟩⟩ := call_cases hst
  · have hok := h.holders.submitted t sub hsub
    obtain ⟨-, -, -, -, hone⟩ := h.holders.holder t sub hsub
    refine ⟨h.rings.enqueue_wait .inputReady hone (hok.inputReady hstage),
      h.holders.submit hsub nofun ?_⟩
    exact ⟨nofun, nofun,
      fun _ _ => notMem_enqueue (hok.unwritten (by simp [hstage]) (by simp [hstage])) nofun, nofun⟩
  · have hok := h.holders.submitted t sub hsub
    exact ⟨h.rings, h.holders.setStage hsub
      ⟨nofun, nofun, fun _ _ => hok.unwritten (by simp [hstage]) (by simp [hstage]), nofun⟩⟩

theorem Inv.write {ok : Bool} (h : Inv st) (hst : step st (.write t ok) = some st') :
    Inv st' := by
  simp only [step] at hst
  obtain ⟨sub, hsub, hstage, ⟨-, rfl⟩ | ⟨-, rfl⟩⟩ := call_cases hst
  · have hnot := (h.holders.submitted t sub hsub).unwritten (by simp [hstage]) (by simp [hstage])
    refine ⟨h.enqueue_write .completion hsub hnot, h.holders.submit hsub ?_ ?_⟩
    · intro tok s n heq
      obtain ⟨rfl, rfl, rfl⟩ := Op.write.inj heq
      exact ⟨rfl, rfl⟩
    · exact ⟨nofun, nofun, fun hs _ => absurd rfl hs, fun _ => mem_enqueue_self⟩
  · exact ⟨h.rings, h.holders.setStage hsub ⟨nofun, nofun, fun _ hs => absurd rfl hs, nofun⟩⟩

theorem Inv.wait {ok : Bool} (h : Inv st) (hst : step st (.wait t ok) = some st') : Inv st' := by
  simp only [step] at hst
  obtain ⟨sub, hsub, hstage, ⟨-, rfl⟩ | ⟨-, rfl⟩⟩ := call_cases hst
  · have hok := h.holders.submitted t sub hsub
    obtain ⟨-, -, -, -, hone⟩ := h.holders.holder t sub hsub
    exact ⟨h.rings.enqueue_wait .completion hone (hok.written hstage),
      h.holders.submit hsub nofun ⟨nofun, nofun, fun _ hs => absurd rfl hs, nofun⟩⟩
  · exact ⟨h.rings, h.holders.setStage hsub ⟨nofun, nofun, fun _ hs => absurd rfl hs, nofun⟩⟩

/-- What a write puts into the ring. -/
theorem token_write {tok : Token} {n : ℕ} {ctx : Context} (hctx : st.context s = some ctx)
    (tok' : Token) (s' slot : ℕ) :
    (st.effect (.write tok s n)).token tok' s' slot =
      if tok' = tok ∧ s' = s ∧ slot = n % kRingSize then n else st.token tok' s' slot := by
  unfold State.effect
  simp only [hctx]
  unfold State.token State.setContext
  by_cases hs : s' = s
  · subst hs
    simp [hctx, Context.write]
  · simp [hs]

theorem token_effect (hop : ∀ tok s n, op ≠ .write tok s n) : st.effect op = st := by
  cases op <;> first | rfl | exact absurd rfl (hop _ _ _)

theorem ready_wait {tok : Token} {n : ℕ} :
    st.ready (.wait tok s n) = true ↔ n ≤ st.token tok s (n % kRingSize) := by
  simp [State.ready]

theorem Inv.device (h : Inv st) (hop : (st.ops q)[st.done q]? = some op)
    (hready : st.ready op = true) :
    Inv { st.effect op with done := Function.update st.done q (st.done q + 1) } := by
  have hwait : ∀ tok s n, op = .wait tok s n → n ≤ st.token tok s (n % kRingSize) := by
    rintro tok s n rfl
    exact ready_wait.1 hready
  by_cases hw : ∃ tok s n, op = .write tok s n
  · obtain ⟨tok, s, n, rfl⟩ := hw
    obtain ⟨ctx, hctx, -⟩ := h.holders.older q tok s n (List.mem_of_getElem? hop)
    have heffect : st.effect (.write tok s n) = st.setContext s (ctx.write tok n) := by
      simp only [State.effect, hctx]
    have hholders : Holders (st.effect (.write tok s n)) := by
      rw [heffect]
      refine h.holders.setContext (h.holders.positive s ctx hctx) (fun ctx' hctx' => ?_)
        fun t sub hsub hs => ?_
      · rw [hctx] at hctx'
        obtain rfl := Option.some.inj hctx'
        exact le_rfl
      · obtain ⟨ctx', hctx', howner, hseq, -⟩ := h.holders.holder t sub hsub
        rw [hs, hctx] at hctx'
        obtain rfl := Option.some.inj hctx'
        exact ⟨howner, hseq⟩
    have hrings : Rings st.ops (Function.update st.done q (st.done q + 1))
        (st.effect (.write tok s n)).token := by
      refine h.rings.finish hop (fun tok' s' slot hne => ?_) (fun tok' s' n' heq => ?_) nofun
      · rw [token_write hctx]
        refine if_neg ?_
        rintro ⟨rfl, rfl, hslot⟩
        exact hne n rfl hslot
      · obtain ⟨rfl, rfl, rfl⟩ := Op.write.inj heq
        rw [token_write hctx, if_pos ⟨rfl, rfl, rfl⟩]
    refine ⟨?_, hholders.positive, hholders.older, hholders.holder, hholders.submitted⟩
    rw [heffect] at hrings ⊢
    exact hrings
  · have hnot : ∀ tok s n, op ≠ .write tok s n := fun tok s n heq => hw ⟨tok, s, n, heq⟩
    have hrings : Rings st.ops (Function.update st.done q (st.done q + 1)) st.token :=
      h.rings.finish hop (fun _ _ _ _ => rfl) (fun tok s n heq => absurd heq (hnot tok s n)) hwait
    rw [token_effect hnot]
    exact ⟨hrings, h.holders.positive, h.holders.older, h.holders.holder, h.holders.submitted⟩

/-- The contexts may change as long as the rings do not. -/
theorem Rings.congr {token' : Token → ℕ → ℕ → ℕ} (h : Rings st.ops st.done st.token)
    (htoken : token' = st.token) : Rings st.ops st.done token' := by
  rw [htoken]
  exact h

theorem token_setContext {ctx ctx' : Context} (hctx : st.context s = some ctx)
    (htokens : ctx'.tokens = ctx.tokens) : (st.setContext s ctx').token = st.token := by
  funext tok s' slot
  unfold State.token State.setContext
  by_cases hs : s' = s
  · subst hs
    simp [hctx, htokens]
  · simp [hs]

theorem Inv.emplace (h : Inv st) (hnone : st.context s = none) :
    Inv (st.setContext s .initialized) := by
  refine ⟨h.rings.congr ?_, h.holders.setContext le_rfl ?_ ?_⟩
  · funext tok s' slot
    unfold State.token State.setContext
    by_cases hs : s' = s
    · subst hs
      simp [hnone, Context.initialized]
    · simp [hs]
  · intro ctx' hctx'
    rw [hnone] at hctx'
    cases hctx'
  · rintro t sub hsub rfl
    obtain ⟨ctx', hctx', -⟩ := h.holders.holder t sub hsub
    rw [hnone] at hctx'
    cases hctx'

theorem nextTicket_tokens {ctx ctx' : Context} {seq : ℕ} (h : ctx.nextTicket = some (seq, ctx')) :
    ctx'.tokens = ctx.tokens := by
  unfold Context.nextTicket at h
  split at h <;> cases h
  rfl

theorem Inv.step {l : Label} (h : Inv st) (hst : step st l = some st') : Inv st' := by
  cases l with
  | emplace s =>
    simp only [TokenRing.step] at hst
    split at hst <;> cases hst
    rename_i hcond
    exact h.emplace (Option.isNone_iff_eq_none.1 hcond.2)
  | begin t s =>
    simp only [TokenRing.step] at hst
    split at hst
    · rename_i ctx _ hctx
      split at hst
      · rename_i howner
        split at hst
        · cases hst
          exact h
        · rename_i seq ctx' hnext
          cases hst
          have htokens : ctx'.tokens = ctx.tokens := nextTicket_tokens hnext
          exact ⟨h.rings.congr (token_setContext hctx htokens), h.holders.begin hctx howner hnext⟩
      · cases hst
    · cases hst
  | inputReady t ok => exact h.inputReady hst
  | inputWait t ok => exact h.inputWait hst
  | write t ok => exact h.write hst
  | wait t ok => exact h.wait hst
  | leave t =>
    simp only [TokenRing.step] at hst
    split at hst
    · cases hst
    · rename_i sub hsub
      split at hst
      · cases hst
      · rename_i ctx hctx
        cases hst
        exact ⟨h.rings.congr (token_setContext hctx rfl), h.holders.leave hsub hctx⟩
  | work q =>
    cases hst
    exact ⟨h.rings.enqueue nofun nofun, h.holders.work⟩
  | device q =>
    simp only [TokenRing.step] at hst
    split at hst
    · cases hst
    · rename_i op hop
      split at hst <;> cases hst
      exact h.device hop (by assumption)

end Steps

theorem start_inv : Inv start := by
  refine ⟨⟨fun _ => le_rfl, ⟨nofun, fun _ => List.Pairwise.nil, nofun, fun _ _ _ => .inl rfl, nofun⟩,
    nofun, fun _ _ => 0, 0, ⟨nofun, nofun, nofun⟩⟩, ⟨nofun, nofun, nofun, nofun⟩⟩

/-! ## The ring works -/

section Result

variable {ls : List Label} {q : Queue} {tok : Token} {s n : ℕ}

theorem run_inv (hrun : machine.runFrom Machine.anyStep start ls = some st) : Inv st :=
  machine.invariant (fun _ _ _ h _ hst => h.step hst) start_inv hrun

theorem Inv.executed_of_released (h : Inv st) (hrel : st.Released q (.wait tok s n)) :
    st.Executed (tok.home s) (.write tok s n) := by
  rcases hrel with hmem | ⟨hop, hready⟩
  · exact h.rings.values.waited q tok s n hmem
  · have hfinished := (h.device hop hready).rings.values.waited q tok s n (Streams.mem_take_self hop)
    rcases Streams.mem_take_of_finish hop hfinished with hmem | ⟨-, heq⟩
    · exact hmem
    · cases heq

/-- Among the streams that are held, the one whose wait is the oldest waits for a write on a
stream whose next operation is older still. -/
theorem Inv.not_mutuallyBlocked (h : Inv st) (X : Set Queue) : ¬ st.MutuallyBlocked X := by
  rintro ⟨hne, hblocked⟩
  obtain ⟨clock, now, hordered⟩ := h.rings.ordered
  obtain ⟨q, hq, hmin⟩ := (measure fun q => clock q (st.done q)).wf.has_min X hne
  obtain ⟨tok, s, n, hop, hready, hwrites⟩ := hblocked q hq
  have hlt : st.token tok s (n % kRingSize) < n := by
    rw [← not_le, ← ready_wait, hready]
    exact Bool.false_ne_true
  obtain ⟨j, hj, hwrite, hclock⟩ := h.rings.unready hordered hop hlt
  have hhome : tok.home s ∈ X := hwrites _ j n hj hwrite rfl le_rfl
  refine hmin _ hhome ?_
  show clock (tok.home s) (st.done (tok.home s)) < clock q (st.done q)
  rcases Nat.eq_or_lt_of_le hj with heq | hlt
  · rw [heq]
    exact hclock
  · have hinc := hordered.increasing _ _ j hlt (List.getElem?_eq_some_iff.1 hwrite).1
    exact hinc.trans hclock

/-- **No streams stand still together.**  As long as an operation is left, some stream can execute
its next one. -/
theorem progress (hrun : machine.runFrom Machine.anyStep start ls = some st)
    (hleft : ∃ q, st.done q < (st.ops q).length) : ∃ q, (step st (.device q)).isSome := by
  by_contra hstuck
  push Not at hstuck
  refine (run_inv hrun).not_mutuallyBlocked {q | st.done q < (st.ops q).length} ⟨hleft, ?_⟩
  intro q hq
  have hop : (st.ops q)[st.done q]? = some (st.ops q)[st.done q] := List.getElem?_eq_getElem hq
  have hnot : st.ready (st.ops q)[st.done q] = false := by
    have hnone := hstuck q
    simp only [step, hop] at hnone
    by_contra hready
    simp [hready] at hnone
  cases hwait : (st.ops q)[st.done q] with
  | wait tok s n =>
    rw [hwait] at hop hnot
    refine ⟨tok, s, n, hop, hnot, fun q' i m hi hget _ _ => ?_⟩
    exact hi.trans_lt (List.getElem?_eq_some_iff.1 hget).1
  | work => simp [hwait, State.ready] at hnot
  | fast c => simp [hwait, State.ready] at hnot
  | pcie c => simp [hwait, State.ready] at hnot
  | write tok s n => simp [hwait, State.ready] at hnot
  | record c => simp [hwait, State.ready] at hnot
  | waitEvent c => simp [hwait, State.ready] at hnot
  | callback => simp [hwait, State.ready] at hnot

/-- **The ring keeps the tickets apart and never blocks.**  In every run, with any number of
streams and tickets, a wait that lets go has the write of its own number executed, by the one
stream on which it was put; and no set of streams is held by each other's waits. -/
theorem token_ring (hrun : machine.runFrom Machine.anyStep start ls = some st) :
    (∀ q tok s n, st.Released q (.wait tok s n) →
      st.Executed (tok.home s) (.write tok s n) ∧
        ∀ q', .write tok s n ∈ st.ops q' → q' = tok.home s) ∧
      ∀ X, ¬ st.MutuallyBlocked X := by
  have hinv := run_inv hrun
  exact ⟨fun q tok s n hrel => ⟨hinv.executed_of_released hrel,
    fun q' hmem => hinv.rings.values.home q' tok s n hmem⟩, hinv.not_mutuallyBlocked⟩

/-- A thread makes 66 submissions on stream 1 before the streams execute anything; the last two
fall into the slots of the first two. -/
def wrapRun : List Label :=
  .emplace 1 ::
    ((List.range 66).flatMap fun _ => [.begin 7 1, .inputReady 7 true, .inputWait 7 true,
      .write 7 true, .wait 7 true, .leave 7]) ++ [.device (.user 1), .device .pcie]

/-- The input wait of the first ticket has let go. -/
theorem token_ring_wrap :
    ∃ st, machine.runFrom Machine.anyStep start wrapRun = some st ∧
      st.Released .pcie (.wait .inputReady 1 1) ∧
      st.Executed (.user 1) (.write .inputReady 1 1) ∧ ∀ X, ¬ st.MutuallyBlocked X := by
  have hseen : (machine.runFrom Machine.anyStep start wrapRun).map
      (fun st => (st.ops .pcie).take (st.done .pcie)) = some [.wait .inputReady 1 1] := by
    decide +kernel
  obtain ⟨st, hrun, heq⟩ := Option.map_eq_some_iff.1 hseen
  have hrel : st.Released .pcie (.wait .inputReady 1 1) := .inl (by rw [heq]; simp)
  obtain ⟨hreleased, hfree⟩ := token_ring hrun
  exact ⟨st, hrun, hrel, (hreleased _ _ _ _ hrel).1, hfree⟩

end Result

end TokenRing
end Orchestrator
end HyLink
