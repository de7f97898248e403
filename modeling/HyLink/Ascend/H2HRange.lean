import HyLink.Ascend.H2HShards
import HyLink.Theory.Gate
import Mathlib.Data.Int.Notation

/-!
# The range path of a host copy

A node handed to `submitCopyRange`: the threads of one task go through all its subchunks together.
Each waits for the input and the overwrite guard of the next subchunk, copies its part of the slice,
and meets the others at a barrier, where the last one publishes the subchunk.  The executors of all
ranks go on meanwhile: they raise cursors and fill slices, and keep a slice until its reader is
through with it.

* `H2HRange.step` — the next access of a thread, or what the others do.
* `plain` — the path without a range: the subchunks one after the other.
* `plain_eq` — the shards of a subchunk are its slice.
* `exists_part` — the parts of the threads cover a slice.

The input and the output are different memories.
-/

namespace HyLink
namespace Ascend
namespace H2HRange

open Theory

/-- `SUBCHUNK_SLICE_SIZE`, and `subchunk_bytes` of the request. -/
def sliceSize : ℕ := 1048576

/-! ## The request -/

/-- What `overwriteReady` and the threads check of the guard: its version, and `getNumReaders`. -/
structure Guard where
  version : ℤ
  readers : ℕ
  deriving DecidableEq, Repr

/-- A `CopyRangeRequest` that `submitCopyRange` accepts. -/
structure Request where
  bytes : ℕ
  numSubchunks : ℕ
  inputRing : Bool
  outputRing : Bool
  /-- `input_reader_id` -/
  readerId : ℤ
  overwriteGuard : Option Guard
  /-- `num_threads` -/
  threads : ℕ
  bytes_pos : 0 < bytes
  num_pos : 0 < numSubchunks
  threads_pos : 0 < threads

namespace Request

variable (req : Request)

/-- `subchunkSize`, and `this_bytes`. -/
def size (sc : ℕ) : ℕ :=
  if req.bytes ≤ sc * sliceSize then 0 else min sliceSize (req.bytes - sc * sliceSize)

/-- The loop goes on with the subchunk. -/
def carries (sc : ℕ) : Bool := decide (sc < req.numSubchunks ∧ sc * sliceSize < req.bytes)

/-- A ring has two slots. -/
def srcOffset (sc : ℕ) : ℕ := (if req.inputRing then sc % 2 else sc) * sliceSize

def dstOffset (sc : ℕ) : ℕ := (if req.outputRing then sc % 2 else sc) * sliceSize

/-- The part of a thread, rounded up to 256 bytes. -/
def perThread (sc : ℕ) : ℕ := ((req.size sc + req.threads - 1) / req.threads + 255) / 256 * 256

/-- `my_start` -/
def partStart (tid sc : ℕ) : ℕ := tid * req.perThread sc

/-- `my_end` -/
def partEnd (tid sc : ℕ) : ℕ := min (req.partStart tid sc + req.perThread sc) (req.size sc)

/-- `input_reader_id >= 0` -/
def reads : Bool := decide (0 ≤ req.readerId)

/-- The place is in the slice of the subchunk. -/
def InSlice (sc a : ℕ) : Prop := req.dstOffset sc ≤ a ∧ a < req.dstOffset sc + req.size sc

instance (sc a : ℕ) : Decidable (req.InSlice sc a) :=
  inferInstanceAs (Decidable (req.dstOffset sc ≤ a ∧ a < req.dstOffset sc + req.size sc))

theorem not_inSlice {req : Request} {sc a : ℕ} (h : req.size sc = 0) : ¬ req.InSlice sc a := by
  unfold InSlice
  omega

end Request

/-! ## The threads and the others -/

/-- Where a thread stands in `processRangeWorkItem`. -/
inductive Phase where
  /-- No worker has taken its item. -/
  | queued
  /-- At the head of the loop, before the input. -/
  | input
  | guardWrite
  | guardConsume
  /-- Before the byte of this offset. -/
  | copying (i : ℕ)
  /-- In the barrier. -/
  | meeting
  /-- The count is reset; before `advanceWriteProgress`. -/
  | publishWrite
  /-- Before `advanceReaderDone`. -/
  | publishReader
  | done
  deriving DecidableEq, Repr

/-- The subchunk is copied, as far as it is the thread's. -/
def Phase.isThrough : Phase → Bool
  | .meeting | .publishWrite | .publishReader => true
  | _ => false

structure State (α : Type) where
  /-- `h2h_range_submitted` -/
  submitted : Bool
  /-- `next_subchunk` and `completed_subchunks` of the node. -/
  next : ℕ
  completed : ℕ
  /-- The write cursor of the input, and the two cursors of the guard. -/
  input : ℕ
  guardWrite : ℕ
  guardConsume : ℕ
  /-- The write cursor of the output, and the node's reader cursor of the input. -/
  write : ℕ
  reader : ℕ
  src : ℕ → α
  /-- The output, as the node's own writes leave it. -/
  dst : ℕ → α
  gate : Gate.State
  phase : ℕ → Phase
  threadsDone : ℕ
  /-- The completion waits to be polled. -/
  completion : Bool

variable {α : Type}

/-- Before the submission. -/
def State.init (src dst : ℕ → α) : State α where
  submitted := false
  next := 0
  completed := 0
  input := 0
  guardWrite := 0
  guardConsume := 0
  write := 0
  reader := 0
  src := src
  dst := dst
  gate := Gate.State.init 0
  phase := fun _ => .queued
  threadsDone := 0
  completion := false

inductive Label (α : Type) where
  /-- `trySubmitNode` on the fast path. -/
  | submit
  | thread (tid : ℕ)
  /-- `pollH2HCompletions` -/
  | poll
  /-- The other executors have raised the cursors, and filled the input. -/
  | others (input guardWrite guardConsume : ℕ) (src : ℕ → α)

namespace State

variable (req : Request) (s : State α)

def goto (tid : ℕ) (p : Phase) : State α := { s with phase := Function.update s.phase tid p }

/-- `inputsReady` and `overwriteReady` -/
def Allowed (sc : ℕ) : Prop :=
  sc + 1 ≤ s.input ∧ ∀ g ∈ req.overwriteGuard,
    (0 < g.version → sc + 1 ≤ s.guardWrite) ∧ (0 < g.readers → sc + 1 ≤ s.guardConsume)

instance (sc : ℕ) : Decidable (s.Allowed req sc) :=
  inferInstanceAs (Decidable (_ ∧ ∀ g ∈ req.overwriteGuard, _))

/-- What was published of the input and is not read yet is there. -/
def Kept (data : ℕ → ℕ → α) (input reader : ℕ) (src : ℕ → α) : Prop :=
  ∀ sc < min input req.numSubchunks, (req.reads = true → reader ≤ sc) →
    ∀ i < req.size sc, src (req.srcOffset sc + i) = data sc i

end State

variable (req : Request) (data : ℕ → ℕ → α)

instance [DecidableEq α] (input reader : ℕ) (src : ℕ → α) :
    Decidable (State.Kept req data input reader src) := by
  unfold State.Kept
  infer_instance

section Thread

variable (s : State α) (tid : ℕ)

/-- The subchunk of a thread. -/
def State.sc : ℕ := s.gate.passed tid

/-- After the last wait. -/
def copyPhase (sc : ℕ) : Phase :=
  if req.partStart tid sc < req.partEnd tid sc then .copying (req.partStart tid sc) else .meeting

/-- After an access in the barrier. -/
def afterGate : Gate.Place → Gate.Place → Phase
  | .resetting _, _ => .publishWrite
  | _, .outside => .input
  | _, _ => .meeting

/-- The next access of a thread. -/
def threadStep : Option (State α) :=
  let sc := s.sc tid
  if s.submitted = true ∧ tid < req.threads then
    match s.phase tid with
    | .queued => some (s.goto tid .input)
    | .input =>
      if req.carries sc then
        if sc < s.input then
          some (s.goto tid
            (if req.overwriteGuard.isSome then .guardWrite else copyPhase req tid sc))
        else none
      else
        some { s.goto tid .done with
          threadsDone := s.threadsDone + 1
          completion := s.completion || decide (s.threadsDone + 1 = req.threads) }
    | .guardWrite =>
      if ∀ g ∈ req.overwriteGuard, 0 < g.version → sc < s.guardWrite then
        some (s.goto tid .guardConsume)
      else none
    | .guardConsume =>
      if ∀ g ∈ req.overwriteGuard, 0 < g.readers → sc < s.guardConsume then
        some (s.goto tid (copyPhase req tid sc))
      else none
    | .copying i =>
      some { s.goto tid (if i + 1 < req.partEnd tid sc then .copying (i + 1) else .meeting) with
        dst := Function.update s.dst (req.dstOffset sc + i) (s.src (req.srcOffset sc + i)) }
    | .meeting =>
      (Gate.step req.threads s.gate tid).map fun gate =>
        { s.goto tid (afterGate (s.gate.place tid) (gate.place tid)) with gate := gate }
    | .publishWrite => some { s.goto tid .publishReader with write := max s.write (sc + 1) }
    | .publishReader =>
      some { s.goto tid .meeting with
        reader := if req.reads then max s.reader (sc + 1) else s.reader }
    | .done => none
  else none

/-- All an access of a thread can do. -/
inductive Access : State α → Prop
  | begin (hp : s.phase tid = .queued) : Access (s.goto tid .input)
  | guarded (hp : s.phase tid = .input) (hcarries : req.carries (s.gate.passed tid) = true)
      (hinput : s.gate.passed tid < s.input) (hguard : req.overwriteGuard.isSome = true) :
      Access (s.goto tid .guardWrite)
  | unguarded (hp : s.phase tid = .input) (hcarries : req.carries (s.gate.passed tid) = true)
      (hinput : s.gate.passed tid < s.input) (hguard : req.overwriteGuard = none) :
      Access (s.goto tid (copyPhase req tid (s.gate.passed tid)))
  | leave (hp : s.phase tid = .input) (hcarries : req.carries (s.gate.passed tid) = false) :
      Access { s.goto tid .done with
        threadsDone := s.threadsDone + 1
        completion := s.completion || decide (s.threadsDone + 1 = req.threads) }
  | guardWrite (hp : s.phase tid = .guardWrite)
      (hguard : ∀ g ∈ req.overwriteGuard, 0 < g.version → s.gate.passed tid < s.guardWrite) :
      Access (s.goto tid .guardConsume)
  | guardConsume (hp : s.phase tid = .guardConsume)
      (hguard : ∀ g ∈ req.overwriteGuard, 0 < g.readers → s.gate.passed tid < s.guardConsume) :
      Access (s.goto tid (copyPhase req tid (s.gate.passed tid)))
  | copy {i : ℕ} (hp : s.phase tid = .copying i) :
      Access { s.goto tid (if i + 1 < req.partEnd tid (s.gate.passed tid) then .copying (i + 1)
          else .meeting) with
        dst := Function.update s.dst (req.dstOffset (s.gate.passed tid) + i)
          (s.src (req.srcOffset (s.gate.passed tid) + i)) }
  | meet {gate : Gate.State} (hp : s.phase tid = .meeting)
      (hgate : Gate.step req.threads s.gate tid = some gate) :
      Access { s.goto tid (afterGate (s.gate.place tid) (gate.place tid)) with gate := gate }
  | publishWrite (hp : s.phase tid = .publishWrite) :
      Access { s.goto tid .publishReader with write := max s.write (s.gate.passed tid + 1) }
  | publishReader (hp : s.phase tid = .publishReader) :
      Access { s.goto tid .meeting with
        reader := if req.reads then max s.reader (s.gate.passed tid + 1) else s.reader }

variable {req s tid}

/-- **Every access is one of these.** -/
theorem Access.of_threadStep {s' : State α} (h : threadStep req s tid = some s') :
    tid < req.threads ∧ Access req s tid s' := by
  unfold threadStep at h
  dsimp only [State.sc] at h
  split at h
  · rename_i hcond
    refine ⟨hcond.2, ?_⟩
    split at h
    · cases h
      exact .begin ‹_›
    · rename_i hp
      split at h
      · rename_i hcarries
        split at h
        · rename_i hinput
          cases h
          split
          · exact .guarded hp hcarries hinput ‹_›
          · exact .unguarded hp hcarries hinput (by simpa using ‹¬ req.overwriteGuard.isSome = true›)
        · cases h
      · cases h
        exact .leave hp (by simpa using ‹¬ req.carries (s.gate.passed tid) = true›)
    · split at h <;> cases h
      exact .guardWrite ‹_› ‹_›
    · split at h <;> cases h
      exact .guardConsume ‹_› ‹_›
    · cases h
      exact .copy ‹_›
    · obtain ⟨gate, hgate, rfl⟩ := Option.map_eq_some_iff.1 h
      exact .meet ‹_› hgate
    · cases h
      exact .publishWrite ‹_›
    · cases h
      exact .publishReader ‹_›
    · cases h
  · cases h

end Thread

def step [DecidableEq α] (s : State α) : Label α → Option (State α)
  | .submit =>
    if s.submitted = false ∧ s.Allowed req 0 then
      some { s with submitted := true, next := req.numSubchunks }
    else none
  | .thread tid => threadStep req s tid
  | .poll =>
    if s.completion then
      some { s with
        completion := false, completed := req.numSubchunks, next := req.numSubchunks }
    else none
  | .others input guardWrite guardConsume src =>
    if s.input ≤ input ∧ s.guardWrite ≤ guardWrite ∧ s.guardConsume ≤ guardConsume ∧
        State.Kept req data input s.reader src then
      some { s with input := input, guardWrite := guardWrite, guardConsume := guardConsume,
                    src := src }
    else none

def machine [DecidableEq α] : Machine (State α) (Label α) := ⟨step req data⟩

/-! ## The path without a range -/

/-- What a node leaves: the output, and the two cursors. -/
structure Outcome (α : Type) where
  dst : ℕ → α
  write : ℕ
  reader : ℕ

def State.outcome {α : Type} (s : State α) : Outcome α := ⟨s.dst, s.write, s.reader⟩

section Plain

/-- A worker copies a shard to its place. -/
def copyShard (base : ℕ) (values : ℕ → α) (dst : ℕ → α) (span : Span) : ℕ → α := fun a =>
  if base + span.start ≤ a ∧ a < base + span.start + span.len then values (a - base) else dst a

variable (eng : H2HShards.Engine)

/-- `trySubmitNode` for one subchunk, its copy and its publication. -/
def plainSubchunk (o : Outcome α) (sc : ℕ) : Outcome α where
  dst := if req.size sc = 0 then o.dst
    else (eng.shards (req.size sc)).foldl (copyShard (req.dstOffset sc) (data sc)) o.dst
  write := max o.write (sc + 1)
  reader := if req.reads then max o.reader (sc + 1) else o.reader

/-- The subchunks one after the other. -/
def plain (dst : ℕ → α) : Outcome α :=
  (List.range req.numSubchunks).foldl (plainSubchunk req data eng) ⟨dst, 0, 0⟩

/-- The output when so many slices are copied. -/
def slices (dst : ℕ → α) : ℕ → ℕ → α
  | 0 => dst
  | k + 1 => fun a =>
    if req.InSlice k a then data k (a - req.dstOffset k) else slices dst k a

variable {req data eng} {dst : ℕ → α} {sc tid off a : ℕ}

/-- Shards that tile a slice are the slice. -/
theorem foldl_copyShard {lo hi base : ℕ} {values : ℕ → α} {l : List Span}
    (h : Tiles lo l hi) (dst : ℕ → α) (a : ℕ) :
    l.foldl (copyShard base values) dst a =
      if base + lo ≤ a ∧ a < base + hi then values (a - base) else dst a := by
  induction l generalizing lo dst with
  | nil =>
    cases h
    rw [List.foldl_nil, if_neg (by omega)]
  | cons span rest ih =>
    obtain ⟨rfl, hrest⟩ := h
    have hle := hrest.le
    rw [List.foldl_cons, ih hrest]
    unfold copyShard
    by_cases hin : base + span.start ≤ a ∧ a < base + hi
    · rw [if_pos hin]
      split
      · rfl
      · rw [if_pos (by omega)]
    · rw [if_neg hin, if_neg (by omega), if_neg (by omega)]

theorem size_le : req.size sc ≤ sliceSize := by
  unfold Request.size
  split
  · exact Nat.zero_le _
  · exact min_le_left _ _

theorem plainSubchunk_dst (o : Outcome α) (a : ℕ) :
    (plainSubchunk req data eng o sc).dst a =
      if req.InSlice sc a then data sc (a - req.dstOffset sc) else o.dst a := by
  unfold plainSubchunk
  dsimp only
  split
  · rename_i hzero
    exact (if_neg (Request.not_inSlice hzero)).symm
  · rename_i hpos
    have hmax : sliceSize < H2HShards.sizeMod := by
      unfold sliceSize H2HShards.sizeMod
      omega
    have htiles : Tiles 0 (eng.shards (req.size sc)) (req.size sc) :=
      H2HShards.Engine.tiles_shards (lt_of_le_of_lt size_le hmax) (Nat.pos_of_ne_zero hpos)
    rw [foldl_copyShard htiles, Nat.add_zero]
    unfold Request.InSlice
    exact if_congr Iff.rfl rfl rfl

/-- **The path without a range** copies all slices, and raises the cursors to their number. -/
theorem plain_eq (eng : H2HShards.Engine) (dst : ℕ → α) :
    plain req data eng dst = ⟨slices req data dst req.numSubchunks, req.numSubchunks,
      if req.reads then req.numSubchunks else 0⟩ := by
  have hall : ∀ k, (List.range k).foldl (plainSubchunk req data eng) ⟨dst, 0, 0⟩ =
      ⟨slices req data dst k, k, if req.reads then k else 0⟩ := by
    intro k
    induction k with
    | zero => simp [slices]
    | succ k ih =>
      rw [List.range_succ, List.foldl_append, ih, List.foldl_cons, List.foldl_nil]
      have hdst : (plainSubchunk req data eng ⟨slices req data dst k, k,
          if req.reads then k else 0⟩ k).dst = slices req data dst (k + 1) :=
        funext fun a => plainSubchunk_dst _ a
      have hwrite : max k (k + 1) = k + 1 := max_eq_right (Nat.le_succ k)
      have hreader : (if req.reads then max (if req.reads then k else 0) (k + 1)
          else if req.reads then k else 0) = if req.reads then k + 1 else 0 := by
        cases req.reads
        · rfl
        · exact hwrite
      rw [← hdst]
      exact congrArg₂ (Outcome.mk _) hwrite hreader
  exact hall req.numSubchunks

/-- Subchunks without bytes leave the output as it is. -/
theorem slices_of_empty {k n : ℕ} (hk : k ≤ n) (h : ∀ sc, k ≤ sc → sc < n → req.size sc = 0) :
    slices req data dst n = slices req data dst k := by
  induction n, hk using Nat.le_induction with
  | base => rfl
  | succ n hn ih =>
    rw [← ih fun sc hsc hlt => h sc hsc (Nat.lt_succ_of_lt hlt)]
    funext a
    exact if_neg (Request.not_inSlice (h n hn (Nat.lt_succ_self n)))

end Plain

/-! ## The parts of the threads -/

section Parts

variable {req} {sc tid off : ℕ}

theorem size_le_parts : req.size sc ≤ req.threads * req.perThread sc := by
  have hpos := req.threads_pos
  have hdiv : req.size sc ≤ req.threads * ((req.size sc + req.threads - 1) / req.threads) := by
    have hlt := Nat.lt_div_mul_add (a := req.size sc + req.threads - 1) hpos
    rw [Nat.mul_comm]
    omega
  refine hdiv.trans (Nat.mul_le_mul_left _ ?_)
  unfold Request.perThread
  omega

/-- **The parts cover the slice.** -/
theorem exists_part (hoff : off < req.size sc) :
    ∃ tid < req.threads, req.partStart tid sc ≤ off ∧ off < req.partEnd tid sc := by
  have hparts : req.size sc ≤ req.threads * req.perThread sc := size_le_parts
  have hpos : 0 < req.perThread sc := by
    by_contra hzero
    rw [Nat.eq_zero_of_not_pos hzero, Nat.mul_zero] at hparts
    omega
  refine ⟨off / req.perThread sc, ?_, Nat.div_mul_le_self _ _, ?_⟩
  · rw [Nat.div_lt_iff_lt_mul hpos]
    exact hoff.trans_le hparts
  · unfold Request.partEnd Request.partStart
    refine lt_min ?_ hoff
    exact Nat.lt_div_mul_add hpos

theorem partEnd_le : req.partEnd tid sc ≤ req.size sc := min_le_right _ _

theorem carries_iff : req.carries sc = true ↔ sc < req.numSubchunks ∧ sc * sliceSize < req.bytes :=
  decide_eq_true_iff

/-- A subchunk that is not carried is the end, or has no bytes. -/
theorem size_of_not_carries (h : req.carries sc = false) {k : ℕ} (hk : sc ≤ k)
    (hlt : k < req.numSubchunks) : req.size k = 0 := by
  have hno : ¬ sc * sliceSize < req.bytes := fun hbytes => by
    rw [carries_iff.2 ⟨hk.trans_lt hlt, hbytes⟩] at h
    cases h
  have hle : sc * sliceSize ≤ k * sliceSize := Nat.mul_le_mul_right _ hk
  unfold Request.size
  exact if_pos (by omega)

end Parts

end H2HRange
end Ascend
end HyLink
