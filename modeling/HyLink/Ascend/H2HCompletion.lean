import Mathlib.Data.List.TakeWhile
import HyLink.Theory.Gate
import HyLink.Theory.Machine
import HyLink.Theory.Parking

/-!
# The completions of a host copy

One H2H node of a rank's graph: the executor submits its subchunks in order, publishes some of them
itself, and polls the completions of the others; the H2H engine's workers copy the shards of a
subchunk in any order.  With the range path, the threads of one task go through all subchunks
together and publish them.  Whether the inputs of a subchunk are ready is left to the run.

* `shards_length` — every shard that a subchunk waits for is queued.
* `Inv` — the parked flags, the counter, the cursors and the engine belong together.
* `published_iff` — the cursors and the counter follow the completed subchunks throughout a run just
  if nothing is published past an unfinished subchunk, and a range has no subchunk without bytes.
-/

namespace HyLink
namespace Ascend
namespace H2HCompletion

open Theory

/-! ## The node -/

/-- `SUBCHUNK_SLICE_SIZE`. -/
def sliceSize : ℕ := 1048576

structure Node where
  /-- `num_subchunks` of the graph. -/
  numSubchunks : ℕ
  workBytes : ℕ
  skipDma : Bool
  /-- The range path is enabled, and the node has one input, on the host like its output and at
  another address. -/
  range : Bool
  /-- The input and the output of the subchunk have the same address. -/
  sameAddress : ℕ → Bool
  /-- `workers_per_numa_`. -/
  workers : ℕ
  workers_pos : 0 < workers
  workers_le : workers ≤ 32
  /-- `shard_bytes_`. -/
  shardBytes : ℕ
  /-- The threads of a range task. -/
  threads : ℕ
  threads_pos : 0 < threads

namespace Node

variable (node : Node)

def subchunkSize (sc : ℕ) : ℕ :=
  if node.workBytes ≤ sc * sliceSize then 0 else min sliceSize (node.workBytes - sc * sliceSize)

def minShardBytes : ℕ := max 65536 node.shardBytes

def numShards (bytes : ℕ) : ℕ :=
  max 1 (min node.workers ((bytes + node.minShardBytes - 1) / node.minShardBytes))

def shardLength (bytes : ℕ) : ℕ := (bytes + node.numShards bytes - 1) / node.numShards bytes

/-- The shards that `submitCopy` queues, with offset and length; it stops at the first empty one. -/
def shards (bytes : ℕ) : List (ℕ × ℕ) :=
  ((List.range (node.numShards bytes)).takeWhile fun shard =>
    decide (shard * node.shardLength bytes < bytes)).map fun shard =>
      (shard * node.shardLength bytes,
        min (node.shardLength bytes) (bytes - shard * node.shardLength bytes))

end Node

/-! ## The executor and the engine -/

inductive Completion where
  | subchunk (sc : ℕ)
  /-- `kRangeCompletionSubchunk`. -/
  | range
  deriving DecidableEq, Repr

structure State where
  /-- `next_subchunk` and `completed_subchunks`. -/
  next : ℕ
  completed : ℕ
  /-- `h2h_completion_pending_`. -/
  pending : ℕ → Bool
  rangeSubmitted : Bool
  /-- The write cursor of the output. -/
  write : ℕ
  /-- The reader cursors of the inputs, which are raised together. -/
  reader : ℕ
  /-- The shards that are queued or being copied. -/
  outstanding : ℕ → ℕ
  /-- The counter the shards of a subchunk share. -/
  remaining : ℕ → ℕ
  completions : List Completion
  /-- The barrier of the range task. -/
  gate : Gate.State
  /-- The subchunks a thread of the range task has copied. -/
  copied : ℕ → ℕ
  /-- The thread is through with the range. -/
  left : ℕ → Bool
  threadsDone : ℕ
  /-- The subchunks that are published at submission or polled (history). -/
  polled : ℕ → Bool

def initial : State where
  next := 0
  completed := 0
  pending := fun _ => false
  rangeSubmitted := false
  write := 0
  reader := 0
  outstanding := fun _ => 0
  remaining := fun _ => 0
  completions := []
  gate := Gate.State.init 0
  copied := fun _ => 0
  left := fun _ => false
  threadsDone := 0
  polled := fun _ => false

inductive Label where
  /-- `trySubmitNode`, the inputs being ready. -/
  | submit
  /-- A worker is through with a shard of the subchunk. -/
  | shard (sc : ℕ)
  /-- The oldest completion is polled. -/
  | poll
  /-- A thread of the range task copies its part of its next subchunk. -/
  | copy (tid : ℕ)
  /-- It goes on in the barrier of the subchunk. -/
  | gate (tid : ℕ)
  /-- It leaves the loop. -/
  | leave (tid : ℕ)
  deriving DecidableEq, Repr

namespace State

/-- `publishNodeProgress` and `publishInputReaders` up to the count. -/
def publish (s : State) (count : ℕ) : State :=
  { s with write := max s.write count, reader := max s.reader count }

/-- The next subchunk is published at submission. -/
def publishDirect (s : State) : State :=
  { s.publish (s.next + 1) with
    next := s.next + 1
    completed := s.completed + 1
    polled := Function.update s.polled s.next true }

/-- The body of the loop in `pollH2HCompletions`. -/
def publishOldest (s : State) : State :=
  { s.publish (s.completed + 1) with
    pending := Function.update s.pending s.completed false
    completed := s.completed + 1 }

/-- The loop, for so many subchunks at most. -/
def drain : ℕ → State → State
  | 0, s => s
  | fuel + 1, s => if s.pending s.completed then drain fuel s.publishOldest else s

end State

variable (node : Node)

def takesRange (s : State) : Bool := node.range && !s.rangeSubmitted && s.next == 0

/-- The next subchunk is published at submission. -/
def direct (s : State) : Bool :=
  node.skipDma || node.subchunkSize s.next == 0 || (!takesRange node s && node.sameAddress s.next)

def submit (s : State) : Option State :=
  if node.numSubchunks ≤ s.next then none
  else if node.skipDma then some s.publishDirect
  else if node.subchunkSize s.next = 0 then some s.publishDirect
  else if takesRange node s then
    some { s with rangeSubmitted := true, next := node.numSubchunks }
  else if node.sameAddress s.next then some s.publishDirect
  else
    let bytes := node.subchunkSize s.next
    some { s with
      next := s.next + 1
      outstanding := Function.update s.outstanding s.next (node.shards bytes).length
      remaining := Function.update s.remaining s.next (node.numShards bytes) }

/-- `completeWorkItem`. -/
def shard (s : State) (sc : ℕ) : Option State :=
  if s.outstanding sc = 0 then none
  else
    some { s with
      outstanding := Function.update s.outstanding sc (s.outstanding sc - 1)
      remaining := Function.update s.remaining sc (s.remaining sc - 1)
      completions :=
        if s.remaining sc = 1 then s.completions ++ [.subchunk sc] else s.completions }

/-- `pollH2HCompletions` for one completion. -/
def poll (s : State) : Option State :=
  match s.completions with
  | [] => none
  | .range :: rest =>
    some { s with
      completions := rest
      completed := node.numSubchunks
      next := node.numSubchunks
      polled := fun sc => decide (sc < node.numSubchunks) }
  | .subchunk sc :: rest =>
    if sc < node.numSubchunks then
      some <| State.drain (node.numSubchunks - s.completed) { s with
        completions := rest
        pending := Function.update s.pending sc true
        polled := Function.update s.polled sc true }
    else some { s with completions := rest }

/-- The thread has another subchunk to copy. -/
def carries (sc : ℕ) : Bool := decide (sc < node.numSubchunks ∧ 0 < node.subchunkSize sc)

/-- A thread of the range task, which is at the head of the loop. -/
def atLoop (s : State) (tid : ℕ) : Bool :=
  s.rangeSubmitted && decide (tid < node.threads) && !s.left tid &&
    s.gate.place tid == .outside && s.gate.passed tid == s.copied tid

def copy (s : State) (tid : ℕ) : Option State :=
  if atLoop node s tid ∧ carries node (s.copied tid) then
    some { s with copied := Function.update s.copied tid (s.copied tid + 1) }
  else none

def Place.isResetting : Gate.Place → Bool
  | .resetting _ => true
  | _ => false

/-- The barrier of a subchunk; the last thread resets the count and publishes before it opens it. -/
def gateStep (s : State) (tid : ℕ) : Option State :=
  if s.rangeSubmitted ∧ tid < node.threads ∧ s.gate.passed tid < s.copied tid then
    (Gate.step node.threads s.gate tid).map fun gate =>
      { (if Place.isResetting (s.gate.place tid) then s.publish (s.copied tid) else s) with
        gate := gate }
  else none

def leave (s : State) (tid : ℕ) : Option State :=
  if atLoop node s tid ∧ ¬ carries node (s.copied tid) then
    some { s with
      left := Function.update s.left tid true
      threadsDone := s.threadsDone + 1
      completions :=
        if s.threadsDone + 1 = node.threads then s.completions ++ [.range] else s.completions }
  else none

def step (s : State) : Label → Option State
  | .submit => submit node s
  | .shard sc => shard s sc
  | .poll => poll node s
  | .copy tid => copy node s tid
  | .gate tid => gateStep node s tid
  | .leave tid => leave node s tid

def machine : Machine State Label := ⟨step node⟩

/-! ## What is to hold -/

/-- All bytes of the subchunk are copied, or there are none. -/
def finished (s : State) (sc : ℕ) : Bool :=
  if s.rangeSubmitted then
    node.subchunkSize sc == 0 || (List.range node.threads).all fun tid => decide (sc < s.copied tid)
  else decide (sc < s.next ∧ s.outstanding sc = 0)

/-- Everything is submitted, copied and polled. -/
structure Settled (s : State) : Prop where
  next : s.next = node.numSubchunks
  outstanding : ∀ sc, s.outstanding sc = 0
  completions : s.completions = []
  left : s.rangeSubmitted = true → ∀ tid < node.threads, s.left tid = true

structure Good (s : State) : Prop where
  counter : s.completed = prefixLength node.numSubchunks s.polled
  /-- Not behind what is polled, and not ahead of what is finished. -/
  write : prefixLength node.numSubchunks s.polled ≤ s.write ∧
    s.write ≤ prefixLength node.numSubchunks (finished node s)
  reader : prefixLength node.numSubchunks s.polled ≤ s.reader ∧
    s.reader ≤ prefixLength node.numSubchunks (finished node s)
  last : Settled node s → s.completed = node.numSubchunks

/-- **The condition on a step:** a subchunk is published at submission only when all before it are
published, and a range is polled only where all subchunks have bytes. -/
def inOrder (s : State) : Label → Bool
  | .submit => !direct node s || s.completed == s.next
  | .poll =>
    s.completions.head? != some .range || (List.range node.numSubchunks).all fun sc =>
      decide (0 < node.subchunkSize sc)
  | _ => true

/-! ## The shards of a subchunk -/

namespace Node

variable {node} {bytes : ℕ}

theorem numShards_pos : 0 < node.numShards bytes := Nat.lt_of_lt_of_le Nat.one_pos (le_max_left _ _)

theorem le_mul_shardLength : bytes ≤ node.numShards bytes * node.shardLength bytes := by
  have hpos : 0 < node.numShards bytes := numShards_pos
  have hlt := Nat.lt_div_mul_add (a := bytes + node.numShards bytes - 1) hpos
  unfold shardLength
  rw [Nat.mul_comm]
  omega

/-- No shard is empty. -/
theorem mul_shardLength_lt (hbytes : 0 < bytes) {shard : ℕ} (hshard : shard < node.numShards bytes) :
    shard * node.shardLength bytes < bytes := by
  by_cases hone : node.numShards bytes = 1
  · obtain rfl : shard = 0 := by omega
    rw [Nat.zero_mul]
    exact hbytes
  · -- with more than one shard, each has more bytes than there are shards
    set k := node.numShards bytes with hk
    set len := node.shardLength bytes with hlen
    have hpos : 0 < k := numShards_pos
    have hle : k ≤ (bytes + node.minShardBytes - 1) / node.minShardBytes ∧ k ≤ 32 := by
      have hworkers := node.workers_le
      have hdef : k = max 1 (min node.workers
        ((bytes + node.minShardBytes - 1) / node.minShardBytes)) := hk
      omega
    have hmin : 65536 ≤ node.minShardBytes := le_max_left _ _
    have hmany : k * node.minShardBytes ≤ bytes + node.minShardBytes - 1 :=
      (Nat.le_div_iff_mul_le (by omega)).1 hle.1
    have hbig : (k - 1) * 65536 < bytes := by
      have hprod : (k - 1) * 65536 ≤ (k - 1) * node.minShardBytes := Nat.mul_le_mul_left _ hmin
      have hsplit : k * node.minShardBytes = (k - 1) * node.minShardBytes + node.minShardBytes := by
        rw [← Nat.succ_mul, Nat.succ_eq_add_one, Nat.sub_add_cancel hpos]
      omega
    have hcover : bytes ≤ k * len := le_mul_shardLength
    have hlong : k ≤ len := by
      by_contra hlt
      have hprod : k * len ≤ k * k := Nat.mul_le_mul_left _ (by omega)
      have hsq : k * k ≤ 32 * k := Nat.mul_le_mul_right _ hle.2
      omega
    have hround : k * len ≤ bytes + k - 1 := by
      rw [hlen, shardLength, ← hk]
      exact Nat.mul_div_le _ _
    have hlast : shard * len ≤ (k - 1) * len := Nat.mul_le_mul_right _ (by omega)
    have hsplit : k * len = (k - 1) * len + len := by
      rw [← Nat.succ_mul, Nat.succ_eq_add_one, Nat.sub_add_cancel hpos]
    omega

/-- **As many shards are queued as the counter counts.** -/
theorem shards_length (hbytes : 0 < bytes) : (node.shards bytes).length = node.numShards bytes := by
  unfold shards
  rw [List.length_map, List.takeWhile_eq_self_iff.2, List.length_range]
  intro shard hmem
  exact decide_eq_true (mul_shardLength_lt hbytes (List.mem_range.1 hmem))

/-- **The shards have all bytes.** -/
theorem shards_cover {b : ℕ} (hb : b < bytes) :
    ∃ shard ∈ node.shards bytes, shard.1 ≤ b ∧ b < shard.1 + shard.2 := by
  have hcover : bytes ≤ node.numShards bytes * node.shardLength bytes := le_mul_shardLength
  have hlen : 0 < node.shardLength bytes := by
    by_contra hzero
    obtain h0 : node.shardLength bytes = 0 := by omega
    rw [h0, Nat.mul_zero] at hcover
    omega
  have hindex : b / node.shardLength bytes < node.numShards bytes :=
    (Nat.div_lt_iff_lt_mul hlen).2 (by omega)
  refine ⟨_, List.mem_map.2 ⟨b / node.shardLength bytes, ?_, rfl⟩, Nat.div_mul_le_self _ _, ?_⟩
  · rw [List.takeWhile_eq_self_iff.2]
    · exact List.mem_range.2 hindex
    · intro shard hmem
      exact decide_eq_true (mul_shardLength_lt (by omega) (List.mem_range.1 hmem))
  · have hlt := Nat.lt_div_mul_add (a := b) hlen
    dsimp only
    omega

end Node

/-! ## What holds in every state -/

variable {node} {s s' : State} {sc tid : ℕ}

/-- The subchunk is published or polled, being copied, or its completion is queued. -/
def Accounted (s : State) (sc : ℕ) : Prop :=
  s.polled sc = true ∧ s.outstanding sc = 0 ∧ .subchunk sc ∉ s.completions ∨
    s.polled sc = false ∧ (0 < s.outstanding sc ∧ .subchunk sc ∉ s.completions ∨
      s.outstanding sc = 0 ∧ .subchunk sc ∈ s.completions)

/-- The subchunks are copied one by one. -/
structure Single (s : State) : Prop where
  write : s.write = s.completed
  reader : s.reader = s.completed
  ahead : ∀ sc, s.next ≤ sc → s.polled sc = false ∧ s.outstanding sc = 0
  accounted : ∀ sc < s.next, Accounted s sc
  remaining : ∀ sc, 0 < s.outstanding sc → s.remaining sc = s.outstanding sc
  nodup : s.completions.Nodup
  queued : ∀ c ∈ s.completions, ∃ sc < s.next, c = .subchunk sc
  /-- There is no range task. -/
  untouched : s.gate = Gate.State.init 0 ∧ s.copied = (fun _ => 0) ∧ s.left = (fun _ => false) ∧
    s.threadsDone = 0

/-- The subchunks are copied by a range task. -/
structure Ranged (node : Node) (s : State) : Prop where
  next : s.next = node.numSubchunks
  outstanding : ∀ sc, s.outstanding sc = 0
  gate : Gate.Sound node.threads 0 s.gate
  copied : ∀ tid < node.threads, s.copied tid = s.gate.passed tid ∨
    s.copied tid = s.gate.passed tid + 1
  meets : ∀ tid < node.threads, s.gate.place tid ≠ .outside →
    s.copied tid = s.gate.passed tid + 1
  carried : ∀ tid < node.threads, ∀ sc < s.copied tid, carries node sc = true
  /-- The last thread has published before it opens the barrier. -/
  raising : ∀ tid < node.threads, ∀ g, s.gate.place tid = .raising g →
    s.write = s.gate.generation + 1
  level : (∀ tid < node.threads, ∀ g, s.gate.place tid ≠ .raising g) →
    s.write = s.gate.generation
  reader : s.reader = s.write
  left : ∀ tid < node.threads, s.left tid = true → s.gate.place tid = .outside ∧
    s.gate.passed tid = s.copied tid ∧ carries node (s.copied tid) = false
  count : s.threadsDone = (List.range node.threads).countP s.left
  phase : (s.completed = 0 ∧ (∀ sc, s.polled sc = false) ∧
      (s.threadsDone < node.threads ∧ s.completions = [] ∨
        s.threadsDone = node.threads ∧ s.completions = [.range])) ∨
    s.completed = node.numSubchunks ∧ (∀ sc < node.numSubchunks, s.polled sc = true) ∧
      s.threadsDone = node.threads ∧ s.completions = [] ∧ s.write = node.numSubchunks

structure Inv (node : Node) (s : State) : Prop where
  next_le : s.next ≤ node.numSubchunks
  tracks : Tracks node.numSubchunks s.polled s.pending s.completed
  rest : s.completed < node.numSubchunks → s.pending s.completed = false
  single : s.rangeSubmitted = false → Single s
  ranged : s.rangeSubmitted = true → Ranged node s

theorem Inv.initial : Inv node initial := by
  refine ⟨Nat.zero_le _, .start, fun _ => rfl, fun _ => ?_, nofun⟩
  refine ⟨rfl, rfl, fun _ _ => ⟨rfl, rfl⟩, nofun, nofun, List.nodup_nil, nofun, rfl, rfl, rfl, rfl⟩

/-! ## The cursors of a range -/

namespace Ranged

/-- **Nothing is published that a thread has still to copy.** -/
theorem write_le_copied (h : Ranged node s) (htid : tid < node.threads) :
    s.write ≤ s.copied tid := by
  have hlevel := h.gate.level tid htid
  by_cases hraising : ∃ q < node.threads, ∃ g, s.gate.place q = .raising g
  · obtain ⟨q, hq, g, hplace⟩ := hraising
    rw [h.raising q hq g hplace]
    have hcloses : (s.gate.place q).closes = true := by rw [hplace]; rfl
    have hin : s.gate.place tid ≠ .outside := by
      by_cases hqt : tid = q
      · rw [hqt, hplace]
        exact nofun
      · rw [h.gate.last q hq hcloses tid htid hqt]
        exact nofun
    have hpast : (s.gate.place tid).past s.gate.generation = false := by
      by_cases hqt : tid = q
      · rw [hqt, hplace]
        rfl
      · rw [h.gate.last q hq hcloses tid htid hqt]
        exact decide_eq_false (Nat.lt_irrefl _)
    rw [hpast] at hlevel
    have hmeets := h.meets tid htid hin
    simp only [Bool.false_eq_true, if_false] at hlevel
    omega
  · rw [h.level fun q hq g hplace => hraising ⟨q, hq, g, hplace⟩]
    by_cases hin : s.gate.place tid = .outside
    · have hout := h.gate.level_outside htid hin
      rcases h.copied tid htid with hc | hc <;> omega
    · have hmeets := h.meets tid htid hin
      split at hlevel <;> omega

theorem write_le (h : Ranged node s) : s.write ≤ node.numSubchunks := by
  refine (h.write_le_copied node.threads_pos).trans ?_
  by_contra hlt
  have hcarries := h.carried 0 node.threads_pos node.numSubchunks (by omega)
  unfold carries at hcarries
  exact absurd (of_decide_eq_true hcarries).1 (Nat.lt_irrefl _)

theorem write_le_finished (h : Ranged node s) (hrange : s.rangeSubmitted = true) :
    s.write ≤ prefixLength node.numSubchunks (finished node s) := by
  refine le_prefixLength_iff.2 ⟨h.write_le, ?_⟩
  intro sc hsc
  unfold finished
  rw [if_pos hrange, Bool.or_eq_true, List.all_eq_true]
  refine .inr fun tid htid => decide_eq_true ?_
  exact hsc.trans_le (h.write_le_copied (List.mem_range.1 htid))

theorem left_all (h : Ranged node s) (hdone : s.threadsDone = node.threads) :
    ∀ tid < node.threads, s.left tid = true :=
  countP_range_eq.1 (h.count.symm.trans hdone)

/-- When all threads are through, everything with bytes is published. -/
theorem write_of_left (h : Ranged node s) (hdone : s.threadsDone = node.threads)
    (hbytes : ∀ sc < node.numSubchunks, 0 < node.subchunkSize sc) :
    s.write = node.numSubchunks := by
  have hleft := h.left_all hdone
  have hout : ∀ tid < node.threads, s.gate.place tid = .outside :=
    fun tid htid => (h.left tid htid (hleft tid htid)).1
  refine le_antisymm h.write_le ?_
  rw [h.level fun tid htid g => by rw [hout tid htid]; exact nofun,
    ← h.gate.level_outside node.threads_pos (hout 0 node.threads_pos), Nat.zero_add,
    (h.left 0 node.threads_pos (hleft 0 node.threads_pos)).2.1]
  by_contra hlt
  have hno := (h.left 0 node.threads_pos (hleft 0 node.threads_pos)).2.2
  rw [carries, decide_eq_false_iff_not] at hno
  exact hno ⟨by omega, hbytes _ (by omega)⟩

end Ranged

/-! ## The invariant gives the property -/

theorem Inv.good (h : Inv node s) : Good node s := by
  have hcounter := (h.tracks.prefixLength_eq h.rest).symm
  cases hrange : s.rangeSubmitted with
  | false =>
    have hs := h.single hrange
    have hfinished : prefixLength node.numSubchunks s.polled ≤
        prefixLength node.numSubchunks (finished node s) := by
      refine prefixLength_mono ?_
      intro sc _ hpolled
      unfold finished
      rw [if_neg (by rw [hrange]; exact Bool.false_ne_true)]
      have hnext : sc < s.next := by
        by_contra hge
        rw [(hs.ahead sc (by omega)).1] at hpolled
        cases hpolled
      rcases hs.accounted sc hnext with ⟨-, hout, -⟩ | ⟨hno, -⟩
      · exact decide_eq_true ⟨hnext, hout⟩
      · rw [hno] at hpolled
        cases hpolled
    refine ⟨hcounter, ?_, ?_, ?_⟩
    · rw [hs.write, ← hcounter]
      exact ⟨le_refl _, hcounter ▸ hfinished⟩
    · rw [hs.reader, ← hcounter]
      exact ⟨le_refl _, hcounter ▸ hfinished⟩
    · intro hsettled
      rw [hcounter]
      refine prefixLength_all fun sc hsc => ?_
      rcases hs.accounted sc (hsettled.next.symm ▸ hsc) with ⟨hpolled, -⟩ | ⟨-, ⟨hpos, -⟩ | ⟨-, hin⟩⟩
      · exact hpolled
      · rw [hsettled.outstanding sc] at hpos
        cases hpos
      · rw [hsettled.completions] at hin
        cases hin
  | true =>
    have hr := h.ranged hrange
    have hle : prefixLength node.numSubchunks s.polled ≤ s.write := by
      rcases hr.phase with ⟨hzero, -⟩ | ⟨-, -, -, -, hwrite⟩
      · rw [← hcounter, hzero]
        exact Nat.zero_le _
      · rw [hwrite]
        exact prefixLength_le
    have hfinished := hr.write_le_finished hrange
    refine ⟨hcounter, ⟨hle, hfinished⟩, by rw [hr.reader]; exact ⟨hle, hfinished⟩, ?_⟩
    intro hsettled
    rcases hr.phase with ⟨-, -, ⟨hlt, -⟩ | ⟨-, hqueue⟩⟩ | ⟨hall, -⟩
    · have hcount := countP_range_eq.2 (hsettled.left hrange)
      rw [← hr.count] at hcount
      omega
    · rw [hsettled.completions] at hqueue
      cases hqueue
    · exact hall

/-! ## Submitting -/

theorem subchunk_not_mem (h : Single s) (hsc : s.next ≤ sc) : .subchunk sc ∉ s.completions := by
  intro hmem
  obtain ⟨sc', hlt, heq⟩ := h.queued _ hmem
  cases heq
  omega

/-- The rest of the subchunks stay as they are. -/
theorem Accounted.congr {q : ℕ} (h : Accounted s q) (hpolled : s'.polled q = s.polled q)
    (hout : s'.outstanding q = s.outstanding q)
    (hmem : .subchunk q ∈ s'.completions ↔ .subchunk q ∈ s.completions) : Accounted s' q := by
  unfold Accounted at h ⊢
  rw [hpolled, hout, hmem]
  exact h

/-- **A subchunk is published at submission,** all before it being published. -/
theorem Inv.publishDirect (h : Inv node s) (hrange : s.rangeSubmitted = false)
    (hlt : s.next < node.numSubchunks) (hnext : s.completed = s.next) :
    Inv node s.publishDirect := by
  have hs := h.single hrange
  have hgap := (hs.ahead s.next (le_refl _)).1
  have hnotin := subchunk_not_mem hs (le_refl _)
  have hself : s.publishDirect.polled s.next = true := Function.update_self _ _ _
  have hne : ∀ q, q ≠ s.next → s.publishDirect.polled q = s.polled q :=
    fun q hq => Function.update_of_ne hq _ _
  have htracks := h.tracks.direct (hnext ▸ hlt) (by rw [hnext]; exact hgap)
  rw [hnext] at htracks
  refine ⟨hlt, ?_, ?_, fun _ => ?_, fun hr => ?_⟩
  · show Tracks _ (Function.update s.polled s.next true) s.pending (s.completed + 1)
    rw [hnext]
    exact htracks
  · intro hlt'
    change s.completed + 1 < _ at hlt'
    show s.pending (s.completed + 1) = false
    rw [h.tracks.parked _ hlt', (hs.ahead _ (by omega)).1, Bool.false_and]
  · refine ⟨?_, ?_, ?_, ?_, hs.remaining, hs.nodup, ?_, hs.untouched⟩
    · show max s.write (s.next + 1) = s.completed + 1
      have hwrite := hs.write
      omega
    · show max s.reader (s.next + 1) = s.completed + 1
      have hreader := hs.reader
      omega
    · intro q hq
      change s.next + 1 ≤ q at hq
      rw [hne q (by omega)]
      exact hs.ahead q (by omega)
    · intro q hq
      change q < s.next + 1 at hq
      by_cases hqn : q = s.next
      · subst hqn
        exact .inl ⟨hself, (hs.ahead _ (le_refl _)).2, hnotin⟩
      · exact (hs.accounted q (by omega)).congr (hne q hqn) rfl Iff.rfl
    · intro c hc
      obtain ⟨q, hq, rfl⟩ := hs.queued c hc
      exact ⟨q, Nat.lt_succ_of_lt hq, rfl⟩
  · change s.rangeSubmitted = true at hr
    rw [hrange] at hr
    cases hr

/-- **The range is submitted** in place of the first subchunk. -/
theorem Inv.submitRange (h : Inv node s) (hrange : s.rangeSubmitted = false) (hzero : s.next = 0) :
    Inv node { s with rangeSubmitted := true, next := node.numSubchunks } := by
  have hs := h.single hrange
  have hpolled : ∀ q, s.polled q = false := fun q => (hs.ahead q (by omega)).1
  have hcompleted : s.completed = 0 := by
    by_contra hne
    have hbelow := h.tracks.below 0 (by omega)
    rw [hpolled 0] at hbelow
    cases hbelow
  have hempty : s.completions = [] := by
    rw [List.eq_nil_iff_forall_not_mem]
    intro c hc
    obtain ⟨q, hq, -⟩ := hs.queued c hc
    omega
  obtain ⟨hgate, hcopied, hleft, hdone⟩ := hs.untouched
  refine ⟨le_refl _, h.tracks, h.rest, nofun, fun _ => ?_⟩
  refine ⟨rfl, fun q => (hs.ahead q (by omega)).2, ?_, ?_, ?_, ?_, ?_, ?_, ?_, ?_, ?_, ?_⟩
  · show Gate.Sound node.threads 0 s.gate
    rw [hgate]
    exact .init node.threads_pos 0
  · intro tid _
    dsimp only
    rw [hgate, hcopied]
    exact .inl rfl
  · intro tid _ hin
    dsimp only at hin
    rw [hgate] at hin
    exact absurd rfl hin
  · intro tid _ q hq
    dsimp only at hq
    rw [hcopied] at hq
    cases hq
  · intro tid _ g hplace
    dsimp only at hplace
    rw [hgate] at hplace
    cases hplace
  · intro _
    dsimp only
    rw [hs.write, hcompleted, hgate]
    rfl
  · exact hs.reader.trans hs.write.symm
  · intro tid _ hl
    dsimp only at hl
    rw [hleft] at hl
    cases hl
  · dsimp only
    rw [hdone, hleft]
    exact (List.countP_false ▸ rfl : 0 = (List.range node.threads).countP fun _ => false)
  · refine .inl ⟨hcompleted, hpolled, .inl ⟨?_, hempty⟩⟩
    show s.threadsDone < node.threads
    rw [hdone]
    exact node.threads_pos

/-- **The shards of a subchunk are queued.** -/
theorem Inv.submitShards (h : Inv node s) (hrange : s.rangeSubmitted = false)
    (hlt : s.next < node.numSubchunks) {bytes : ℕ} (hbytes : 0 < bytes) :
    Inv node { s with
      next := s.next + 1
      outstanding := Function.update s.outstanding s.next (node.shards bytes).length
      remaining := Function.update s.remaining s.next (node.numShards bytes) } := by
  have hs := h.single hrange
  have hnotin := subchunk_not_mem hs (le_refl _)
  have hlength : (node.shards bytes).length = node.numShards bytes := Node.shards_length hbytes
  have hpos : 0 < node.numShards bytes := Node.numShards_pos
  refine ⟨hlt, h.tracks, h.rest, fun _ => ?_, fun hr => ?_⟩
  · refine ⟨hs.write, hs.reader, ?_, ?_, ?_, hs.nodup, ?_, hs.untouched⟩
    · intro q hq
      change s.next + 1 ≤ q at hq
      refine ⟨(hs.ahead q (by omega)).1, ?_⟩
      exact (Function.update_of_ne (by omega) _ _).trans (hs.ahead q (by omega)).2
    · intro q hq
      change q < s.next + 1 at hq
      by_cases hqn : q = s.next
      · subst hqn
        refine .inr ⟨(hs.ahead _ (le_refl _)).1, .inl ⟨?_, hnotin⟩⟩
        show 0 < Function.update s.outstanding s.next _ s.next
        rw [Function.update_self, hlength]
        exact hpos
      · exact (hs.accounted q (by omega)).congr rfl (Function.update_of_ne hqn _ _) Iff.rfl
    · intro q hq
      change 0 < Function.update s.outstanding s.next _ q at hq
      show Function.update s.remaining s.next _ q = Function.update s.outstanding s.next _ q
      by_cases hqn : q = s.next
      · rw [hqn, Function.update_self, Function.update_self, hlength]
      · rw [Function.update_of_ne hqn] at hq
        rw [Function.update_of_ne hqn, Function.update_of_ne hqn]
        exact hs.remaining q hq
    · intro c hc
      obtain ⟨q, hq, rfl⟩ := hs.queued c hc
      exact ⟨q, Nat.lt_succ_of_lt hq, rfl⟩
  · change s.rangeSubmitted = true at hr
    rw [hrange] at hr
    cases hr

/-- The ways to submit a subchunk. -/
theorem submit_cases (hstep : submit node s = some s') : s.next < node.numSubchunks ∧
    (direct node s = true ∧ s' = s.publishDirect ∨
      s.rangeSubmitted = false ∧ s.next = 0 ∧
        s' = { s with rangeSubmitted := true, next := node.numSubchunks } ∨
      direct node s = false ∧ ∃ bytes, 0 < bytes ∧ s' = { s with
        next := s.next + 1
        outstanding := Function.update s.outstanding s.next (node.shards bytes).length
        remaining := Function.update s.remaining s.next (node.numShards bytes) }) := by
  unfold submit at hstep
  split at hstep
  · cases hstep
  · rename_i hlt
    refine ⟨by omega, ?_⟩
    unfold direct
    split at hstep
    · rename_i hskip
      cases hstep
      exact .inl ⟨by rw [hskip]; rfl, rfl⟩
    · rename_i hskip
      split at hstep
      · rename_i hzero
        cases hstep
        exact .inl ⟨by simp [hzero], rfl⟩
      · rename_i hpos
        split at hstep
        · rename_i htakes
          cases hstep
          unfold takesRange at htakes
          simp only [Bool.and_eq_true, Bool.not_eq_true', beq_iff_eq] at htakes
          exact .inr (.inl ⟨htakes.1.2, htakes.2, rfl⟩)
        · rename_i htakes
          split at hstep
          · rename_i hsame
            cases hstep
            exact .inl ⟨by simp [htakes, hsame], rfl⟩
          · rename_i hdiffer
            cases hstep
            refine .inr (.inr ⟨?_, _, Nat.pos_of_ne_zero hpos, rfl⟩)
            simp [hskip, hpos, hdiffer]

/-- In a range there is nothing left to submit. -/
theorem Inv.single_of_next (h : Inv node s) (hlt : s.next < node.numSubchunks) :
    s.rangeSubmitted = false := by
  cases hrange : s.rangeSubmitted with
  | false => rfl
  | true =>
    rw [(h.ranged hrange).next] at hlt
    exact absurd hlt (lt_irrefl _)

theorem Inv.submit (h : Inv node s) (hguard : inOrder node s .submit = true)
    (hstep : H2HCompletion.submit node s = some s') : Inv node s' := by
  obtain ⟨hlt, hcases⟩ := submit_cases hstep
  have hrange := h.single_of_next hlt
  rcases hcases with ⟨hdirect, rfl⟩ | ⟨-, hzero, rfl⟩ | ⟨-, bytes, hbytes, rfl⟩
  · unfold inOrder at hguard
    rw [hdirect, Bool.not_true, Bool.false_or, beq_iff_eq] at hguard
    exact h.publishDirect hrange hlt hguard
  · exact h.submitRange hrange hzero
  · exact h.submitShards hrange hlt hbytes

/-! ## Copying and polling the subchunks -/

/-- **A shard is copied;** the last one of a subchunk queues the completion. -/
theorem Inv.shard (h : Inv node s) (hstep : H2HCompletion.shard s sc = some s') : Inv node s' := by
  unfold H2HCompletion.shard at hstep
  split at hstep
  · cases hstep
  · rename_i hout
    cases hstep
    have hrange : s.rangeSubmitted = false := by
      cases hr : s.rangeSubmitted with
      | false => rfl
      | true => exact absurd ((h.ranged hr).outstanding sc) hout
    have hs := h.single hrange
    have hpos : 0 < s.outstanding sc := Nat.pos_of_ne_zero hout
    have hlt : sc < s.next := by
      by_contra hge
      exact hout (hs.ahead sc (by omega)).2
    have hremaining := hs.remaining sc hpos
    obtain ⟨hpolled, hnotin⟩ : s.polled sc = false ∧ .subchunk sc ∉ s.completions := by
      rcases hs.accounted sc hlt with ⟨-, hzero, -⟩ | ⟨hpolled, ⟨-, hnotin⟩ | ⟨hzero, -⟩⟩
      · exact absurd hzero hout
      · exact ⟨hpolled, hnotin⟩
      · exact absurd hzero hout
    refine ⟨h.next_le, h.tracks, h.rest, fun _ => ?_, fun hr => ?_⟩
    · refine ⟨hs.write, hs.reader, ?_, ?_, ?_, ?_, ?_, hs.untouched⟩
      · intro q hq
        change s.next ≤ q at hq
        have hqs : q ≠ sc := by omega
        exact ⟨(hs.ahead q hq).1, (Function.update_of_ne hqs _ _).trans (hs.ahead q hq).2⟩
      · intro q hq
        by_cases hqs : q = sc
        · subst hqs
          refine .inr ⟨hpolled, ?_⟩
          dsimp only
          rw [Function.update_self]
          by_cases hone : s.remaining q = 1
          · rw [if_pos hone]
            exact .inr ⟨by omega, List.mem_append_right _ List.mem_cons_self⟩
          · rw [if_neg hone]
            exact .inl ⟨by omega, hnotin⟩
        · refine (hs.accounted q hq).congr rfl (Function.update_of_ne hqs _ _) ?_
          dsimp only
          split
          · simp [hqs]
          · exact Iff.rfl
      · intro q hq
        change 0 < Function.update s.outstanding sc _ q at hq
        show Function.update s.remaining sc _ q = Function.update s.outstanding sc _ q
        by_cases hqs : q = sc
        · rw [hqs, Function.update_self, Function.update_self, hremaining]
        · rw [Function.update_of_ne hqs] at hq
          rw [Function.update_of_ne hqs, Function.update_of_ne hqs]
          exact hs.remaining q hq
      · dsimp only
        split
        · refine List.Nodup.append hs.nodup (List.nodup_singleton _) ?_
          rw [List.disjoint_singleton]
          exact hnotin
        · exact hs.nodup
      · intro c hc
        dsimp only at hc
        split at hc
        · rcases List.mem_append.1 hc with hold | hnew
          · exact hs.queued c hold
          · exact ⟨sc, hlt, List.mem_singleton.1 hnew⟩
        · exact hs.queued c hc
    · change s.rangeSubmitted = true at hr
      rw [hrange] at hr
      cases hr

/-- The cursors are at the counter. -/
theorem eq_with_cursors (hwrite : s.write = s.completed) (hreader : s.reader = s.completed) :
    s = { s with
      pending := s.pending, completed := s.completed, write := s.completed
      reader := s.completed } := by
  obtain ⟨next, completed, pending, rangeSubmitted, write, reader, outstanding, remaining,
    completions, gate, copied, left, threadsDone, polled⟩ := s
  dsimp only at hwrite hreader ⊢
  subst hwrite
  subst hreader
  rfl

/-- **The loop publishes** up to the first gap. -/
theorem drain_spec (n fuel : ℕ) (s : State) (htracks : Tracks n s.polled s.pending s.completed)
    (hfuel : s.completed + fuel = n) (hwrite : s.write = s.completed)
    (hreader : s.reader = s.completed) :
    ∃ pending completed, s.drain fuel = { s with
        pending := pending, completed := completed, write := completed, reader := completed } ∧
      Tracks n s.polled pending completed ∧ (completed < n → pending completed = false) := by
  induction fuel generalizing s with
  | zero =>
    exact ⟨s.pending, s.completed, eq_with_cursors hwrite hreader, htracks,
      fun hlt => absurd hlt (by omega)⟩
  | succ fuel ih =>
    unfold State.drain
    by_cases hparked : s.pending s.completed = true
    · rw [if_pos hparked]
      have hpub : s.publishOldest.write = s.completed + 1 ∧
          s.publishOldest.reader = s.completed + 1 := by
        constructor
        · show max s.write (s.completed + 1) = s.completed + 1
          omega
        · show max s.reader (s.completed + 1) = s.completed + 1
          omega
      obtain ⟨pending, completed, heq, hspec⟩ := ih s.publishOldest
        (htracks.take (by omega) hparked) (by show s.completed + 1 + fuel = n; omega) hpub.1 hpub.2
      exact ⟨pending, completed, heq, hspec⟩
    · rw [if_neg hparked]
      exact ⟨s.pending, s.completed, eq_with_cursors hwrite hreader, htracks,
        fun _ => Bool.eq_false_iff.2 hparked⟩

/-- **The oldest completion is polled.** -/
theorem Inv.poll (h : Inv node s) (hguard : inOrder node s .poll = true)
    (hstep : H2HCompletion.poll node s = some s') : Inv node s' := by
  unfold H2HCompletion.poll at hstep
  split at hstep
  · cases hstep
  · -- the range is complete
    rename_i rest hqueue
    cases hstep
    have hrange : s.rangeSubmitted = true := by
      cases hr : s.rangeSubmitted with
      | true => rfl
      | false =>
        obtain ⟨q, -, heq⟩ := (h.single hr).queued .range (by rw [hqueue]; exact List.mem_cons_self)
        cases heq
    have hr := h.ranged hrange
    obtain ⟨hdone, hrest⟩ : s.threadsDone = node.threads ∧ rest = [] := by
      rcases hr.phase with ⟨-, -, ⟨-, hempty⟩ | ⟨hdone, hone⟩⟩ | ⟨-, -, -, hempty, -⟩
      · rw [hqueue] at hempty
        cases hempty
      · rw [hqueue] at hone
        exact ⟨hdone, (List.cons.inj hone).2⟩
      · rw [hqueue] at hempty
        cases hempty
    have hbytes : ∀ q < node.numSubchunks, 0 < node.subchunkSize q := by
      unfold inOrder at hguard
      rw [hqueue, List.head?_cons, bne_self_eq_false, Bool.false_or, List.all_eq_true] at hguard
      exact fun q hq => of_decide_eq_true (hguard q (List.mem_range.2 hq))
    have hwrite := hr.write_of_left hdone hbytes
    have hpending : ∀ q < node.numSubchunks, s.pending q = false := by
      intro q hq
      rw [h.tracks.parked q hq]
      rcases hr.phase with ⟨-, hnone, -⟩ | ⟨-, -, -, hempty, -⟩
      · rw [hnone q, Bool.false_and]
      · rw [hqueue] at hempty
        cases hempty
    refine ⟨le_refl _, ⟨le_refl _, fun q hq => decide_eq_true hq, ?_⟩, fun hlt =>
      absurd hlt (lt_irrefl _), fun hfalse => ?_, fun _ => ?_⟩
    · intro q hq
      rw [hpending q hq, decide_eq_false (Nat.not_le.2 hq), Bool.and_false]
    · change s.rangeSubmitted = false at hfalse
      rw [hrange] at hfalse
      cases hfalse
    · exact ⟨rfl, hr.outstanding, hr.gate, hr.copied, hr.meets, hr.carried, hr.raising, hr.level,
        hr.reader, hr.left, hr.count,
        .inr ⟨rfl, fun q hq => decide_eq_true hq, hdone, hrest, hwrite⟩⟩
  · -- a subchunk is complete
    rename_i q rest hqueue
    have hrange : s.rangeSubmitted = false := by
      cases hr : s.rangeSubmitted with
      | false => rfl
      | true =>
        rcases (h.ranged hr).phase with ⟨-, -, ⟨-, hempty⟩ | ⟨-, hone⟩⟩ | ⟨-, -, -, hempty, -⟩
        · rw [hqueue] at hempty
          cases hempty
        · rw [hqueue] at hone
          cases hone
        · rw [hqueue] at hempty
          cases hempty
    have hs := h.single hrange
    have hin : .subchunk q ∈ s.completions := by
      rw [hqueue]
      exact List.mem_cons_self
    have hlt : q < s.next := by
      by_contra hge
      exact subchunk_not_mem hs (by omega) hin
    obtain ⟨hpolled, hout⟩ : s.polled q = false ∧ s.outstanding q = 0 := by
      rcases hs.accounted q hlt with ⟨-, -, hnotin⟩ | ⟨hpolled, ⟨-, hnotin⟩ | ⟨hout, -⟩⟩
      · exact absurd hin hnotin
      · exact absurd hin hnotin
      · exact ⟨hpolled, hout⟩
    have hnodup := hs.nodup
    rw [hqueue, List.nodup_cons] at hnodup
    have hmem : ∀ p, p ≠ q → (.subchunk p ∈ rest ↔ .subchunk p ∈ s.completions) := by
      intro p hp
      rw [hqueue, List.mem_cons]
      exact ⟨.inr, fun hor => hor.resolve_left fun heq => hp (Completion.subchunk.inj heq)⟩
    rw [if_pos (hlt.trans_le h.next_le)] at hstep
    cases hstep
    have hge : s.completed ≤ q := by
      by_contra hbelow
      rw [h.tracks.below q (by omega)] at hpolled
      cases hpolled
    obtain ⟨pending, completed, heq, htracks, hrest⟩ := drain_spec node.numSubchunks
      (node.numSubchunks - s.completed) { s with
        completions := rest
        pending := Function.update s.pending q true
        polled := Function.update s.polled q true }
      (h.tracks.mark hge) (Nat.add_sub_cancel' h.tracks.le) hs.write hs.reader
    rw [heq]
    refine ⟨h.next_le, htracks, hrest, fun _ => ?_, fun hr => ?_⟩
    · refine ⟨rfl, rfl, ?_, ?_, hs.remaining, hnodup.2, ?_, hs.untouched⟩
      · intro p hp
        change s.next ≤ p at hp
        exact ⟨(Function.update_of_ne (by omega) _ _).trans (hs.ahead p hp).1, (hs.ahead p hp).2⟩
      · intro p hp
        by_cases hpq : p = q
        · subst hpq
          exact .inl ⟨Function.update_self _ _ _, hout, hnodup.1⟩
        · exact (hs.accounted p hp).congr (Function.update_of_ne hpq _ _) rfl (hmem p hpq)
      · intro c hc
        exact hs.queued c (by rw [hqueue]; exact List.mem_cons_of_mem _ hc)
    · change s.rangeSubmitted = true at hr
      rw [hrange] at hr
      cases hr

/-! ## The threads of a range -/

/-- What a thread at the head of the loop has behind it. -/
theorem atLoop_iff : atLoop node s tid = true ↔ s.rangeSubmitted = true ∧ tid < node.threads ∧
    s.left tid = false ∧ s.gate.place tid = .outside ∧ s.gate.passed tid = s.copied tid := by
  unfold atLoop
  simp only [Bool.and_eq_true, decide_eq_true_eq, Bool.not_eq_true', beq_iff_eq, and_assoc]

theorem Inv.of_ranged (h : Inv node s) (hnext : s'.next = s.next)
    (hcompleted : s'.completed = s.completed) (hpending : s'.pending = s.pending)
    (hpolled : s'.polled = s.polled) (hrange : s'.rangeSubmitted = true)
    (hr : Ranged node s') : Inv node s' := by
  refine ⟨hnext ▸ h.next_le, ?_, ?_, fun hfalse => ?_, fun _ => hr⟩
  · rw [hpolled, hpending, hcompleted]
    exact h.tracks
  · rw [hpending, hcompleted]
    exact h.rest
  · rw [hrange] at hfalse
    cases hfalse

/-- **A thread copies its part of a subchunk.** -/
theorem Inv.copy (h : Inv node s) (hstep : H2HCompletion.copy node s tid = some s') :
    Inv node s' := by
  unfold H2HCompletion.copy at hstep
  split at hstep
  · rename_i hcond
    cases hstep
    obtain ⟨hrange, htid, hleft, hplace, hpassed⟩ := atLoop_iff.1 hcond.1
    have hr := h.ranged hrange
    refine h.of_ranged rfl rfl rfl rfl hrange ?_
    have hself : Function.update s.copied tid (s.copied tid + 1) tid = s.copied tid + 1 :=
      Function.update_self _ _ _
    refine ⟨hr.next, hr.outstanding, hr.gate, ?_, ?_, ?_, hr.raising, hr.level, hr.reader, ?_,
      hr.count, hr.phase⟩
    · intro q hq
      dsimp only
      by_cases hqt : q = tid
      · subst hqt
        rw [hself, hpassed]
        exact .inr rfl
      · rw [Function.update_of_ne hqt]
        exact hr.copied q hq
    · intro q hq hin
      dsimp only at hin ⊢
      have hqt : q ≠ tid := by
        rintro rfl
        exact hin hplace
      rw [Function.update_of_ne hqt]
      exact hr.meets q hq hin
    · intro q hq sc hsc
      dsimp only at hsc
      by_cases hqt : q = tid
      · subst hqt
        rw [hself] at hsc
        rcases Nat.lt_succ_iff_lt_or_eq.1 hsc with hlt | rfl
        · exact hr.carried q hq sc hlt
        · exact hcond.2
      · rw [Function.update_of_ne hqt] at hsc
        exact hr.carried q hq sc hsc
    · intro q hq hl
      dsimp only at hl ⊢
      have hqt : q ≠ tid := by
        rintro rfl
        rw [hleft] at hl
        cases hl
      rw [Function.update_of_ne hqt]
      exact hr.left q hq hl
  · cases hstep

/-- **A thread leaves the loop;** the last one queues the completion. -/
theorem Inv.leave (h : Inv node s) (hstep : H2HCompletion.leave node s tid = some s') :
    Inv node s' := by
  unfold H2HCompletion.leave at hstep
  split at hstep
  · rename_i hcond
    cases hstep
    obtain ⟨hrange, htid, hleft, hplace, hpassed⟩ := atLoop_iff.1 hcond.1
    have hr := h.ranged hrange
    refine h.of_ranged rfl rfl rfl rfl hrange ?_
    have hcount : (List.range node.threads).countP (Function.update s.left tid true) =
        s.threadsDone + 1 := by
      rw [countP_range_set htid hleft (Function.update_self _ _ _)
        (fun q hq => Function.update_of_ne hq _ _), hr.count]
    have hle : s.threadsDone + 1 ≤ node.threads := hcount ▸ countP_range_le
    refine ⟨hr.next, hr.outstanding, hr.gate, hr.copied, hr.meets, hr.carried, hr.raising, hr.level,
      hr.reader, ?_, hcount.symm, ?_⟩
    · intro q hq hl
      dsimp only at hl ⊢
      by_cases hqt : q = tid
      · subst hqt
        exact ⟨hplace, hpassed, Bool.eq_false_iff.2 hcond.2⟩
      · rw [Function.update_of_ne hqt] at hl
        exact hr.left q hq hl
    · rcases hr.phase with ⟨hzero, hnone, ⟨-, hempty⟩ | ⟨hdone, -⟩⟩ | ⟨-, -, hdone, -⟩
      · refine .inl ⟨hzero, hnone, ?_⟩
        dsimp only
        rw [hempty]
        by_cases hlast : s.threadsDone + 1 = node.threads
        · rw [if_pos hlast]
          exact .inr ⟨hlast, rfl⟩
        · rw [if_neg hlast]
          exact .inl ⟨by omega, rfl⟩
      · omega
      · omega
  · cases hstep

/-- The write cursor and the barrier, after a step of a thread. -/
theorem Ranged.gate_write (h : Ranged node s) (htid : tid < node.threads)
    (hcopied : s.copied tid = s.gate.passed tid + 1) {gate : Gate.State}
    (hgate : Gate.step node.threads s.gate tid = some gate) {write : ℕ}
    (hwrite : write = if Place.isResetting (s.gate.place tid) then max s.write (s.copied tid)
      else s.write) :
    (∀ q < node.threads, ∀ g, gate.place q = .raising g → write = gate.generation + 1) ∧
      ((∀ q < node.threads, ∀ g, gate.place q ≠ .raising g) → write = gate.generation) := by
  have hlevel := h.gate.level tid htid
  have hothers := (Gate.step_cases hgate).1
  -- the others wait while a thread resets the count or opens the barrier
  have hwaiting : (s.gate.place tid).closes = true → ∀ q < node.threads, q ≠ tid →
      ∀ g, s.gate.place q ≠ .raising g := by
    intro hcloses q hq hqt g
    rw [h.gate.last tid htid hcloses q hq hqt]
    exact nofun
  -- a step that is not about opening leaves the cursor and the generation alone
  have hplain : (∀ g, s.gate.place tid ≠ .raising g) → (∀ g, gate.place tid ≠ .raising g) →
      gate.generation = s.gate.generation → write = s.write →
      (∀ q < node.threads, ∀ g, gate.place q = .raising g → write = gate.generation + 1) ∧
        ((∀ q < node.threads, ∀ g, gate.place q ≠ .raising g) → write = gate.generation) := by
    intro hno hno' hgen hsame
    rw [hgen, hsame]
    constructor
    · intro q hq g hplace
      have hqt : q ≠ tid := by
        rintro rfl
        exact hno' g hplace
      rw [(hothers q hqt).1] at hplace
      exact h.raising q hq g hplace
    · intro hnone
      refine h.level fun q hq g hplace => ?_
      by_cases hqt : q = tid
      · exact hno g (hqt ▸ hplace)
      · exact hnone q hq g ((hothers q hqt).1.trans hplace)
  unfold Gate.step at hgate
  cases hst : s.gate.place tid with
  | outside =>
    rw [hst] at hgate hwrite
    cases hgate
    refine hplain (by rw [hst]; exact nofun) ?_ rfl hwrite
    intro g
    rw [Gate.State.goto_self]
    exact nofun
  | loaded g =>
    rw [hst] at hgate hwrite
    cases hgate
    refine hplain (by rw [hst]; exact nofun) ?_ rfl hwrite
    intro g'
    show (s.gate.goto tid _).place tid ≠ .raising g'
    rw [Gate.State.goto_self]
    split <;> exact nofun
  | resetting g =>
    rw [hst] at hgate hwrite hlevel
    cases hgate
    have hbefore : s.write = s.gate.generation := by
      refine h.level fun q hq g' => ?_
      by_cases hqt : q = tid
      · rw [hqt, hst]
        exact nofun
      · exact hwaiting (by rw [hst]; rfl) q hq hqt g'
    have hpassed : s.gate.passed tid = s.gate.generation := (Nat.zero_add _).symm.trans hlevel
    have hnow : write = s.gate.generation + 1 := by
      rw [hwrite]
      show max s.write (s.copied tid) = _
      omega
    refine ⟨fun _ _ _ _ => hnow, fun hnone => absurd ?_ (hnone tid htid g)⟩
    exact Gate.State.goto_self _ _ _
  | raising g =>
    rw [hst] at hgate hwrite
    cases hgate
    have hown := h.gate.own tid htid g (.inr (.inr hst))
    have hsame : write = s.write := hwrite
    refine ⟨?_, fun _ => ?_⟩
    · intro q hq g' hplace
      by_cases hqt : q = tid
      · subst hqt
        change (s.gate.pass q).place q = _ at hplace
        rw [Gate.State.pass_self] at hplace
        cases hplace
      · refine absurd ?_ (hwaiting (by rw [hst]; rfl) q hq hqt g')
        exact (Gate.State.pass_ne _ hqt).symm.trans hplace
    · rw [hsame, h.raising tid htid g hst, hown]
  | waiting g =>
    rw [hst] at hgate hwrite
    by_cases hg : g < s.gate.generation
    · simp only [hg, if_true, Option.some.injEq] at hgate
      subst hgate
      refine hplain (by rw [hst]; exact nofun) ?_ rfl hwrite
      intro g'
      rw [Gate.State.pass_self]
      exact nofun
    · simp only [hg, if_false] at hgate
      cases hgate

/-- **A thread goes on in the barrier.** -/
theorem Inv.gateStep (h : Inv node s) (hstep : H2HCompletion.gateStep node s tid = some s') :
    Inv node s' := by
  unfold H2HCompletion.gateStep at hstep
  split at hstep
  · rename_i hcond
    obtain ⟨hrange, htid, hbehind⟩ := hcond
    obtain ⟨gate, hgate, rfl⟩ := Option.map_eq_some_iff.1 hstep
    have hr := h.ranged hrange
    have hcopied : s.copied tid = s.gate.passed tid + 1 := by
      rcases hr.copied tid htid with heq | heq
      · omega
      · exact heq
    have hleft : s.left tid ≠ true := by
      intro hl
      have hsame := (hr.left tid htid hl).2.1
      omega
    obtain ⟨hothers, hself⟩ := Gate.step_cases hgate
    -- only the cursors depend on whether the thread publishes
    obtain ⟨write, reader, hwrite, hreader, hstate⟩ : ∃ write reader,
        (write = if Place.isResetting (s.gate.place tid) then max s.write (s.copied tid)
          else s.write) ∧ reader = write ∧
        { (if Place.isResetting (s.gate.place tid) then s.publish (s.copied tid) else s) with
          gate := gate } = { s with write := write, reader := reader, gate := gate } := by
      have hsame := hr.reader
      by_cases hreset : Place.isResetting (s.gate.place tid) = true
      · rw [if_pos hreset, if_pos hreset]
        refine ⟨_, _, rfl, ?_, rfl⟩
        show max s.reader _ = max s.write _
        rw [hsame]
      · rw [if_neg hreset, if_neg hreset]
        exact ⟨_, _, rfl, hsame, rfl⟩
    rw [hstate]
    refine h.of_ranged rfl rfl rfl rfl hrange ?_
    obtain ⟨hraising, hlevel⟩ := hr.gate_write htid hcopied hgate hwrite
    refine ⟨hr.next, hr.outstanding, hr.gate.step htid hgate, ?_, ?_, hr.carried, hraising, hlevel,
      hreader, ?_, hr.count, ?_⟩
    · intro q hq
      dsimp only
      by_cases hqt : q = tid
      · subst hqt
        rcases hself with ⟨-, hpass⟩ | ⟨-, hpass, -⟩ <;> omega
      · rw [(hothers q hqt).2]
        exact hr.copied q hq
    · intro q hq hin
      dsimp only at hin ⊢
      by_cases hqt : q = tid
      · subst hqt
        rcases hself with ⟨-, hpass⟩ | ⟨hout, -⟩
        · rw [hpass]
          exact hcopied
        · exact absurd hout hin
      · rw [(hothers q hqt).1] at hin
        rw [(hothers q hqt).2]
        exact hr.meets q hq hin
    · intro q hq hl
      dsimp only at hl ⊢
      have hqt : q ≠ tid := by
        rintro rfl
        exact hleft hl
      rw [(hothers q hqt).1, (hothers q hqt).2]
      exact hr.left q hq hl
    · rcases hr.phase with hbefore | ⟨-, -, hdone, -⟩
      · exact .inl hbefore
      · exact absurd (hr.left_all hdone tid htid) hleft
  · cases hstep

theorem Inv.step (h : Inv node s) {l : Label} (hguard : inOrder node s l = true)
    (hstep : H2HCompletion.step node s l = some s') : Inv node s' := by
  cases l with
  | submit => exact h.submit hguard hstep
  | shard sc => exact h.shard hstep
  | poll => exact h.poll hguard hstep
  | copy tid => exact h.copy hstep
  | gate tid => exact h.gateStep hstep
  | leave tid => exact h.leave hstep

/-! ## Every run -/

/-- **A step against the condition** breaks the property. -/
theorem Inv.inOrder_of_good (h : Inv node s) {l : Label}
    (hstep : H2HCompletion.step node s l = some s') (hgood : Good node s') :
    inOrder node s l = true := by
  cases l with
  | shard | copy | gate | leave => rfl
  | submit =>
    by_contra hguard
    unfold inOrder at hguard
    rw [Bool.not_eq_true, Bool.or_eq_false_iff, Bool.not_eq_false', beq_eq_false_iff_ne] at hguard
    obtain ⟨hdirect, hne⟩ := hguard
    obtain ⟨hlt, hcases⟩ := submit_cases hstep
    have hrange := h.single_of_next hlt
    have hs := h.single hrange
    -- there is an unpublished subchunk below the one that is published
    have hbehind : s.completed < s.next := by
      by_contra hge
      have hbelow := h.tracks.below s.next (by omega)
      rw [(hs.ahead s.next (le_refl _)).1] at hbelow
      cases hbelow
    have hgap : s.polled s.completed = false := by
      have hparked := h.tracks.parked s.completed (hbehind.trans hlt)
      rw [h.rest (hbehind.trans hlt), decide_eq_true (le_refl _), Bool.and_true] at hparked
      exact hparked.symm
    rcases hcases with ⟨-, rfl⟩ | ⟨-, hzero, -⟩ | ⟨hindirect, -⟩
    · have hcounter : s.completed + 1 =
          prefixLength node.numSubchunks (Function.update s.polled s.next true) := hgood.counter
      have hle := prefixLength_le_of_gap (n := node.numSubchunks)
        (k := s.completed) (show Function.update s.polled s.next true s.completed = false by rw [Function.update_of_ne hbehind.ne]; exact hgap)
      omega
    · omega
    · rw [hdirect] at hindirect
      cases hindirect
  | poll =>
    by_contra hguard
    unfold inOrder at hguard
    rw [Bool.not_eq_true, Bool.or_eq_false_iff, bne_eq_false_iff_eq, ← Bool.not_eq_true,
      List.all_eq_true] at hguard
    obtain ⟨hhead, hempty⟩ := hguard
    obtain ⟨rest, hqueue⟩ := List.head?_eq_some_iff.1 hhead
    simp only [H2HCompletion.step, H2HCompletion.poll, hqueue] at hstep
    cases hstep
    have hrange : s.rangeSubmitted = true := by
      cases hr : s.rangeSubmitted with
      | true => rfl
      | false =>
        obtain ⟨q, -, heq⟩ := (h.single hr).queued .range (by rw [hqueue]; exact List.mem_cons_self)
        cases heq
    have hall := hgood.write.1
    rw [prefixLength_all fun q hq => decide_eq_true hq] at hall
    apply hempty
    intro q hq
    have hcopied := (h.ranged hrange).write_le_copied node.threads_pos
    have hcarries := (h.ranged hrange).carried 0 node.threads_pos q
      ((List.mem_range.1 hq).trans_le (le_trans hall hcopied))
    exact decide_eq_true (of_decide_eq_true hcarries).2

/-- One worker; the second subchunk has `bytes`. -/
def twoSubchunks (bytes : ℕ) (range : Bool) : Node where
  numSubchunks := 2
  workBytes := sliceSize + bytes
  skipDma := false
  range := range
  sameAddress := fun _ => false
  workers := 1
  workers_pos := Nat.one_pos
  workers_le := by decide
  shardBytes := 131072
  threads := 1
  threads_pos := Nat.one_pos

/-- The second subchunk is copied first. -/
def secondFirst : List Label := [.submit, .submit, .shard 1, .poll, .shard 0, .poll]

/-- The second subchunk has no bytes: it is published at once, and counts for the first. -/
def emptySecond : List Label := [.submit, .submit, .shard 0, .poll]

/-- One thread copies the first subchunk, and the range is complete. -/
def shortRange : List Label :=
  [.submit, .copy 0, .gate 0, .gate 0, .gate 0, .gate 0, .leave 0, .poll]

end H2HCompletion
end Ascend
end HyLink
