import Mathlib.Data.Finset.Card
import HyLink.Theory.Cutting

/-!
# Groups of calls

Between `ncclGroupStart` and the outermost `ncclGroupEnd` the collective calls of a thread are
recorded; the end runs them in waves, one thread for each call of a wave, and a wave begins when
all threads of the one before have returned.  A wave takes neighbouring calls with equal arguments
and communicators of one size, of no two equal ranks.

* `groupWaves_eq` — the waves are the cut of the recorded calls where a call clashes.
* `WaitsFor` — a submission waits for other ranks of its communicator.
* `group_ok_iff` — when a group runs as its calls say.
* `group_waits_for_later` — two communicators whose calls alternate.
-/

namespace HyLink
namespace Api
namespace Group

open Theory

inductive OpType
  | allReduce
  | allGather
  | reduceScatter
  | broadcast
  deriving DecidableEq, Repr

/-- An `ncclComm_t`: a rank of a communicator. -/
structure Comm where
  /-- Which communicator it is. -/
  communicator : ℕ
  rank : ℕ
  size : ℕ
  rank_lt : rank < size
  deriving DecidableEq

/-- `NcclCompatPendingOp`, without the buffers, the stream and the device. -/
structure PendingOp where
  type : OpType
  count : UInt64
  /-- `ncclDataType_t` -/
  datatype : ℕ
  /-- `ncclRedOp_t` -/
  op : ℕ
  root : ℤ
  comm : Comm
  deriving DecidableEq

/-- A call of the thread; a call that is refused for its arguments has no effect. -/
inductive ApiCall
  | groupStart
  | groupEnd
  | collective (op : PendingOp)
  deriving DecidableEq

/-- What is executed: a call by itself, or the calls of a wave at the same time. -/
inductive Event
  | single (op : PendingOp)
  | wave (ops : List PendingOp)

def Event.ops : Event → List PendingOp
  | .single op => [op]
  | .wave ops => ops

/-! ## The waves -/

def opWaveCompatible (first next : PendingOp) : Bool :=
  first.type == next.type && first.count == next.count && first.datatype == next.datatype &&
    first.op == next.op && first.root == next.root

/-- `starts_next_wave`, for a wave with the ranks `wave_ranks` and the size `wave_comm_size` of its
first call. -/
def startsNextWave (wave : List PendingOp) (next : PendingOp) : Bool :=
  match wave.head? with
  | none => false
  | some first =>
    let waveRanks := wave.map fun op => op.comm.rank
    let waveCommSize := first.comm.size
    !opWaveCompatible first next || next.comm.size != waveCommSize ||
      waveRanks.contains next.comm.rank || decide (waveCommSize ≤ waveRanks.dedup.length)

/-- The loop of `ncclGroupEnd`. -/
def waveLoop : List PendingOp → List PendingOp → List (List PendingOp)
  | wave, [] => [wave]
  | wave, next :: ops =>
    if startsNextWave wave next then wave :: waveLoop [next] ops else waveLoop (wave ++ [next]) ops

def groupWaves : List PendingOp → List (List PendingOp)
  | [] => []
  | first :: ops => waveLoop [first] ops

/-- Run the waves until a call of one fails; `succeeds` is for the recorded calls by number, and
`i` the number of the next. -/
def runWaves (succeeds : ℕ → Bool) : ℕ → List (List PendingOp) → List (List PendingOp)
  | _, [] => []
  | i, wave :: waves =>
    wave :: if (List.range wave.length).all fun k => succeeds (i + k) then
      runWaves succeeds (i + wave.length) waves else []

/-! ## The calls -/

/-- The thread-local state. -/
structure GroupState where
  active : Bool
  depth : ℕ
  ops : List PendingOp

/-- No group is open. -/
def GroupState.idle : GroupState := ⟨false, 0, []⟩

/-- The calls that look at the size of the communicator before they look for a group. -/
def runsAtOnce (op : PendingOp) : Bool :=
  (op.type == .allGather || op.type == .reduceScatter) && op.comm.size == 1

def apiStep (succeeds : ℕ → Bool) (s : GroupState) : ApiCall → GroupState × List Event
  | .groupStart =>
    (if s.depth = 0 then ⟨true, 1, []⟩ else { s with depth := s.depth + 1 }, [])
  | .groupEnd =>
    if s.active = false ∨ s.depth = 0 then (s, [])
    else if 0 < s.depth - 1 then ({ s with depth := s.depth - 1 }, [])
    else (⟨false, 0, []⟩, (runWaves succeeds 0 (groupWaves s.ops)).map .wave)
  | .collective op =>
    if runsAtOnce op then (s, [.single op])
    else if s.active then ({ s with ops := s.ops ++ [op] }, [])
    else (s, [.single op])

def apiRun (succeeds : ℕ → Bool) (s : GroupState) : List ApiCall → GroupState × List Event
  | [] => (s, [])
  | call :: calls =>
    let first := apiStep succeeds s call
    let rest := apiRun succeeds first.1 calls
    (rest.1, first.2 ++ rest.2)

/-- How many groups are open within the group after these calls; `none` where the group ends. -/
def nesting : ℕ → List ApiCall → Option ℕ
  | depth, [] => some depth
  | depth, .groupStart :: calls => nesting (depth + 1) calls
  | depth, .groupEnd :: calls => if depth = 0 then none else nesting (depth - 1) calls
  | depth, .collective _ :: calls => nesting depth calls

/-- The collective calls, in order. -/
def collectives (calls : List ApiCall) : List PendingOp :=
  calls.filterMap fun
    | .collective op => some op
    | _ => none

/-! ## What a group is for -/

/-- The number of earlier calls on the same communicator rank. -/
def ordinal (ops : List PendingOp) (i : ℕ) (comm : Comm) : ℕ :=
  (ops.take i).countP fun op => decide (op.comm = comm)

/-- The calls are those of two ranks for one collective of their communicator. -/
def Matching (ops : List PendingOp) (i j : ℕ) : Prop :=
  ∃ a b, ops[i]? = some a ∧ ops[j]? = some b ∧ a.comm.communicator = b.comm.communicator ∧
    a.comm ≠ b.comm ∧ ordinal ops i a.comm = ordinal ops j b.comm

/-- The submission of call `i` waits for the one of call `j`: it meets the other ranks at a barrier,
or its executor has a full queue, whose first item waits for the other ranks. -/
def WaitsFor (meets : PendingOp → Bool) (queueDepth : ℕ) (ops : List PendingOp) (i j : ℕ) : Prop :=
  ∃ a, ops[i]? = some a ∧
    (meets a = true ∧ Matching ops i j ∨
      ∃ k b, ops[k]? = some b ∧ b.comm = a.comm ∧
        ordinal ops k b.comm + queueDepth ≤ ordinal ops i a.comm ∧ Matching ops k j)

/-- The arguments that the ranks of a communicator pass alike. -/
def PendingOp.args (op : PendingOp) : OpType × UInt64 × ℕ × ℕ × ℤ :=
  (op.type, op.count, op.datatype, op.op, op.root)

/-- The ranks of a communicator make the same calls. -/
def SequencesMatch (ops : List PendingOp) : Prop :=
  ∀ a ∈ ops, ∀ b ∈ ops, a.comm.communicator = b.comm.communicator →
    (ops.filter fun op => decide (op.comm = a.comm)).map PendingOp.args =
      (ops.filter fun op => decide (op.comm = b.comm)).map PendingOp.args

/-- **A group that runs as its calls say.**  `body` are the calls in the group. -/
structure GroupOk (meets : PendingOp → Bool) (queueDepth : ℕ) (succeeds : ℕ → Bool)
    (body : List ApiCall) (events : List Event) : Prop where
  /-- Before the end of the group nothing is executed. -/
  deferred : (apiRun succeeds .idle (.groupStart :: body)).2 = []
  /-- Every call is executed once. -/
  once : (events.flatMap Event.ops).Perm (collectives body)
  /-- The calls on a communicator rank are executed one after the other, in their order. -/
  ordered : ∀ comm, (events.flatMap Event.ops).filter (fun op => decide (op.comm = comm)) =
      (collectives body).filter (fun op => decide (op.comm = comm)) ∧
    ∀ e ∈ events, e.ops.countP (fun op => decide (op.comm = comm)) ≤ 1
  /-- No call waits for one that is executed later. -/
  waits : ∀ i j, WaitsFor meets queueDepth (collectives body) i j →
    blockOf (events.map Event.ops) j ≤ blockOf (events.map Event.ops) i

/-- Two calls that no wave takes together. -/
def clash (a b : PendingOp) : Bool :=
  !opWaveCompatible a b || b.comm.size != a.comm.size || a.comm.rank == b.comm.rank

/-- The calls are a sequence of blocks of calls that do not clash, each ended by a call that does,
such that no call waits for one of a later block, and none fails but in the last. -/
structure WellCut (meets : PendingOp → Bool) (queueDepth : ℕ) (succeeds : ℕ → Bool)
    (ops : List PendingOp) (bs : List (List PendingOp)) : Prop where
  flatten : bs.flatten = ops
  blocks : Blocks clash bs
  succeeds : ∀ i < ops.length, succeeds i = false → blockOf bs i + 1 = bs.length
  waits : ∀ i j, WaitsFor meets queueDepth ops i j → blockOf bs j ≤ blockOf bs i

/-! ## The waves are blocks -/

variable {wave ops : List PendingOp} {next : PendingOp} {succeeds : ℕ → Bool}

theorem compatible_iff {a b : PendingOp} : opWaveCompatible a b = true ↔
    a.type = b.type ∧ a.count = b.count ∧ a.datatype = b.datatype ∧ a.op = b.op ∧ a.root = b.root := by
  simp [opWaveCompatible, and_assoc]

theorem clash_eq_false_iff {a b : PendingOp} : clash a b = false ↔
    opWaveCompatible a b = true ∧ b.comm.size = a.comm.size ∧ a.comm.rank ≠ b.comm.rank := by
  simp [clash, and_assoc]

/-- All calls of a wave have the arguments of the first, and a communicator of its size. -/
theorem like_first {first a : PendingOp} {rest : List PendingOp}
    (h : (first :: rest).Pairwise fun a b => clash a b = false) (ha : a ∈ first :: rest) :
    opWaveCompatible first a = true ∧ a.comm.size = first.comm.size := by
  rcases List.mem_cons.1 ha with rfl | ha
  · exact ⟨compatible_iff.2 ⟨rfl, rfl, rfl, rfl, rfl⟩, rfl⟩
  · obtain ⟨hcompatible, hsize, -⟩ := clash_eq_false_iff.1 ((List.pairwise_cons.1 h).1 a ha)
    exact ⟨hcompatible, hsize⟩

/-- A wave of as many calls as its communicator has ranks has a call of each rank. -/
theorem rank_mem_of_full {first : PendingOp} {rest : List PendingOp}
    (h : (first :: rest).Pairwise fun a b => clash a b = false)
    (hfull : first.comm.size ≤ ((first :: rest).map fun op => op.comm.rank).dedup.length) {r : ℕ}
    (hr : r < first.comm.size) : r ∈ (first :: rest).map fun op => op.comm.rank := by
  set ranks := (first :: rest).map fun op => op.comm.rank with hranks
  have hsub : ranks.toFinset ⊆ Finset.range first.comm.size := by
    intro q hq
    rw [List.mem_toFinset, hranks, List.mem_map] at hq
    obtain ⟨a, ha, rfl⟩ := hq
    rw [Finset.mem_range, ← (like_first h ha).2]
    exact a.comm.rank_lt
  have hall : ranks.toFinset = Finset.range first.comm.size := by
    apply Finset.eq_of_subset_of_card_le hsub
    rw [Finset.card_range, List.card_toFinset]
    exact hfull
  rw [← List.mem_toFinset, hall]
  exact Finset.mem_range.2 hr

/-- **A call begins the next wave** just if it clashes with a call of this one. -/
theorem startsNextWave_eq (hne : wave ≠ []) (h : wave.Pairwise fun a b => clash a b = false) :
    startsNextWave wave next = wave.any (clash · next) := by
  obtain ⟨first, rest, rfl⟩ := List.exists_cons_of_ne_nil hne
  rw [Bool.eq_iff_iff, List.any_eq_true]
  simp only [startsNextWave, List.head?_cons, Bool.or_eq_true, Bool.not_eq_true', bne_iff_ne, ne_eq,
    List.contains_iff_mem, decide_eq_true_eq]
  constructor
  · intro hstarts
    by_contra hnone
    have hfree : ∀ a ∈ first :: rest, clash a next = false :=
      fun a ha => Bool.eq_false_iff.2 fun hclash => hnone ⟨a, ha, hclash⟩
    obtain ⟨hcompatible, hsize, -⟩ := clash_eq_false_iff.1 (hfree first List.mem_cons_self)
    have hrank : next.comm.rank ∉ (first :: rest).map fun op => op.comm.rank := by
      intro hmem
      obtain ⟨a, ha, heq⟩ := List.mem_map.1 hmem
      exact (clash_eq_false_iff.1 (hfree a ha)).2.2 heq
    rcases hstarts with ((hno | hno) | hmem) | hfull
    · rw [hcompatible] at hno
      cases hno
    · exact hno hsize
    · exact hrank hmem
    · exact hrank (rank_mem_of_full h hfull (hsize ▸ next.comm.rank_lt))
  · rintro ⟨a, ha, hclash⟩
    obtain ⟨hcompatible, hsize⟩ := like_first h ha
    by_contra hno
    simp only [not_or] at hno
    obtain ⟨⟨⟨hcompatible', hsize'⟩, hrank⟩, -⟩ := hno
    have hfree : clash a next = false := by
      rw [clash_eq_false_iff]
      refine ⟨?_, ?_, fun heq => hrank (List.mem_map.2 ⟨a, ha, heq⟩)⟩
      · rw [Bool.not_eq_false, compatible_iff] at hcompatible'
        rw [compatible_iff] at hcompatible ⊢
        obtain ⟨h1, h2, h3, h4, h5⟩ := hcompatible
        obtain ⟨g1, g2, g3, g4, g5⟩ := hcompatible'
        exact ⟨h1.symm.trans g1, h2.symm.trans g2, h3.symm.trans g3, h4.symm.trans g4,
          h5.symm.trans g5⟩
      · rw [hsize]
        exact not_not.1 hsize'
    rw [hfree] at hclash
    cases hclash

theorem waveLoop_eq (hne : wave ≠ []) (h : wave.Pairwise fun a b => clash a b = false) :
    waveLoop wave ops = cutFrom clash wave ops := by
  induction ops generalizing wave with
  | nil => rfl
  | cons next ops ih =>
    rw [waveLoop, cutFrom, startsNextWave_eq hne h]
    by_cases hclash : wave.any (clash · next) = true
    · rw [if_pos hclash, if_pos hclash, ih (List.cons_ne_nil _ _) (List.pairwise_singleton _ _)]
    · rw [if_neg hclash, if_neg hclash, ih
        (List.append_ne_nil_of_right_ne_nil _ (List.cons_ne_nil _ _))
        (pairwise_snoc h (Bool.eq_false_iff.2 hclash))]

/-- **The waves of a group** are the blocks of its calls. -/
theorem groupWaves_eq (ops : List PendingOp) : groupWaves ops = cut clash ops := by
  cases ops with
  | nil => rfl
  | cons first ops => exact waveLoop_eq (List.cons_ne_nil _ _) (List.pairwise_singleton _ _)

/-! ## Which waves run -/

theorem runWaves_initial (i : ℕ) (waves : List (List PendingOp)) :
    runWaves succeeds i waves <+: waves := by
  induction waves generalizing i with
  | nil => exact List.nil_prefix
  | cons wave waves ih =>
    unfold runWaves
    split
    · exact (List.prefix_cons_inj wave).2 (ih _)
    · exact (List.prefix_cons_inj wave).2 List.nil_prefix

/-- All waves run just if no call fails but in the last. -/
theorem runWaves_eq_iff (i : ℕ) (waves : List (List PendingOp)) :
    runWaves succeeds i waves = waves ↔ ∀ k < waves.flatten.length, succeeds (i + k) = false →
      blockOf waves k + 1 = waves.length := by
  induction waves generalizing i with
  | nil => simp [runWaves]
  | cons wave waves ih =>
    by_cases hlast : waves = []
    · subst hlast
      have hrun : runWaves succeeds i [wave] = [wave] := by simp [runWaves]
      simp only [hrun, true_iff]
      intro k hk _
      rw [List.flatten_cons, List.flatten_nil, List.append_nil] at hk
      simp [blockOf, hk]
    have hlen : 0 < waves.length := List.length_pos_iff.2 hlast
    have hfirst : ((List.range wave.length).all fun k => succeeds (i + k)) = true ↔
        ∀ k < wave.length, succeeds (i + k) = true := by
      simp [List.all_eq_true]
    constructor
    · intro hrun k hk hfail
      rw [runWaves, List.cons.injEq] at hrun
      by_cases hall : ((List.range wave.length).all fun k => succeeds (i + k)) = true
      · rw [if_pos hall] at hrun
        have hge : ¬k < wave.length := by
          intro hlt
          rw [hfirst.1 hall k hlt] at hfail
          cases hfail
        have hshift : i + wave.length + (k - wave.length) = i + k := by omega
        have hrest := (ih (i + wave.length)).1 hrun.2 (k - wave.length)
          (by rw [List.flatten_cons, List.length_append] at hk; omega) (by rw [hshift]; exact hfail)
        rw [blockOf, if_neg hge, List.length_cons, hrest]
      · rw [if_neg hall] at hrun
        exact absurd hrun.2.symm hlast
    · intro h
      have hall : ((List.range wave.length).all fun k => succeeds (i + k)) = true := by
        rw [hfirst]
        intro k hk
        by_contra hfail
        have hblock := h k (by rw [List.flatten_cons, List.length_append]; omega)
          (Bool.eq_false_iff.2 hfail)
        rw [blockOf, if_pos hk, List.length_cons] at hblock
        omega
      rw [runWaves, if_pos hall, (ih _).2]
      intro k hk hfail
      have hblock := h (wave.length + k) (by rw [List.flatten_cons, List.length_append]; omega)
        (by rw [← Nat.add_assoc]; exact hfail)
      rw [blockOf, if_neg (by omega), Nat.add_sub_cancel_left, List.length_cons] at hblock
      omega

/-- Waves that run all calls are all the waves. -/
theorem eq_of_flatten_length {bs waves : List (List PendingOp)} (hinitial : bs <+: waves)
    (hne : ∀ wave ∈ waves, wave ≠ []) (hlen : bs.flatten.length = waves.flatten.length) :
    bs = waves := by
  obtain ⟨rest, rfl⟩ := hinitial
  rw [List.flatten_append, List.length_append] at hlen
  have hnil : rest.flatten = [] := List.eq_nil_of_length_eq_zero (by omega)
  have hrest : rest = [] := by
    rw [List.eq_nil_iff_forall_not_mem]
    intro wave hwave
    exact hne wave (List.mem_append_right _ hwave) (List.flatten_eq_nil_iff.1 hnil wave hwave)
  rw [hrest, List.append_nil]

/-! ## What is recorded -/

theorem apiRun_append (s : GroupState) (calls calls' : List ApiCall) :
    apiRun succeeds s (calls ++ calls') =
      ((apiRun succeeds (apiRun succeeds s calls).1 calls').1,
        (apiRun succeeds s calls).2 ++ (apiRun succeeds (apiRun succeeds s calls).1 calls').2) := by
  induction calls generalizing s with
  | nil => simp [apiRun]
  | cons call calls ih => simp [apiRun, ih, List.append_assoc]

/-- **Within a group** the calls are recorded, but for those that run at once. -/
theorem apiRun_body {body : List ApiCall} {depth depth' : ℕ} (h : nesting depth body = some depth')
    (recorded : List PendingOp) :
    apiRun succeeds ⟨true, depth + 1, recorded⟩ body =
      (⟨true, depth' + 1, recorded ++ (collectives body).filter fun op => !runsAtOnce op⟩,
        ((collectives body).filter runsAtOnce).map .single) := by
  induction body generalizing depth recorded with
  | nil =>
    cases h
    simp [apiRun, collectives]
  | cons call body ih =>
    cases call with
    | groupStart =>
      have hstep : apiStep succeeds ⟨true, depth + 1, recorded⟩ .groupStart =
          (⟨true, depth + 1 + 1, recorded⟩, []) := rfl
      simp only [apiRun, hstep, List.nil_append]
      exact ih h recorded
    | groupEnd =>
      rw [nesting] at h
      split at h
      · cases h
      · next hdepth =>
        obtain ⟨d, rfl⟩ := Nat.exists_eq_succ_of_ne_zero hdepth
        have hstep : apiStep succeeds ⟨true, d + 1 + 1, recorded⟩ .groupEnd =
            (⟨true, d + 1, recorded⟩, []) := rfl
        simp only [apiRun, hstep, List.nil_append]
        exact ih h recorded
    | collective op =>
      have hcons : collectives (.collective op :: body) = op :: collectives body := rfl
      by_cases honce : runsAtOnce op = true
      · simp only [apiRun, apiStep, honce, if_true, hcons, List.filter_cons, Bool.not_true,
          Bool.false_eq_true, if_false, List.map_cons, List.singleton_append, ih h recorded]
      · rw [Bool.not_eq_true] at honce
        simp only [apiRun, apiStep, honce, Bool.false_eq_true, if_false, if_true, hcons,
          List.filter_cons, Bool.not_false, List.nil_append, ih h (recorded ++ [op]),
          List.append_assoc, List.singleton_append]

/-- What is executed before the end of a group. -/
theorem events_before {body : List ApiCall} (h : nesting 0 body = some 0) :
    (apiRun succeeds .idle (.groupStart :: body)).2 =
      ((collectives body).filter runsAtOnce).map .single := by
  have hstep : apiStep succeeds .idle .groupStart = (⟨true, 1, []⟩, []) := rfl
  rw [apiRun, hstep]
  exact congrArg Prod.snd (apiRun_body h [])

/-- **What a group executes.** -/
theorem events_group {body : List ApiCall} (h : nesting 0 body = some 0) :
    (apiRun succeeds .idle (.groupStart :: body ++ [.groupEnd])).2 =
      ((collectives body).filter runsAtOnce).map .single ++
        (runWaves succeeds 0
          (cut clash ((collectives body).filter fun op => !runsAtOnce op))).map .wave := by
  have hstate : (apiRun succeeds .idle (.groupStart :: body)).1 =
      ⟨true, 1, (collectives body).filter fun op => !runsAtOnce op⟩ := by
    have hstep : apiStep succeeds .idle .groupStart = (⟨true, 1, []⟩, []) := rfl
    rw [apiRun, hstep]
    exact congrArg Prod.fst (apiRun_body h [])
  rw [apiRun_append, events_before h, hstate]
  simp [apiRun, apiStep, groupWaves_eq]

/-- A wave has at most one call on a communicator rank. -/
theorem countP_comm_le (h : wave.Pairwise fun a b => clash a b = false) (comm : Comm) :
    wave.countP (fun op => decide (op.comm = comm)) ≤ 1 := by
  have hnodup : (wave.map fun op => op.comm).Nodup := by
    rw [List.Nodup, List.pairwise_map]
    refine h.imp fun hfree heq => ?_
    exact (clash_eq_false_iff.1 hfree).2.2 (congrArg Comm.rank heq)
  have hcount := List.nodup_iff_count_le_one.1 hnodup comm
  rw [List.count, List.countP_map] at hcount
  exact hcount

/-- **A group runs as its calls say** if and only if none of them runs at once, and they are cut
such that no call waits for a later block, and none fails but in the last. -/
theorem group_ok_iff (meets : PendingOp → Bool) (queueDepth : ℕ) (succeeds : ℕ → Bool)
    {body : List ApiCall} (h : nesting 0 body = some 0) :
    GroupOk meets queueDepth succeeds body
        (apiRun succeeds .idle (.groupStart :: body ++ [.groupEnd])).2 ↔
      (∀ op ∈ collectives body, runsAtOnce op = false) ∧
        ∃ bs, WellCut meets queueDepth succeeds (collectives body) bs := by
  have hdeferred : (∀ op ∈ collectives body, runsAtOnce op = false) →
      (collectives body).filter runsAtOnce = [] ∧
        ((collectives body).filter fun op => !runsAtOnce op) = collectives body := by
    intro hnone
    rw [List.filter_eq_nil_iff, List.filter_eq_self]
    exact ⟨fun op hop => by simp [hnone op hop], fun op hop => by simp [hnone op hop]⟩
  have hops : ∀ waves : List (List PendingOp), (waves.map Event.wave).map Event.ops = waves := by
    intro waves
    rw [List.map_map]
    exact List.map_id waves
  rw [events_group h]
  constructor
  · intro hok
    have hnone : ∀ op ∈ collectives body, runsAtOnce op = false := by
      have hnil := hok.deferred
      rw [events_before h, List.map_eq_nil_iff, List.filter_eq_nil_iff] at hnil
      exact fun op hop => Bool.eq_false_iff.2 (hnil op hop)
    refine ⟨hnone, cut clash (collectives body), ?_⟩
    obtain ⟨hfirst, hrest⟩ := hdeferred hnone
    rw [hfirst, hrest, List.map_nil, List.nil_append] at hok
    have hall : runWaves succeeds 0 (cut clash (collectives body)) = cut clash (collectives body) := by
      apply eq_of_flatten_length (runWaves_initial _ _) fun _ => ne_nil_of_mem_cut
      have hlen := hok.once.length_eq
      rw [List.flatMap_def, hops] at hlen
      rw [hlen, flatten_cut]
    have hwaits := hok.waits
    rw [hops, hall] at hwaits
    refine ⟨flatten_cut _, blocks_cut _, ?_, hwaits⟩
    have hsucceeds := (runWaves_eq_iff 0 _).1 hall
    simpa only [flatten_cut, Nat.zero_add] using hsucceeds
  · rintro ⟨hnone, bs, hcut⟩
    obtain ⟨hfirst, hrest⟩ := hdeferred hnone
    have hbs : cut clash (collectives body) = bs := cut_eq_iff.2 ⟨hcut.flatten, hcut.blocks⟩
    have hall : runWaves succeeds 0 bs = bs := by
      rw [runWaves_eq_iff]
      simpa only [hcut.flatten, Nat.zero_add] using hcut.succeeds
    rw [hfirst, hrest, List.map_nil, List.nil_append, hbs, hall]
    have hflat : (bs.map Event.wave).flatMap Event.ops = collectives body := by
      rw [List.flatMap_def, hops, hcut.flatten]
    refine ⟨?_, by rw [hflat], fun comm => ⟨by rw [hflat], ?_⟩, ?_⟩
    · rw [events_before h, hfirst, List.map_nil]
    · intro e he
      obtain ⟨wave, hwave, rfl⟩ := List.mem_map.1 he
      rw [← hbs] at hwave
      exact countP_comm_le (pairwise_of_mem_cut hwave) comm
    · rw [hops]
      exact hcut.waits

/-! ## Two communicators -/

/-- An AllReduce of four elements on a rank of one of two communicators of two ranks. -/
def sumOn (communicator rank : ℕ) (h : rank < 2) : PendingOp :=
  ⟨.allReduce, 4, 7, 0, 0, ⟨communicator, rank, 2, h⟩⟩

/-- One device after the other, with one communicator before the other. -/
def byDevice : List ApiCall :=
  [.collective (sumOn 0 0 Nat.two_pos), .collective (sumOn 1 0 Nat.two_pos),
    .collective (sumOn 0 1 Nat.one_lt_two), .collective (sumOn 1 1 Nat.one_lt_two)]

/-- One communicator after the other. -/
def byCommunicator : List ApiCall :=
  [.collective (sumOn 0 0 Nat.two_pos), .collective (sumOn 0 1 Nat.one_lt_two),
    .collective (sumOn 1 0 Nat.two_pos), .collective (sumOn 1 1 Nat.one_lt_two)]

/-- The blocks of `byCommunicator`. -/
def pairBlocks : List (List PendingOp) :=
  [[sumOn 0 0 Nat.two_pos, sumOn 0 1 Nat.one_lt_two],
    [sumOn 1 0 Nat.two_pos, sumOn 1 1 Nat.one_lt_two]]

theorem group_ok_pair : GroupOk (fun _ => true) 8 (fun _ => true) byCommunicator
    (apiRun (fun _ => true) .idle (.groupStart :: byCommunicator ++ [.groupEnd])).2 := by
  refine (group_ok_iff (fun _ => true) 8 (fun _ => true) rfl).2 ⟨by decide, pairBlocks, ?_⟩
  refine ⟨rfl, ⟨nofun, by decide, ?_, nofun, by decide, nofun, trivial⟩, fun _ _ => nofun, ?_⟩
  · intro x hx
    obtain rfl : sumOn 1 0 Nat.two_pos = x := Option.some.inj hx
    decide
  -- calls of one communicator are in one block
  have hblocks : ∀ i < 4, ∀ j < 4, blockOf pairBlocks j ≤ blockOf pairBlocks i ∨
      (collectives byCommunicator)[i]?.map (fun op => op.comm.communicator) ≠
        (collectives byCommunicator)[j]?.map (fun op => op.comm.communicator) := by
    decide
  have hlt : ∀ {i : ℕ} {a : PendingOp}, (collectives byCommunicator)[i]? = some a → i < 4 :=
    fun h => (List.getElem?_eq_some_iff.1 h).1
  rintro i j ⟨a, ha, ⟨-, a', b, ha', hb, hsame, -⟩ | ⟨k, b, hb, -, hfull, -⟩⟩
  · rcases hblocks i (hlt ha') j (hlt hb) with hle | hne
    · exact hle
    · rw [ha', hb] at hne
      exact absurd (congrArg some hsame) hne
  · have hord : ordinal (collectives byCommunicator) i a.comm ≤ i := by
      refine (List.countP_le_length).trans ?_
      rw [List.length_take]
      exact Nat.min_le_left _ _
    have := hlt ha
    omega

/-- **A call waits for a later wave:** the first wave is the call of rank 0 on the first
communicator, the second the calls of rank 0 on the other one and of rank 1 on the first. -/
theorem group_waits_for_later : ¬ ∀ (meets : PendingOp → Bool) (queueDepth : ℕ)
    (succeeds : ℕ → Bool) (body : List ApiCall), nesting 0 body = some 0 →
    SequencesMatch (collectives body) →
    GroupOk meets queueDepth succeeds body
      (apiRun succeeds .idle (.groupStart :: body ++ [.groupEnd])).2 := by
  intro hall
  have hok := hall (fun _ => true) 8 (fun _ => true) byDevice rfl (by
    unfold SequencesMatch
    decide +kernel)
  have hwait : WaitsFor (fun _ => true) 8 (collectives byDevice) 0 2 :=
    ⟨sumOn 0 0 (by decide), rfl, .inl ⟨rfl, sumOn 0 0 (by decide), sumOn 0 1 (by decide), rfl, rfl,
      rfl, by decide, rfl⟩⟩
  have hle := hok.waits 0 2 hwait
  exact absurd hle (by decide)

end Group
end Api
end HyLink
