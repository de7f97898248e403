import HyLink.Theory.Machine
import HyLink.Theory.Tiles
import Mathlib.Data.List.Count
import Mathlib.Data.List.TakeWhile
import Mathlib.Data.Int.DivMod
import Mathlib.Logic.Function.Basic

/-!
# The shards of a host copy

`submitCopy` cuts a copy into shards, for as many workers as the size is worth and the pool of the
destination has, and queues them with a counter that starts at their number.  A worker takes the
oldest item of its pool, copies it and lowers the counter; the one that finds it at 1 pushes the
completion.

* `Engine.shards_length`, `Engine.tiles_shards` — all shards are queued, and they tile the copy.
* `H2HShards.step` — a submission, or the next thing a worker does.
* `Inv` — where the items are, and how the counters and the completions follow.
* `h2h_shards` — the counter of a copy reaches zero once, then all bytes are copied and one
  completion is pushed.
-/

namespace HyLink
namespace Ascend
namespace H2HShards

open Theory

/-! ## The cut -/

/-- `SUBCHUNK_SLICE_SIZE`. -/
def sliceSize : ℕ := 1048576

/-- The values of `size_t`. -/
def sizeMod : ℕ := 2 ^ 64

/-- `h2hWorkersPerNumaFromEnv`, of what `strtol` reads. -/
def workersPerNumaFromEnv : Option ℤ → ℕ
  | none => 8
  | some parsed => if parsed ≤ 0 then 8 else (max 1 (min 32 parsed)).toNat

/-- `h2hShardBytesFromEnv`, of what `strtoull` reads. -/
def shardBytesFromEnv : Option (Fin sizeMod) → ℕ
  | none => sliceSize / 8
  | some parsed => if parsed.val = 0 then sliceSize / 8 else max (64 * 1024) parsed.val

/-- The two numbers of an `H2HEngine` that decide the cut. -/
structure Engine where
  workersPerNuma : ℕ
  shardBytes : ℕ
  workers_pos : 0 < workersPerNuma
  workers_le : workersPerNuma ≤ 32
  shardBytes_lt : shardBytes < sizeMod

theorem workersPerNumaFromEnv_pos (e : Option ℤ) : 0 < workersPerNumaFromEnv e := by
  unfold workersPerNumaFromEnv
  split
  · decide
  · split <;> omega

theorem workersPerNumaFromEnv_le (e : Option ℤ) : workersPerNumaFromEnv e ≤ 32 := by
  unfold workersPerNumaFromEnv
  split
  · decide
  · split <;> omega

theorem shardBytesFromEnv_lt (e : Option (Fin sizeMod)) : shardBytesFromEnv e < sizeMod := by
  unfold shardBytesFromEnv
  split
  · decide
  · rename_i parsed
    have hlt := parsed.isLt
    unfold sizeMod sliceSize at *
    split <;> omega

/-- The engine of a process, by its environment. -/
def Engine.fromEnv (workers : Option ℤ) (shardBytes : Option (Fin sizeMod)) : Engine where
  workersPerNuma := workersPerNumaFromEnv workers
  shardBytes := shardBytesFromEnv shardBytes
  workers_pos := workersPerNumaFromEnv_pos workers
  workers_le := workersPerNumaFromEnv_le workers
  shardBytes_lt := shardBytesFromEnv_lt shardBytes

namespace Engine

variable (eng : Engine) (bytes : ℕ)

def minShardBytes : ℕ := max (64 * 1024) eng.shardBytes

/-- The quotient, cast to `int`. -/
def shardsBySize : ℤ :=
  Int.bmod (((bytes + eng.minShardBytes - 1) % sizeMod / eng.minShardBytes : ℕ) : ℤ) (2 ^ 32)

@[irreducible] def numShards : ℕ :=
  (max 1 (min (eng.workersPerNuma : ℤ) (eng.shardsBySize bytes))).toNat

/-- `shard_bytes` of `submitCopy`. -/
def shardLength : ℕ := (bytes + eng.numShards bytes - 1) % sizeMod / eng.numShards bytes

def offset (shard : ℕ) : ℕ := shard * eng.shardLength bytes % sizeMod

/-- The shards that are queued, by offset and length; the loop ends at the first empty one. -/
def shards : List Span :=
  ((List.range (eng.numShards bytes)).takeWhile fun shard =>
    decide (eng.offset bytes shard < bytes)).map fun shard =>
      ⟨eng.offset bytes shard, min (eng.shardLength bytes) (bytes - eng.offset bytes shard)⟩

variable {eng bytes}

theorem numShards_pos : 0 < eng.numShards bytes := by
  unfold numShards
  omega

theorem numShards_le : eng.numShards bytes ≤ 32 := by
  have h := eng.workers_le
  unfold numShards
  omega

/-- A cast to `int` leaves nothing that is greater. -/
theorem shardsBySize_le :
    eng.shardsBySize bytes ≤ ((bytes + eng.minShardBytes - 1) % sizeMod / eng.minShardBytes : ℕ) := by
  unfold shardsBySize
  generalize (bytes + eng.minShardBytes - 1) % sizeMod / eng.minShardBytes = quotient
  rw [Int.bmod_def]
  split <;> omega

theorem le_minShardBytes : 64 * 1024 ≤ eng.minShardBytes := le_max_left _ _

theorem minShardBytes_lt : eng.minShardBytes < sizeMod :=
  max_lt (by decide) eng.shardBytes_lt

/-- There is more than one shard only by the quotient. -/
theorem numShards_le_quotient (hone : eng.numShards bytes ≠ 1) :
    eng.numShards bytes ≤ (bytes + eng.minShardBytes - 1) % sizeMod / eng.minShardBytes := by
  have hcast := @shardsBySize_le eng bytes
  unfold numShards at hone ⊢
  omega

/-- With more than one shard, the sum has not wrapped: the quotient would be 0. -/
theorem sum_lt (hbytes : bytes < sizeMod) (hone : eng.numShards bytes ≠ 1) :
    bytes + eng.minShardBytes - 1 < sizeMod := by
  have hmin := @minShardBytes_lt eng
  have hquotient := numShards_pos.trans_le (numShards_le_quotient hone)
  by_contra hwrap
  have hsub : (bytes + eng.minShardBytes - 1) % sizeMod =
      bytes + eng.minShardBytes - 1 - sizeMod := by
    rw [Nat.mod_eq_sub_mod (by omega), Nat.mod_eq_of_lt (by omega)]
  have hzero : (bytes + eng.minShardBytes - 1) % sizeMod / eng.minShardBytes = 0 :=
    Nat.div_eq_of_lt (by omega)
  omega

/-- With more than one shard, all but the last would have their minimum. -/
theorem lt_of_numShards (hbytes : bytes < sizeMod) (hone : eng.numShards bytes ≠ 1) :
    (eng.numShards bytes - 1) * eng.minShardBytes < bytes := by
  have hmin := @le_minShardBytes eng
  have hle := numShards_le_quotient hone
  rw [Nat.mod_eq_of_lt (sum_lt hbytes hone), Nat.le_div_iff_mul_le (by omega)] at hle
  have hsplit : eng.numShards bytes * eng.minShardBytes =
      (eng.numShards bytes - 1) * eng.minShardBytes + eng.minShardBytes := by
    rw [← Nat.succ_mul, Nat.succ_eq_add_one, Nat.sub_add_cancel numShards_pos]
  omega

/-- The length is the quotient, rounded up. -/
theorem le_mul_shardLength (hbytes : bytes < sizeMod) :
    bytes ≤ eng.numShards bytes * eng.shardLength bytes ∧
      eng.numShards bytes * eng.shardLength bytes ≤ bytes + eng.numShards bytes - 1 := by
  have hpos : 0 < eng.numShards bytes := numShards_pos
  have hnowrap : bytes + eng.numShards bytes - 1 < sizeMod := by
    by_cases hone : eng.numShards bytes = 1
    · omega
    · have hsum := sum_lt hbytes hone
      have hmin := @le_minShardBytes eng
      have hmost := @numShards_le eng bytes
      omega
  have hlength : eng.shardLength bytes = (bytes + eng.numShards bytes - 1) / eng.numShards bytes := by
    unfold shardLength
    rw [Nat.mod_eq_of_lt hnowrap]
  have hlt := Nat.lt_div_mul_add (a := bytes + eng.numShards bytes - 1) hpos
  have hle := Nat.mul_div_le (bytes + eng.numShards bytes - 1) (eng.numShards bytes)
  rw [Nat.mul_comm] at hlt
  rw [hlength]
  omega

/-- **No shard is empty.**  A shard has more bytes than there are shards, so that rounding up the
length leaves bytes for the last one. -/
theorem mul_shardLength_lt (hbytes : bytes < sizeMod) (hpos : 0 < bytes) {shard : ℕ}
    (hshard : shard < eng.numShards bytes) : shard * eng.shardLength bytes < bytes := by
  by_cases hone : eng.numShards bytes = 1
  · obtain rfl : shard = 0 := by omega
    rw [Nat.zero_mul]
    exact hpos
  · have hmin := @le_minShardBytes eng
    have hmost := @numShards_le eng bytes
    have hbig := lt_of_numShards hbytes hone
    obtain ⟨hcover, hround⟩ := @le_mul_shardLength eng bytes hbytes
    set k := eng.numShards bytes
    set len := eng.shardLength bytes
    have hprod : (k - 1) * (64 * 1024) ≤ (k - 1) * eng.minShardBytes := Nat.mul_le_mul_left _ hmin
    have hlong : k ≤ len := by
      by_contra hlt
      have hsq : k * len ≤ 32 * len := Nat.mul_le_mul_right _ hmost
      omega
    have hlast : shard * len ≤ (k - 1) * len := Nat.mul_le_mul_right _ (by omega)
    have hsplit : k * len = (k - 1) * len + len := by
      rw [← Nat.succ_mul, Nat.succ_eq_add_one, Nat.sub_add_cancel (by omega)]
    omega

theorem offset_eq (hbytes : bytes < sizeMod) (hpos : 0 < bytes) {shard : ℕ}
    (hshard : shard < eng.numShards bytes) :
    eng.offset bytes shard = shard * eng.shardLength bytes :=
  Nat.mod_eq_of_lt ((mul_shardLength_lt hbytes hpos hshard).trans hbytes)

/-- The loop does not end early. -/
theorem shards_eq (hbytes : bytes < sizeMod) (hpos : 0 < bytes) :
    eng.shards bytes = (List.range (eng.numShards bytes)).map fun shard =>
      ⟨shard * eng.shardLength bytes,
        min (eng.shardLength bytes) (bytes - shard * eng.shardLength bytes)⟩ := by
  unfold shards
  rw [List.takeWhile_eq_self_iff.2]
  · refine List.map_congr_left fun shard hmem => ?_
    rw [offset_eq hbytes hpos (List.mem_range.1 hmem)]
  · intro shard hmem
    have hshard := List.mem_range.1 hmem
    rw [offset_eq hbytes hpos hshard]
    exact decide_eq_true (mul_shardLength_lt hbytes hpos hshard)

/-- **As many shards are queued as the counter counts.** -/
theorem shards_length (hbytes : bytes < sizeMod) (hpos : 0 < bytes) :
    (eng.shards bytes).length = eng.numShards bytes := by
  rw [shards_eq hbytes hpos, List.length_map, List.length_range]

/-- **The shards tile the copy.** -/
theorem tiles_shards (hbytes : bytes < sizeMod) (hpos : 0 < bytes) :
    Tiles 0 (eng.shards bytes) bytes := by
  have hfit : ∀ shard < eng.numShards bytes, shard * eng.shardLength bytes ≤ bytes :=
    fun shard hshard => Nat.le_of_lt (mul_shardLength_lt hbytes hpos hshard)
  have htiles := tiles_pieces hfit
  rw [Nat.min_eq_right (le_mul_shardLength hbytes).1] at htiles
  rw [shards_eq hbytes hpos]
  exact htiles

theorem shards_nonempty (hbytes : bytes < sizeMod) (hpos : 0 < bytes) {s : Span}
    (hs : s ∈ eng.shards bytes) : 0 < s.len := by
  rw [shards_eq hbytes hpos] at hs
  obtain ⟨shard, hmem, rfl⟩ := List.mem_map.1 hs
  have hlt := @mul_shardLength_lt eng bytes hbytes hpos _ (List.mem_range.1 hmem)
  obtain ⟨hcover, -⟩ := @le_mul_shardLength eng bytes hbytes
  have hlen : 0 < eng.shardLength bytes := by
    by_contra hzero
    rw [Nat.eq_zero_of_not_pos hzero, Nat.mul_zero] at hcover
    omega
  dsimp only
  omega

theorem shards_nodup (hbytes : bytes < sizeMod) (hpos : 0 < bytes) : (eng.shards bytes).Nodup := by
  have hdisjoint := (@tiles_shards eng bytes hbytes hpos).disjoint
  refine List.Pairwise.imp_of_mem ?_ hdisjoint
  rintro s t hs - hdisjoint rfl
  have hlen := shards_nonempty hbytes hpos hs
  have hcovers : s.Covers s.start := ⟨le_rfl, Nat.lt_add_of_pos_right hlen⟩
  exact hdisjoint s.start hcovers hcovers

end Engine

/-! ## The engine at work -/

/-- A `WorkItem` of kind `CopyShard`. -/
structure Item where
  task : ℕ
  span : Span
  deriving DecidableEq, Repr

/-- What a worker is at in its loop. -/
inductive Activity
  | idle
  | taken (item : Item)
  /-- `copyHost` has returned. -/
  | copied (item : Item)
  /-- It has found the counter at 1. -/
  | pushing (task : ℕ)
  deriving DecidableEq, Repr

structure State where
  /-- `queue` of a pool. -/
  pool : ℕ → List Item
  /-- By pool and index. -/
  worker : ℕ × ℕ → Activity
  /-- The copies submitted so far, and the bytes of each. -/
  tasks : ℕ
  bytes : ℕ → ℕ
  /-- The shards that are copied. -/
  copied : List Item
  remaining : ℕ → ℤ
  /-- How often the counter of a copy has reached zero. -/
  zeros : ℕ → ℕ
  /-- All that was ever in `completions_`. -/
  completions : List ℕ

inductive Label
  /-- `submitCopy` to a pool. -/
  | submit (pool bytes : ℕ)
  | take (pool worker : ℕ)
  | copy (pool worker : ℕ)
  /-- `fetch_sub` of `completeWorkItem`. -/
  | finish (pool worker : ℕ)
  /-- `pushCompletion`. -/
  | push (pool worker : ℕ)
  deriving DecidableEq, Repr

variable (eng : Engine)

def Engine.items (task bytes : ℕ) : List Item := (eng.shards bytes).map fun span => ⟨task, span⟩

def State.setWorker (st : State) (p w : ℕ) (a : Activity) : State :=
  { st with worker := Function.update st.worker (p, w) a }

def step (st : State) : Label → Option State
  | .submit p bytes =>
    if 0 < bytes ∧ bytes < sizeMod then
      some { st with
        pool := Function.update st.pool p (st.pool p ++ eng.items st.tasks bytes)
        tasks := st.tasks + 1
        bytes := Function.update st.bytes st.tasks bytes
        remaining := Function.update st.remaining st.tasks (eng.numShards bytes) }
    else none
  | .take p w =>
    match st.worker (p, w), st.pool p with
    | .idle, item :: rest =>
      if w < eng.workersPerNuma then
        some { st.setWorker p w (.taken item) with pool := Function.update st.pool p rest }
      else none
    | _, _ => none
  | .copy p w =>
    match st.worker (p, w) with
    | .taken item => some { st.setWorker p w (.copied item) with copied := item :: st.copied }
    | _ => none
  | .finish p w =>
    match st.worker (p, w) with
    | .copied item =>
      let left := st.remaining item.task - 1
      some { st.setWorker p w (if left = 0 then .pushing item.task else .idle) with
        remaining := Function.update st.remaining item.task left
        zeros :=
          if left = 0 then Function.update st.zeros item.task (st.zeros item.task + 1)
          else st.zeros }
    | _ => none
  | .push p w =>
    match st.worker (p, w) with
    | .pushing task => some { st.setWorker p w .idle with completions := st.completions ++ [task] }
    | _ => none

def machine : Machine State Label := ⟨step eng⟩

def start : State where
  pool := fun _ => []
  worker := fun _ => .idle
  tasks := 0
  bytes := fun _ => 0
  copied := []
  remaining := fun _ => 0
  zeros := fun _ => 0
  completions := []

/-- Nothing is left to do. -/
structure Drained (st : State) : Prop where
  pool : ∀ p, st.pool p = []
  worker : ∀ p w, st.worker (p, w) = .idle

/-! ## What holds in every state -/

/-- Where an item is. -/
inductive Place
  | queued (pool : ℕ)
  | held (pool worker : ℕ)
  | finished
  deriving DecidableEq

variable {eng} {st st' : State} {place : Item → Place} {p w task : ℕ} {item : Item}

def Belongs (eng : Engine) (st : State) (item : Item) : Prop :=
  item.task < st.tasks ∧ item.span ∈ eng.shards (st.bytes item.task)

/-- The shards of a copy that are not finished. -/
def unfinished (eng : Engine) (place : Item → Place) (task bytes : ℕ) : ℕ :=
  (eng.shards bytes).countP fun span => decide (place ⟨task, span⟩ ≠ .finished)

/-- Every item is in one place, and what is finished is copied. -/
structure Items (eng : Engine) (st : State) (place : Item → Place) : Prop where
  sizes : ∀ task < st.tasks, 0 < st.bytes task ∧ st.bytes task < sizeMod
  pool : ∀ p item, item ∈ st.pool p ↔ Belongs eng st item ∧ place item = .queued p
  nodup : ∀ p, (st.pool p).Nodup
  taken : ∀ p w item, st.worker (p, w) = .taken item → Belongs eng st item ∧ place item = .held p w
  copied : ∀ p w item, st.worker (p, w) = .copied item →
    Belongs eng st item ∧ place item = .held p w ∧ item ∈ st.copied
  held : ∀ p w item, Belongs eng st item → place item = .held p w →
    st.worker (p, w) = .taken item ∨ st.worker (p, w) = .copied item
  finished : ∀ item, Belongs eng st item → place item = .finished → item ∈ st.copied

/-- The counters follow the items, and the completions the counters. -/
structure Counters (eng : Engine) (st : State) (place : Item → Place) : Prop where
  remaining : ∀ task < st.tasks, st.remaining task = unfinished eng place task (st.bytes task)
  zeros : ∀ task < st.tasks,
    st.zeros task = if unfinished eng place task (st.bytes task) = 0 then 1 else 0
  fresh : ∀ task, st.tasks ≤ task → st.zeros task = 0
  pushing : ∀ p w task, st.worker (p, w) = .pushing task →
    st.zeros task = 1 ∧ task ∉ st.completions
  pusher : ∀ p w p' w' task, st.worker (p, w) = .pushing task →
    st.worker (p', w') = .pushing task → (p, w) = (p', w')
  pushed : ∀ task ∈ st.completions, st.zeros task = 1
  nodup : st.completions.Nodup
  completed : ∀ task, st.zeros task = 1 →
    task ∈ st.completions ∨ ∃ p w, st.worker (p, w) = .pushing task

def Inv (eng : Engine) (st : State) : Prop := ∃ place, Items eng st place ∧ Counters eng st place

/-! ## The items -/

section Moves

theorem setWorker_worker (a : Activity) (p' w' : ℕ) :
    (st.setWorker p w a).worker (p', w') =
      if p' = p ∧ w' = w then a else st.worker (p', w') := by
  show Function.update st.worker (p, w) a (p', w') = _
  by_cases h : p' = p ∧ w' = w
  · obtain ⟨rfl, rfl⟩ := h
    rw [if_pos ⟨rfl, rfl⟩, Function.update_self]
  · rw [if_neg h, Function.update_of_ne fun heq => h (Prod.mk.inj heq)]

theorem mem_items {n : ℕ} :
    item ∈ eng.items task n ↔ item.task = task ∧ item.span ∈ eng.shards n := by
  unfold Engine.items
  rw [List.mem_map]
  constructor
  · rintro ⟨span, hspan, rfl⟩
    exact ⟨rfl, hspan⟩
  · rintro ⟨rfl, hspan⟩
    exact ⟨item.span, hspan, rfl⟩

theorem items_nodup {n : ℕ} (hpos : 0 < n) (hn : n < sizeMod) : (eng.items task n).Nodup :=
  (Engine.shards_nodup hn hpos).map fun _ _ heq => (Item.mk.inj heq).2

/-- The items of a new copy are in its pool. -/
def placed (st : State) (place : Item → Place) (p : ℕ) (item : Item) : Place :=
  if item.task = st.tasks then .queued p else place item

variable {n : ℕ}

def State.submitted (eng : Engine) (st : State) (p n : ℕ) : State :=
  { st with
    pool := Function.update st.pool p (st.pool p ++ eng.items st.tasks n)
    tasks := st.tasks + 1
    bytes := Function.update st.bytes st.tasks n
    remaining := Function.update st.remaining st.tasks (eng.numShards n) }

/-- An item of the old copies, or of the new one. -/
theorem belongs_submitted :
    Belongs eng (st.submitted eng p n) item ↔
      Belongs eng st item ∨ item.task = st.tasks ∧ item.span ∈ eng.shards n := by
  show item.task < st.tasks + 1 ∧
    item.span ∈ eng.shards (Function.update st.bytes st.tasks n item.task) ↔ _
  unfold Belongs
  by_cases htask : item.task = st.tasks
  · rw [htask, Function.update_self]
    simp
  · rw [Function.update_of_ne htask]
    constructor
    · rintro ⟨hlt, hspan⟩
      exact .inl ⟨by omega, hspan⟩
    · rintro (⟨hlt, hspan⟩ | ⟨heq, -⟩)
      · exact ⟨by omega, hspan⟩
      · exact absurd heq htask

theorem Belongs.task_ne (h : Belongs eng st item) : item.task ≠ st.tasks := h.1.ne

theorem placed_of_belongs (h : Belongs eng st item) : placed st place p item = place item :=
  if_neg h.task_ne

theorem Items.submit (h : Items eng st place) (hpos : 0 < n) (hn : n < sizeMod) :
    Items eng (st.submitted eng p n) (placed st place p) := by
  have hnew : ∀ item, item.task = st.tasks → placed st place p item = .queued p :=
    fun item htask => if_pos htask
  refine ⟨fun task htask => ?_, fun p' item => ?_, fun p' => ?_, fun p' w item hw => ?_,
    fun p' w item hw => ?_, fun p' w item hb hplace => ?_, fun item hb hplace => ?_⟩
  · show 0 < Function.update st.bytes st.tasks n task ∧ Function.update st.bytes st.tasks n task < _
    by_cases heq : task = st.tasks
    · rw [heq, Function.update_self]
      exact ⟨hpos, hn⟩
    · rw [Function.update_of_ne heq]
      exact h.sizes task (by change task < st.tasks + 1 at htask; omega)
  · rw [belongs_submitted]
    show item ∈ Function.update st.pool p (st.pool p ++ eng.items st.tasks n) p' ↔ _
    by_cases hp : p' = p
    · subst hp
      rw [Function.update_self, List.mem_append, mem_items, h.pool]
      constructor
      · rintro (⟨hb, hplace⟩ | hitem)
        · exact ⟨.inl hb, by rw [placed_of_belongs hb, hplace]⟩
        · exact ⟨.inr hitem, hnew item hitem.1⟩
      · rintro ⟨hb | hitem, hplace⟩
        · rw [placed_of_belongs hb] at hplace
          exact .inl ⟨hb, hplace⟩
        · exact .inr hitem
    · rw [Function.update_of_ne hp, h.pool]
      constructor
      · rintro ⟨hb, hplace⟩
        exact ⟨.inl hb, by rw [placed_of_belongs hb, hplace]⟩
      · rintro ⟨hb | hitem, hplace⟩
        · rw [placed_of_belongs hb] at hplace
          exact ⟨hb, hplace⟩
        · rw [hnew item hitem.1] at hplace
          exact absurd (Place.queued.inj hplace).symm hp
  · show (Function.update st.pool p (st.pool p ++ eng.items st.tasks n) p').Nodup
    by_cases hp : p' = p
    · subst hp
      rw [Function.update_self]
      refine List.Nodup.append (h.nodup p') (items_nodup hpos hn) fun item hmem hmem' => ?_
      exact ((h.pool p' item).1 hmem).1.task_ne (mem_items.1 hmem').1
    · rw [Function.update_of_ne hp]
      exact h.nodup p'
  · obtain ⟨hb, hplace⟩ := h.taken p' w item hw
    exact ⟨belongs_submitted.2 (.inl hb), by rw [placed_of_belongs hb, hplace]⟩
  · obtain ⟨hb, hplace, hcopied⟩ := h.copied p' w item hw
    exact ⟨belongs_submitted.2 (.inl hb), by rw [placed_of_belongs hb, hplace], hcopied⟩
  · rcases belongs_submitted.1 hb with hb | hitem
    · rw [placed_of_belongs hb] at hplace
      exact h.held p' w item hb hplace
    · rw [hnew item hitem.1] at hplace
      cases hplace
  · rcases belongs_submitted.1 hb with hb | hitem
    · rw [placed_of_belongs hb] at hplace
      exact h.finished item hb hplace
    · rw [hnew item hitem.1] at hplace
      cases hplace

/-- The oldest item of a pool is taken by an idle worker. -/
theorem Items.take {rest : List Item} (h : Items eng st place) (hidle : st.worker (p, w) = .idle)
    (hpool : st.pool p = item :: rest) :
    Items eng { st.setWorker p w (.taken item) with pool := Function.update st.pool p rest }
      (Function.update place item (.held p w)) := by
  have hmem : item ∈ st.pool p := by
    rw [hpool]
    exact List.mem_cons_self ..
  obtain ⟨hb, hqueued⟩ := (h.pool p item).1 hmem
  have hnodup := h.nodup p
  rw [hpool, List.nodup_cons] at hnodup
  -- What a worker holds is not what is taken.
  have hother : ∀ p' w' item', place item' = .held p' w' → item' ≠ item := by
    rintro p' w' item' hplace rfl
    rw [hqueued] at hplace
    cases hplace
  refine ⟨h.sizes, fun p' item' => ?_, fun p' => ?_, fun p' w' item' hw => ?_,
    fun p' w' item' hw => ?_, fun p' w' item' hb' hplace => ?_, fun item' hb' hplace => ?_⟩
  · show item' ∈ Function.update st.pool p rest p' ↔ _
    by_cases heq : item' = item
    · subst heq
      rw [Function.update_self]
      constructor
      · intro hin
        by_cases hp : p' = p
        · subst hp
          rw [Function.update_self] at hin
          exact absurd hin hnodup.1
        · rw [Function.update_of_ne hp, h.pool, hqueued] at hin
          exact absurd (Place.queued.inj hin.2).symm hp
      · rintro ⟨-, hplace⟩
        cases hplace
    · rw [Function.update_of_ne heq]
      by_cases hp : p' = p
      · subst hp
        have hin := h.pool p' item'
        rw [hpool, List.mem_cons] at hin
        rw [Function.update_self]
        exact ⟨fun hrest => hin.1 (.inr hrest), fun hplace => (hin.2 hplace).resolve_left heq⟩
      · rw [Function.update_of_ne hp]
        exact h.pool p' item'
  · show (Function.update st.pool p rest p').Nodup
    by_cases hp : p' = p
    · subst hp
      rw [Function.update_self]
      exact hnodup.2
    · rw [Function.update_of_ne hp]
      exact h.nodup p'
  · change (st.setWorker p w _).worker (p', w') = _ at hw
    rw [setWorker_worker] at hw
    split at hw
    · rename_i heq
      obtain ⟨rfl, rfl⟩ := heq
      obtain rfl := Activity.taken.inj hw
      exact ⟨hb, Function.update_self ..⟩
    · obtain ⟨hb', hplace⟩ := h.taken p' w' item' hw
      exact ⟨hb', by rw [Function.update_of_ne (hother _ _ _ hplace), hplace]⟩
  · change (st.setWorker p w _).worker (p', w') = _ at hw
    rw [setWorker_worker] at hw
    split at hw
    · cases hw
    · obtain ⟨hb', hplace, hcopied⟩ := h.copied p' w' item' hw
      exact ⟨hb', by rw [Function.update_of_ne (hother _ _ _ hplace), hplace], hcopied⟩
  · show (st.setWorker p w _).worker (p', w') = _ ∨ (st.setWorker p w _).worker (p', w') = _
    rw [setWorker_worker]
    by_cases heq : item' = item
    · subst heq
      rw [Function.update_self] at hplace
      obtain ⟨rfl, rfl⟩ := Place.held.inj hplace
      rw [if_pos ⟨rfl, rfl⟩]
      exact .inl rfl
    · rw [Function.update_of_ne heq] at hplace
      have hheld := h.held p' w' item' hb' hplace
      rw [if_neg]
      · exact hheld
      · rintro ⟨rfl, rfl⟩
        rw [hidle] at hheld
        rcases hheld with hheld | hheld <;> cases hheld
  · by_cases heq : item' = item
    · subst heq
      rw [Function.update_self] at hplace
      cases hplace
    · rw [Function.update_of_ne heq] at hplace
      exact h.finished item' hb' hplace

theorem Items.copy (h : Items eng st place) (htaken : st.worker (p, w) = .taken item) :
    Items eng { st.setWorker p w (.copied item) with copied := item :: st.copied } place := by
  obtain ⟨hb, hheld⟩ := h.taken p w item htaken
  refine ⟨h.sizes, h.pool, h.nodup, fun p' w' item' hw => ?_, fun p' w' item' hw => ?_,
    fun p' w' item' hb' hplace => ?_, fun item' hb' hplace => ?_⟩
  · change (st.setWorker p w _).worker (p', w') = _ at hw
    rw [setWorker_worker] at hw
    split at hw
    · cases hw
    · exact h.taken p' w' item' hw
  · change (st.setWorker p w _).worker (p', w') = _ at hw
    rw [setWorker_worker] at hw
    split at hw
    · rename_i heq
      obtain ⟨rfl, rfl⟩ := heq
      obtain rfl := Activity.copied.inj hw
      exact ⟨hb, hheld, List.mem_cons_self ..⟩
    · obtain ⟨hb', hplace, hcopied⟩ := h.copied p' w' item' hw
      exact ⟨hb', hplace, List.mem_cons_of_mem _ hcopied⟩
  · show (st.setWorker p w _).worker (p', w') = _ ∨ (st.setWorker p w _).worker (p', w') = _
    rw [setWorker_worker]
    have hold := h.held p' w' item' hb' hplace
    split
    · rename_i heq
      obtain ⟨rfl, rfl⟩ := heq
      rw [htaken] at hold
      rcases hold with hold | hold
      · obtain rfl := Activity.taken.inj hold
        exact .inr rfl
      · cases hold
    · exact hold
  · exact List.mem_cons_of_mem _ (h.finished item' hb' hplace)

/-- A worker that has copied its item gives it up, for something that is no item. -/
theorem Items.finish {a : Activity} (h : Items eng st place)
    (hcopied : st.worker (p, w) = .copied item) (htaken : ∀ item, a ≠ .taken item)
    (hnot : ∀ item, a ≠ .copied item) :
    Items eng (st.setWorker p w a) (Function.update place item .finished) := by
  obtain ⟨hb, hheld, hdone⟩ := h.copied p w item hcopied
  -- What another worker holds is another item.
  have hother : ∀ p' w' item', ¬ (p' = p ∧ w' = w) → place item' = .held p' w' → item' ≠ item := by
    rintro p' w' item' hne hplace rfl
    rw [hheld] at hplace
    obtain ⟨rfl, rfl⟩ := Place.held.inj hplace
    exact hne ⟨rfl, rfl⟩
  refine ⟨h.sizes, fun p' item' => ?_, h.nodup, fun p' w' item' hw => ?_, fun p' w' item' hw => ?_,
    fun p' w' item' hb' hplace => ?_, fun item' hb' hplace => ?_⟩
  · show item' ∈ st.pool p' ↔ Belongs eng st item' ∧ _
    rw [h.pool]
    by_cases heq : item' = item
    · subst heq
      rw [Function.update_self, hheld]
      exact ⟨fun hq => absurd hq.2 nofun, fun hq => absurd hq.2 nofun⟩
    · rw [Function.update_of_ne heq]
  · rw [setWorker_worker] at hw
    split at hw
    · exact absurd hw (htaken item')
    · rename_i hne
      obtain ⟨hb', hplace⟩ := h.taken p' w' item' hw
      exact ⟨hb', by rw [Function.update_of_ne (hother _ _ _ hne hplace), hplace]⟩
  · rw [setWorker_worker] at hw
    split at hw
    · exact absurd hw (hnot item')
    · rename_i hne
      obtain ⟨hb', hplace, hdone'⟩ := h.copied p' w' item' hw
      exact ⟨hb', by rw [Function.update_of_ne (hother _ _ _ hne hplace), hplace], hdone'⟩
  · by_cases heq : item' = item
    · subst heq
      rw [Function.update_self] at hplace
      cases hplace
    · rw [Function.update_of_ne heq] at hplace
      have hold := h.held p' w' item' hb' hplace
      rw [setWorker_worker, if_neg]
      · exact hold
      · rintro ⟨rfl, rfl⟩
        rw [hcopied] at hold
        rcases hold with hold | hold
        · cases hold
        · exact heq (Activity.copied.inj hold).symm
  · by_cases heq : item' = item
    · subst heq
      exact hdone
    · rw [Function.update_of_ne heq] at hplace
      exact h.finished item' hb' hplace

/-- A worker turns from something that is no item to something that is none. -/
theorem Items.push {a : Activity} (h : Items eng st place)
    (hold : ∀ item, st.worker (p, w) ≠ .taken item ∧ st.worker (p, w) ≠ .copied item)
    (hnew : ∀ item, a ≠ .taken item ∧ a ≠ .copied item) : Items eng (st.setWorker p w a) place := by
  refine ⟨h.sizes, h.pool, h.nodup, fun p' w' item' hw => ?_, fun p' w' item' hw => ?_,
    fun p' w' item' hb' hplace => ?_, h.finished⟩
  · rw [setWorker_worker] at hw
    split at hw
    · exact absurd hw (hnew item').1
    · exact h.taken p' w' item' hw
  · rw [setWorker_worker] at hw
    split at hw
    · exact absurd hw (hnew item').2
    · exact h.copied p' w' item' hw
  · have hheld := h.held p' w' item' hb' hplace
    rw [setWorker_worker, if_neg]
    · exact hheld
    · rintro ⟨rfl, rfl⟩
      rcases hheld with hheld | hheld
      · exact (hold item').1 hheld
      · exact (hold item').2 hheld

end Moves

/-! ## The counters -/

section Count

variable {n : ℕ}

theorem unfinished_congr {place' : Item → Place}
    (h : ∀ span ∈ eng.shards n, place' ⟨task, span⟩ = .finished ↔ place ⟨task, span⟩ = .finished) :
    unfinished eng place' task n = unfinished eng place task n := by
  unfold unfinished
  refine List.countP_congr fun span hspan => ?_
  rw [decide_eq_true_iff, decide_eq_true_iff, ne_eq, ne_eq, h span hspan]

/-- A shard that was not finished is now. -/
theorem unfinished_finish (hpos : 0 < n) (hn : n < sizeMod) (hmem : item.span ∈ eng.shards n)
    (hplace : place item ≠ .finished) :
    unfinished eng (Function.update place item .finished) item.task n + 1 =
      unfinished eng place item.task n := by
  have hperm := List.perm_cons_erase hmem
  have hnodup := (@Engine.shards_nodup eng n hn hpos).not_mem_erase (a := item.span)
  unfold unfinished
  rw [hperm.countP_eq, hperm.countP_eq, List.countP_cons_of_neg, List.countP_cons_of_pos]
  · congr 1
    refine List.countP_congr fun span hspan => ?_
    rw [Function.update_of_ne]
    intro heq
    have hsame : span = item.span := congrArg Item.span heq
    exact hnodup (hsame ▸ hspan)
  · exact decide_eq_true hplace
  · rw [Function.update_self]
    decide

/-- The shards of another copy are not touched. -/
theorem unfinished_other {place' : Item → Place}
    (h : ∀ item', item'.task = task → place' item' = place item') :
    unfinished eng place' task n = unfinished eng place task n :=
  unfinished_congr fun span _ => by rw [h ⟨task, span⟩ rfl]

theorem unfinished_eq_zero :
    unfinished eng place task n = 0 ↔ ∀ span ∈ eng.shards n, place ⟨task, span⟩ = .finished := by
  unfold unfinished
  rw [List.countP_eq_zero]
  refine forall₂_congr fun span _ => ?_
  rw [decide_eq_true_iff, not_not]

theorem unfinished_placed (hpos : 0 < n) (hn : n < sizeMod) :
    unfinished eng (placed st place p) st.tasks n = eng.numShards n := by
  unfold unfinished
  rw [List.countP_eq_length.2, Engine.shards_length hn hpos]
  intro span _
  rw [placed, if_pos rfl]
  rfl

theorem Counters.submit (h : Counters eng st place) (hpos : 0 < n) (hn : n < sizeMod) :
    Counters eng (st.submitted eng p n) (placed st place p) := by
  -- The old copies have their sizes and their places.
  have hold : ∀ task, task ≠ st.tasks →
      unfinished eng (placed st place p) task ((st.submitted eng p n).bytes task) =
        unfinished eng place task (st.bytes task) := by
    intro task hne
    show unfinished _ _ task (Function.update st.bytes st.tasks n task) = _
    rw [Function.update_of_ne hne]
    refine unfinished_other fun item' htask => if_neg ?_
    rw [htask]
    exact hne
  have hnew : unfinished eng (placed st place p) st.tasks ((st.submitted eng p n).bytes st.tasks) =
      eng.numShards n := by
    show unfinished _ _ st.tasks (Function.update st.bytes st.tasks n st.tasks) = _
    rw [Function.update_self, unfinished_placed hpos hn]
  refine ⟨fun task htask => ?_, fun task htask => ?_, fun task htask => ?_, h.pushing, h.pusher,
    h.pushed, h.nodup, h.completed⟩
  · show Function.update st.remaining st.tasks (eng.numShards n : ℤ) task = _
    by_cases heq : task = st.tasks
    · subst heq
      rw [hnew, Function.update_self]
    · rw [hold task heq, Function.update_of_ne heq]
      exact h.remaining task (by change task < st.tasks + 1 at htask; omega)
  · by_cases heq : task = st.tasks
    · subst heq
      rw [hnew, if_neg Engine.numShards_pos.ne']
      exact h.fresh st.tasks le_rfl
    · rw [hold task heq]
      exact h.zeros task (by change task < st.tasks + 1 at htask; omega)
  · exact h.fresh task ((Nat.le_succ _).trans htask)

/-- A worker that does not push changes to something else that does not. -/
theorem setWorker_pushing {a : Activity} (hold : ∀ task, st.worker (p, w) ≠ .pushing task)
    (hnew : ∀ task, a ≠ .pushing task) (p' w' task : ℕ) :
    (st.setWorker p w a).worker (p', w') = .pushing task ↔ st.worker (p', w') = .pushing task := by
  rw [setWorker_worker]
  split
  · rename_i heq
    obtain ⟨rfl, rfl⟩ := heq
    exact ⟨fun ha => absurd ha (hnew task), fun ha => absurd ha (hold task)⟩
  · rfl

/-- A worker changes to something that does not push, and no item is finished. -/
theorem Counters.setWorker {a : Activity} {f : Item → Place} (h : Counters eng st place)
    (hplace : ∀ item, f item = .finished ↔ place item = .finished)
    (hold : ∀ task, st.worker (p, w) ≠ .pushing task) (hnew : ∀ task, a ≠ .pushing task) :
    Counters eng (st.setWorker p w a) f := by
  have hcount : ∀ task n, unfinished eng f task n = unfinished eng place task n :=
    fun task n => unfinished_congr fun span _ => hplace _
  have hpushing := setWorker_pushing hold hnew
  refine ⟨fun task htask => ?_, fun task htask => ?_, h.fresh, fun p' w' task hw => ?_,
    fun p₁ w₁ p₂ w₂ task h₁ h₂ => ?_, h.pushed, h.nodup, fun task hz => ?_⟩
  · rw [hcount]
    exact h.remaining task htask
  · rw [hcount]
    exact h.zeros task htask
  · exact h.pushing p' w' task ((hpushing _ _ _).1 hw)
  · exact h.pusher _ _ _ _ task ((hpushing _ _ _).1 h₁) ((hpushing _ _ _).1 h₂)
  · rcases h.completed task hz with hmem | ⟨p', w', hw⟩
    · exact .inl hmem
    · exact .inr ⟨p', w', (hpushing _ _ _).2 hw⟩

/-- The worker lowers the counter. -/
theorem Counters.finish (h : Counters eng st place) (hi : Items eng st place)
    (hcopied : st.worker (p, w) = .copied item) :
    Counters eng
      { st.setWorker p w (if st.remaining item.task - 1 = 0 then .pushing item.task else .idle) with
        remaining := Function.update st.remaining item.task (st.remaining item.task - 1)
        zeros :=
          if st.remaining item.task - 1 = 0 then
            Function.update st.zeros item.task (st.zeros item.task + 1)
          else st.zeros }
      (Function.update place item .finished) := by
  obtain ⟨⟨htask, hspan⟩, hheld, -⟩ := hi.copied p w item hcopied
  obtain ⟨hpos, hn⟩ := hi.sizes item.task htask
  have hcount : unfinished eng (Function.update place item .finished) item.task _ + 1 =
      unfinished eng place item.task _ :=
    unfinished_finish hpos hn hspan (by rw [hheld]; exact nofun)
  have hremaining := h.remaining item.task htask
  have hzeros := h.zeros item.task htask
  rw [if_neg (by omega)] at hzeros
  have hother : ∀ task, task ≠ item.task → ∀ n,
      unfinished eng (Function.update place item .finished) task n =
        unfinished eng place task n := by
    intro task hne n
    refine unfinished_other fun item' hitem' => Function.update_of_ne ?_ ..
    rintro rfl
    exact hne hitem'.symm
  have hlower : ∀ task < st.tasks,
      Function.update st.remaining item.task (st.remaining item.task - 1) task =
        unfinished eng (Function.update place item .finished) task (st.bytes task) := by
    intro task ht
    by_cases heq : task = item.task
    · subst heq
      rw [Function.update_self]
      omega
    · rw [Function.update_of_ne heq, hother task heq]
      exact h.remaining task ht
  by_cases hlast : st.remaining item.task - 1 = 0
  · simp only [if_pos hlast]
    have hzero : ∀ task, Function.update st.zeros item.task (st.zeros item.task + 1) task = 1 ↔
        task = item.task ∨ st.zeros task = 1 := by
      intro task
      by_cases heq : task = item.task
      · subst heq
        rw [Function.update_self]
        simp [hzeros]
      · rw [Function.update_of_ne heq]
        simp [heq]
    have hnotyet : ∀ p' w', st.worker (p', w') ≠ .pushing item.task := by
      intro p' w' hw
      have hone := (h.pushing p' w' _ hw).1
      omega
    have hpushing : ∀ p' w' task, (st.setWorker p w (.pushing item.task)).worker (p', w') =
        .pushing task ↔
          (p' = p ∧ w' = w) ∧ task = item.task ∨ st.worker (p', w') = .pushing task := by
      intro p' w' task
      rw [setWorker_worker]
      split
      · rename_i heq
        obtain ⟨rfl, rfl⟩ := heq
        rw [hcopied]
        simp [eq_comm]
      · simp_all
    refine ⟨hlower, fun task ht => ?_, fun task ht => ?_, fun p' w' task hw => ?_,
      fun p₁ w₁ p₂ w₂ task h₁ h₂ => ?_, fun task hmem => ?_, h.nodup, fun task hz => ?_⟩
    · show Function.update st.zeros _ _ task = _
      by_cases heq : task = item.task
      · subst heq
        rw [Function.update_self, hzeros]
        show _ = if unfinished eng _ item.task (st.bytes item.task) = 0 then 1 else 0
        rw [if_pos (by omega)]
      · rw [Function.update_of_ne heq, hother task heq]
        exact h.zeros task ht
    · show Function.update st.zeros _ _ task = _
      rw [Function.update_of_ne (by change st.tasks ≤ task at ht; omega)]
      exact h.fresh task ht
    · rcases (hpushing p' w' task).1 hw with ⟨-, rfl⟩ | hw
      · refine ⟨(hzero _).2 (.inl rfl), fun hmem => ?_⟩
        have hone := h.pushed _ hmem
        omega
      · obtain ⟨hone, hnot⟩ := h.pushing p' w' task hw
        exact ⟨(hzero _).2 (.inr hone), hnot⟩
    · rcases (hpushing _ _ _).1 h₁ with ⟨⟨rfl, rfl⟩, rfl⟩ | h₁
      · rcases (hpushing _ _ _).1 h₂ with ⟨⟨rfl, rfl⟩, -⟩ | h₂
        · rfl
        · exact absurd h₂ (hnotyet _ _)
      · rcases (hpushing _ _ _).1 h₂ with ⟨-, rfl⟩ | h₂
        · exact absurd h₁ (hnotyet _ _)
        · exact h.pusher _ _ _ _ task h₁ h₂
    · exact (hzero _).2 (.inr (h.pushed task hmem))
    · rcases (hzero task).1 hz with rfl | hz
      · exact .inr ⟨p, w, (hpushing _ _ _).2 (.inl ⟨⟨rfl, rfl⟩, rfl⟩)⟩
      · rcases h.completed task hz with hmem | ⟨p', w', hw⟩
        · exact .inl hmem
        · exact .inr ⟨p', w', (hpushing _ _ _).2 (.inr hw)⟩
  · simp only [if_neg hlast]
    have hidle : ∀ task, st.worker (p, w) ≠ .pushing task := by
      intro task
      rw [hcopied]
      exact nofun
    have hpushing := setWorker_pushing (a := .idle) hidle fun _ => nofun
    refine ⟨hlower, fun task ht => ?_, h.fresh, fun p' w' task hw => ?_,
      fun p₁ w₁ p₂ w₂ task h₁ h₂ => ?_, h.pushed, h.nodup, fun task hz => ?_⟩
    · by_cases heq : task = item.task
      · subst heq
        show st.zeros _ = if unfinished eng _ item.task (st.bytes item.task) = 0 then 1 else 0
        rw [if_neg (by omega)]
        exact hzeros
      · rw [hother task heq]
        exact h.zeros task ht
    · exact h.pushing p' w' task ((hpushing _ _ _).1 hw)
    · exact h.pusher _ _ _ _ task ((hpushing _ _ _).1 h₁) ((hpushing _ _ _).1 h₂)
    · rcases h.completed task hz with hmem | ⟨p', w', hw⟩
      · exact .inl hmem
      · exact .inr ⟨p', w', (hpushing _ _ _).2 hw⟩

theorem Counters.push (h : Counters eng st place) (hpush : st.worker (p, w) = .pushing task) :
    Counters eng { st.setWorker p w .idle with completions := st.completions ++ [task] } place := by
  obtain ⟨hone, hnot⟩ := h.pushing p w task hpush
  have hpushing : ∀ p' w' task', (st.setWorker p w .idle).worker (p', w') = .pushing task' ↔
      st.worker (p', w') = .pushing task' ∧ task' ≠ task := by
    intro p' w' task'
    rw [setWorker_worker]
    split
    · rename_i heq
      obtain ⟨rfl, rfl⟩ := heq
      rw [hpush]
      refine ⟨nofun, fun hw => absurd (Activity.pushing.inj hw.1).symm hw.2⟩
    · rename_i hne
      refine ⟨fun hw => ⟨hw, ?_⟩, And.left⟩
      rintro rfl
      exact hne (Prod.mk.inj (h.pusher _ _ _ _ _ hw hpush))
  refine ⟨h.remaining, h.zeros, h.fresh, fun p' w' task' hw => ?_,
    fun p₁ w₁ p₂ w₂ task' h₁ h₂ => ?_, fun task' hmem => ?_, ?_, fun task' hz => ?_⟩
  · obtain ⟨hw, hne⟩ := (hpushing _ _ _).1 hw
    obtain ⟨hone', hnot'⟩ := h.pushing p' w' task' hw
    refine ⟨hone', fun hmem => ?_⟩
    rcases List.mem_append.1 hmem with hmem | hmem
    · exact hnot' hmem
    · exact hne (List.mem_singleton.1 hmem)
  · exact h.pusher _ _ _ _ task' ((hpushing _ _ _).1 h₁).1 ((hpushing _ _ _).1 h₂).1
  · rcases List.mem_append.1 hmem with hmem | hmem
    · exact h.pushed task' hmem
    · rw [List.mem_singleton.1 hmem]
      exact hone
  · refine List.Nodup.append h.nodup (List.nodup_singleton task) fun task' hmem hmem' => ?_
    rw [List.mem_singleton.1 hmem'] at hmem
    exact hnot hmem
  · by_cases heq : task' = task
    · rw [heq]
      exact .inl (List.mem_append_right _ (List.mem_singleton.2 rfl))
    · rcases h.completed task' hz with hmem | ⟨p', w', hw⟩
      · exact .inl (List.mem_append_left _ hmem)
      · exact .inr ⟨p', w', (hpushing _ _ _).2 ⟨hw, heq⟩⟩

end Count

/-! ## The runs -/

theorem Inv.step {l : Label} (h : Inv eng st) (hst : step eng st l = some st') : Inv eng st' := by
  obtain ⟨place, hitems, hcounters⟩ := h
  cases l with
  | submit p n =>
    simp only [H2HShards.step] at hst
    split at hst <;> cases hst
    rename_i hn
    exact ⟨_, hitems.submit hn.1 hn.2, hcounters.submit hn.1 hn.2⟩
  | take p w =>
    simp only [H2HShards.step] at hst
    split at hst
    · rename_i item rest hidle hpool
      split at hst <;> cases hst
      have hqueued := ((hitems.pool p item).1 (hpool ▸ List.mem_cons_self ..)).2
      have hcounts := hcounters.setWorker (p := p) (w := w) (a := .taken item)
        (f := Function.update place item (.held p w)) (fun item' => ?_)
        (by rw [hidle]; exact nofun) nofun
      · exact ⟨_, hitems.take hidle hpool, hcounts.remaining, hcounts.zeros, hcounts.fresh,
          hcounts.pushing, hcounts.pusher, hcounts.pushed, hcounts.nodup, hcounts.completed⟩
      · by_cases heq : item' = item
        · subst heq
          rw [Function.update_self, hqueued]
          exact ⟨nofun, nofun⟩
        · rw [Function.update_of_ne heq]
    · cases hst
  | copy p w =>
    simp only [H2HShards.step] at hst
    split at hst <;> cases hst
    rename_i item htaken
    have hcounts := hcounters.setWorker (p := p) (w := w) (a := .copied item) (f := place)
      (fun _ => Iff.rfl) (by rw [htaken]; exact nofun) nofun
    exact ⟨_, hitems.copy htaken, hcounts.remaining, hcounts.zeros, hcounts.fresh,
      hcounts.pushing, hcounts.pusher, hcounts.pushed, hcounts.nodup, hcounts.completed⟩
  | finish p w =>
    simp only [H2HShards.step] at hst
    split at hst <;> cases hst
    rename_i item hcopied
    have hmoved := hitems.finish (a := if st.remaining item.task - 1 = 0 then .pushing item.task
      else .idle) hcopied (by intro item'; split <;> exact nofun)
      (by intro item'; split <;> exact nofun)
    exact ⟨_, ⟨hmoved.sizes, hmoved.pool, hmoved.nodup, hmoved.taken, hmoved.copied, hmoved.held,
      hmoved.finished⟩, hcounters.finish hitems hcopied⟩
  | push p w =>
    simp only [H2HShards.step] at hst
    split at hst <;> cases hst
    rename_i task hpush
    have hmoved := hitems.push (p := p) (w := w) (a := .idle)
      (by intro item; rw [hpush]; exact ⟨nofun, nofun⟩) (by intro item; exact ⟨nofun, nofun⟩)
    exact ⟨_, ⟨hmoved.sizes, hmoved.pool, hmoved.nodup, hmoved.taken, hmoved.copied, hmoved.held,
      hmoved.finished⟩, hcounters.push hpush⟩

theorem start_inv : Inv eng start := by
  refine ⟨fun _ => .finished, ⟨nofun, fun p item => ?_, fun _ => List.nodup_nil, nofun, nofun,
    fun _ _ _ hb => ?_, fun _ hb => ?_⟩, ⟨nofun, nofun, fun _ _ => rfl, nofun, nofun, nofun,
    List.nodup_nil, nofun⟩⟩
  · exact ⟨nofun, fun h => absurd h.1.1 (Nat.not_lt_zero _)⟩
  · exact absurd hb.1 (Nat.not_lt_zero _)
  · exact absurd hb.1 (Nat.not_lt_zero _)

variable {ls : List Label}

theorem run_inv (hrun : (machine eng).runFrom Machine.anyStep start ls = some st) : Inv eng st :=
  (machine eng).invariant (fun _ _ _ h _ hst => h.step hst) start_inv hrun

/-- The counter of a copy is at zero when all its bytes are copied. -/
theorem Inv.copied_of_zeros (h : Inv eng st) (htask : task < st.tasks)
    (hz : st.zeros task = 1) {b : ℕ} (hb : b < st.bytes task) : ∃ item ∈ st.copied, item.task = task ∧ item.span.Covers b := by
  obtain ⟨place, hitems, hcounters⟩ := h
  obtain ⟨hpos, hn⟩ := hitems.sizes task htask
  have hzero : unfinished eng place task (st.bytes task) = 0 := by
    by_contra hne
    have hzeros := hcounters.zeros task htask
    rw [if_neg hne] at hzeros
    omega
  obtain ⟨span, hspan, hcovers⟩ :=
    ((@Engine.tiles_shards eng _ hn hpos).covers_iff (x := b)).2 ⟨Nat.zero_le b, hb⟩
  refine ⟨⟨task, span⟩, ?_, rfl, hcovers⟩
  exact hitems.finished _ ⟨htask, hspan⟩ (unfinished_eq_zero.1 hzero span hspan)

/-- Nothing is left to do, so every counter is through. -/
theorem Inv.drained (h : Inv eng st) (hdrained : Drained st) (htask : task < st.tasks) :
    st.remaining task = 0 ∧ st.zeros task = 1 ∧ st.completions.count task = 1 := by
  obtain ⟨place, hitems, hcounters⟩ := h
  have hzero : unfinished eng place task (st.bytes task) = 0 := by
    refine unfinished_eq_zero.2 fun span hspan => ?_
    have hb : Belongs eng st ⟨task, span⟩ := ⟨htask, hspan⟩
    cases hplace : place ⟨task, span⟩ with
    | queued p =>
      have hmem := (hitems.pool p _).2 ⟨hb, hplace⟩
      rw [hdrained.pool] at hmem
      exact absurd hmem List.not_mem_nil
    | held p w =>
      have hheld := hitems.held p w _ hb hplace
      rw [hdrained.worker] at hheld
      exact absurd hheld (by simp)
    | finished => rfl
  have hone : st.zeros task = 1 := by rw [hcounters.zeros task htask, if_pos hzero]
  refine ⟨by rw [hcounters.remaining task htask, hzero]; rfl, hone, ?_⟩
  refine List.count_eq_one_of_mem hcounters.nodup ?_
  refine (hcounters.completed task hone).resolve_right ?_
  rintro ⟨p, w, hw⟩
  rw [hdrained.worker] at hw
  cases hw

/-- As long as something is left to do, some worker can go on. -/
theorem exists_step_of_not_drained (hnot : ¬ Drained st) :
    ∃ p w, (step eng st (.take p w)).isSome ∨ (step eng st (.copy p w)).isSome ∨
      (step eng st (.finish p w)).isSome ∨ (step eng st (.push p w)).isSome := by
  by_contra hstuck
  push Not at hstuck
  have hidle : ∀ p w, st.worker (p, w) = .idle := by
    intro p w
    obtain ⟨-, hcopy, hfinish, hpush⟩ := hstuck p w
    cases hw : st.worker (p, w) with
    | idle => rfl
    | taken item => simp [H2HShards.step, hw] at hcopy
    | copied item => simp [H2HShards.step, hw] at hfinish
    | pushing task => simp [H2HShards.step, hw] at hpush
  refine hnot ⟨fun p => ?_, hidle⟩
  obtain ⟨htake, -⟩ := hstuck p 0
  cases hpool : st.pool p with
  | nil => rfl
  | cons item rest => simp [H2HShards.step, hidle, hpool, eng.workers_pos] at htake

/-- **The shards of a copy are a cut of it, and its counter ends once.**  For every number of
workers and every minimum, all shards of a copy are queued, none is empty, no two overlap, and they
have all its bytes.  In every run, of any copies and in any order of the workers, the counter of a
copy reaches zero at most once and at most one completion is pushed, which is after all bytes are
copied; when nothing is left to do, each has happened once, and until then some worker can go on. -/
theorem h2h_shards (eng : Engine) :
    (∀ bytes, 0 < bytes → bytes < sizeMod →
      (eng.shards bytes).length = eng.numShards bytes ∧
      (∀ s ∈ eng.shards bytes, 0 < s.len) ∧
      (eng.shards bytes).Pairwise (fun s t => ∀ x, s.Covers x → ¬ t.Covers x) ∧
      ∀ x, (∃ s ∈ eng.shards bytes, s.Covers x) ↔ x < bytes) ∧
    ∀ ls st, (machine eng).runFrom Machine.anyStep start ls = some st →
      (∀ task < st.tasks, st.zeros task ≤ 1 ∧ st.completions.count task ≤ 1 ∧
        (task ∈ st.completions → st.zeros task = 1) ∧
        (st.zeros task = 1 → ∀ b < st.bytes task,
          ∃ item ∈ st.copied, item.task = task ∧ item.span.Covers b) ∧
        (Drained st →
          st.remaining task = 0 ∧ st.zeros task = 1 ∧ st.completions.count task = 1)) ∧
      (¬ Drained st →
        ∃ p w, (step eng st (.take p w)).isSome ∨ (step eng st (.copy p w)).isSome ∨
          (step eng st (.finish p w)).isSome ∨ (step eng st (.push p w)).isSome) := by
  refine ⟨fun bytes hpos hn => ?_, fun ls st hrun => ⟨fun task htask => ?_, exists_step_of_not_drained⟩⟩
  · have htiles := @Engine.tiles_shards eng _ hn hpos
    refine ⟨Engine.shards_length hn hpos, fun s hs => Engine.shards_nonempty hn hpos hs,
      htiles.disjoint, fun x => ?_⟩
    rw [htiles.covers_iff]
    exact ⟨And.right, fun hx => ⟨Nat.zero_le x, hx⟩⟩
  · have hinv := run_inv hrun
    obtain ⟨place, hitems, hcounters⟩ := hinv
    refine ⟨?_, List.nodup_iff_count_le_one.1 hcounters.nodup task, hcounters.pushed task,
      fun hz b hb => (run_inv hrun).copied_of_zeros htask hz hb,
      fun hdrained => (run_inv hrun).drained hdrained htask⟩
    rw [hcounters.zeros task htask]
    split <;> omega

/-- A copy of 200000 bytes by the defaults, whose second shard is through first. -/
def pairRun : List Label :=
  [.submit 0 200000, .take 0 0, .take 0 1, .copy 0 1, .finish 0 1, .copy 0 0, .finish 0 0, .push 0 0]

theorem h2h_shards_pair :
    ((Engine.fromEnv none none).shards 200000).length =
        (Engine.fromEnv none none).numShards 200000 ∧
      ∃ st, (machine (Engine.fromEnv none none)).runFrom Machine.anyStep start pairRun = some st ∧
        st.completions = [0] ∧
        ∀ b < 200000, ∃ item ∈ st.copied, item.task = 0 ∧ item.span.Covers b := by
  obtain ⟨hcut, hruns⟩ := h2h_shards (Engine.fromEnv none none)
  have hseen : ((machine (Engine.fromEnv none none)).runFrom Machine.anyStep start pairRun).map
      (fun st => (st.completions, st.tasks, st.bytes 0, st.zeros 0)) = some ([0], 1, 200000, 1) := by
    decide +kernel
  obtain ⟨st, hrun, heq⟩ := Option.map_eq_some_iff.1 hseen
  simp only [Prod.mk.injEq] at heq
  obtain ⟨hcompletions, htasks, hbytes, hzeros⟩ := heq
  have hlt : 0 < st.tasks := by omega
  obtain ⟨-, -, -, hcopied, -⟩ := (hruns pairRun st hrun).1 0 hlt
  rw [hbytes] at hcopied
  exact ⟨(hcut 200000 (by decide) (by decide)).1, st, hrun, hcompletions, hcopied hzeros⟩

end H2HShards
end Ascend
end HyLink
