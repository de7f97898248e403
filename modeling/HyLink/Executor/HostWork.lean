import HyLink.Theory.Shares
import HyLink.Ir.Slices
import HyLink.Api.Submit

/-!
# The work of the host-to-host engine

A subchunk of a copy or a reduction between host buffers is queued once for each thread;
`processGraphWork` finds the thread's own part of it.  A copy is shared out in bytes, a reduction in
elements.

* `Task.myStart`, `Task.myEnd` — the bytes a thread is given.
* `Task.flatMap_elements` — what the threads work on is what one thread would, in order.
* `Task.run_parallel` — the threads together leave the same bytes as one.
* `partitions_iff` — when the bytes they process are the subchunk.
-/

namespace HyLink
namespace Executor
namespace HostWork

open Theory Ir Api

/-- `scalarElementSize` -/
def scalarElementSize : ScalarDataType → ℕ
  | .int8 | .uint8 => 1
  | .float16 | .bfloat16 => 2
  | .int32 | .uint32 | .float32 => 4
  | .int64 | .uint64 | .float64 => 8

/-- `reduceHostBuffer` reduces this type; for the others it logs an error. -/
def hostReduces : ScalarDataType → Bool
  | .float16 | .bfloat16 => false
  | _ => true

/-- A subchunk of a host-to-host node, as it is queued for some threads. -/
structure Task where
  env : Env
  chunkSize : ℕ
  workBytes : ℕ
  /-- The number of the subchunk. -/
  sc : ℕ
  isCopy : Bool
  scalarType : ScalarDataType
  reduceOp : ReduceOpKind
  elementSize : ℕ
  numThreads : ℕ
  elementSize_eq : elementSize = 0 ∨ elementSize = scalarElementSize scalarType
  numThreads_pos : 0 < numThreads

namespace Task

variable (t : Task)

def slice : ℕ := pcclSubchunkSliceFor t.env t.chunkSize

/-- Where the subchunk begins in its chunk. -/
def offset : ℕ := t.sc * t.slice

/-- `graph_bytes`, which is `subchunkSize` of the node. -/
def bytes : ℕ := if t.workBytes ≤ t.offset then 0 else min t.slice (t.workBytes - t.offset)

def unit : ℕ :=
  if t.isCopy then 1
  else max 1 (if t.elementSize ≠ 0 then t.elementSize else scalarElementSize t.scalarType)

def units : ℕ := t.bytes / t.unit

def perThreadUnits : ℕ := (t.units + t.numThreads - 1) / t.numThreads

def myStart (tid : ℕ) : ℕ := min (tid * t.perThreadUnits * t.unit) t.bytes

def myEnd (tid : ℕ) : ℕ := min (t.myStart tid + t.perThreadUnits * t.unit) t.bytes

/-- The bytes of a call of `hostMemcpy`, or the elements of a call of `reduceHostBuffer`. -/
def countOf (bytes : ℕ) : ℕ :=
  if t.isCopy then bytes
  else if hostReduces t.scalarType then bytes / scalarElementSize t.scalarType else 0

/-- What a thread works on, counted in units of the subchunk. -/
def elements (tid : ℕ) : List ℕ :=
  List.range' (t.myStart tid / t.unit) (t.countOf (t.myEnd tid - t.myStart tid))

/-- The byte is one that the thread processes. -/
def Processes (tid a : ℕ) : Prop :=
  t.myStart tid ≤ a ∧ a < t.myStart tid + t.countOf (t.myEnd tid - t.myStart tid) * t.unit

end Task

/-! ## The buffers -/

abbrev Memory := ℕ → UInt8

/-- The buffers of a task. -/
structure Buffers where
  dst : ℕ
  src1 : ℕ
  src2 : ℕ

/-- The source is the destination, or apart from it. -/
def Apart (dst src bytes : ℕ) : Prop := src = dst ∨ src + bytes ≤ dst ∨ dst + bytes ≤ src

/-- The bytes of an element. -/
def load (m : Memory) (a width : ℕ) : List UInt8 := (List.range width).map fun i => m (a + i)

def store (m : Memory) (a : ℕ) (bytes : List UInt8) : Memory := fun x =>
  if a ≤ x ∧ x < a + bytes.length then bytes.getD (x - a) 0 else m x

section Run

/-! `reduceValue` works on the bytes of two elements. -/

variable (reduceValue : ScalarDataType → ReduceOpKind → List UInt8 → List UInt8 → List UInt8)

/-- A unit is copied, or an element reduced. -/
def Task.work (t : Task) (b : Buffers) (m : Memory) (e : ℕ) : Memory :=
  let first := load m (b.src1 + e * t.unit) t.unit
  let value := if t.isCopy then first else
    reduceValue t.scalarType t.reduceOp first (load m (b.src2 + e * t.unit) t.unit)
  store m (b.dst + e * t.unit) (value.take t.unit)

/-- One thread copies or reduces the subchunk. -/
def Task.sequential (t : Task) (b : Buffers) (m : Memory) : Memory :=
  (List.range (t.countOf t.bytes)).foldl (t.work reduceValue b) m

end Run

/-! ## The shares of the threads -/

namespace Task

variable (t : Task)

theorem unit_pos : 0 < t.unit := by
  unfold unit
  split
  · exact Nat.one_pos
  · exact lt_max_of_lt_left Nat.one_pos

theorem scalarElementSize_pos (type : ScalarDataType) : 0 < scalarElementSize type := by
  cases type <;> decide

theorem unit_eq (h : t.isCopy = false) : t.unit = scalarElementSize t.scalarType := by
  have hpos := scalarElementSize_pos t.scalarType
  unfold unit
  rw [if_neg (by simp [h])]
  rcases t.elementSize_eq with hzero | heq
  · rw [if_neg (by simp [hzero])]
    omega
  · rw [heq, if_pos (by omega)]
    omega

/-- The call of a thread works on something. -/
def Works : Prop := t.isCopy = true ∨ hostReduces t.scalarType = true

theorem countOf_eq (h : t.Works) (bytes : ℕ) : t.countOf bytes = bytes / t.unit := by
  unfold countOf
  cases hcopy : t.isCopy with
  | true => simp [unit, hcopy]
  | false =>
    have hreduces : hostReduces t.scalarType = true := h.resolve_left (by simp [hcopy])
    rw [t.unit_eq hcopy, if_neg (by simp), if_pos hreduces]

theorem countOf_eq_zero (h : ¬t.Works) (bytes : ℕ) : t.countOf bytes = 0 := by
  unfold Works at h
  rw [not_or] at h
  unfold countOf
  rw [if_neg h.1, if_neg h.2]

/-- What is left of the subchunk for a thread, in units. -/
theorem count_eq (h : t.Works) (tid : ℕ) :
    t.countOf (t.myEnd tid - t.myStart tid) =
      min t.perThreadUnits (t.units - tid * t.perThreadUnits) := by
  have hpos := t.unit_pos
  have hmono : Monotone fun x => x / t.unit := fun _ _ hle => Nat.div_le_div_right hle
  have hlength : t.myEnd tid - t.myStart tid =
      min (t.perThreadUnits * t.unit) (t.bytes - t.unit * (tid * t.perThreadUnits)) := by
    unfold myEnd myStart
    rw [Nat.mul_comm t.unit]
    omega
  rw [t.countOf_eq h, hlength, hmono.map_min, Nat.mul_div_cancel _ hpos, Nat.sub_mul_div]
  rfl

/-- A thread with something left begins at its first unit. -/
theorem myStart_eq {tid : ℕ} (h : tid * t.perThreadUnits < t.units) :
    t.myStart tid = tid * t.perThreadUnits * t.unit := by
  have hle : t.units * t.unit ≤ t.bytes := Nat.div_mul_le_self _ _
  have hlt := Nat.mul_le_mul_right t.unit h.le
  unfold myStart
  omega

/-- **What a thread works on** is a share of the units. -/
theorem elements_eq (h : t.Works) (tid : ℕ) :
    t.elements tid = share t.units t.perThreadUnits tid := by
  unfold elements share
  rw [t.count_eq h]
  rcases Nat.lt_or_ge (tid * t.perThreadUnits) t.units with hlt | hge
  · rw [t.myStart_eq hlt, Nat.mul_div_cancel _ t.unit_pos]
  · rw [show t.units - tid * t.perThreadUnits = 0 by omega, Nat.min_zero, List.range'_zero,
      List.range'_zero]

theorem elements_eq_nil (h : ¬t.Works) (tid : ℕ) : t.elements tid = [] := by
  unfold elements
  rw [t.countOf_eq_zero h, List.range'_zero]

/-- **What the threads work on** is what one thread would. -/
theorem flatMap_elements :
    (List.range t.numThreads).flatMap t.elements = List.range (t.countOf t.bytes) := by
  by_cases h : t.Works
  · have hall : t.elements = share t.units t.perThreadUnits := funext (t.elements_eq h)
    rw [hall, flatMap_share, t.countOf_eq h]
    exact congrArg List.range (Nat.min_eq_right (le_mul_divUp t.numThreads_pos))
  · have hall : t.elements = fun _ => [] := funext (t.elements_eq_nil h)
    rw [hall, t.countOf_eq_zero h, List.range_zero]
    exact List.flatMap_eq_nil_iff.2 fun _ _ => rfl

/-- A byte is processed with its unit. -/
theorem processes_iff (h : t.Works) (tid a : ℕ) :
    t.Processes tid a ↔ a / t.unit ∈ t.elements tid := by
  have hpos := t.unit_pos
  unfold Processes
  rw [t.count_eq h, t.elements_eq h, mem_share, Nat.le_div_iff_mul_le hpos,
    Nat.div_lt_iff_lt_mul hpos, Nat.div_lt_iff_lt_mul hpos]
  rcases Nat.lt_or_ge (tid * t.perThreadUnits) t.units with hlt | hge
  · have hend : tid * t.perThreadUnits + min t.perThreadUnits (t.units - tid * t.perThreadUnits) =
        min (tid * t.perThreadUnits + t.perThreadUnits) t.units := by
      omega
    rw [t.myStart_eq hlt, ← Nat.add_mul, hend, ← Nat.mul_min_mul_right, lt_min_iff]
  · rw [show t.units - tid * t.perThreadUnits = 0 by omega, Nat.min_zero, Nat.zero_mul]
    have := Nat.mul_le_mul_right t.unit hge
    omega

/-- **A byte is processed** by some thread just when its unit is whole. -/
theorem exists_processes_iff (a : ℕ) :
    (∃ tid < t.numThreads, t.Processes tid a) ↔ a < t.countOf t.bytes * t.unit := by
  have hflat : (∃ tid < t.numThreads, a / t.unit ∈ t.elements tid) ↔
      a < t.countOf t.bytes * t.unit := by
    rw [← Nat.div_lt_iff_lt_mul t.unit_pos, ← List.mem_range, ← flatMap_elements, List.mem_flatMap]
    simp only [List.mem_range]
  by_cases h : t.Works
  · simp only [t.processes_iff h]
    exact hflat
  · unfold Processes
    simp only [t.countOf_eq_zero h, Nat.zero_mul, Nat.add_zero, Nat.not_lt_zero, iff_false]
    rintro ⟨tid, -, hle, hlt⟩
    omega

end Task

/-! ## The bytes that are left -/

theorem load_store {m : Memory} {a b width : ℕ} {bytes : List UInt8}
    (h : b + width ≤ a ∨ a + bytes.length ≤ b) : load (store m a bytes) b width = load m b width := by
  unfold load store
  refine List.map_congr_left fun i hi => ?_
  have := List.mem_range.1 hi
  rw [if_neg (by omega)]

theorem store_comm {m : Memory} {a b : ℕ} {bytes bytes' : List UInt8}
    (h : a + bytes.length ≤ b ∨ b + bytes'.length ≤ a) :
    store (store m a bytes) b bytes' = store (store m b bytes') a bytes := by
  funext x
  unfold store
  by_cases ha : a ≤ x ∧ x < a + bytes.length
  · rw [if_neg (by omega), if_pos ha, if_pos ha]
  · rw [if_neg ha, if_neg ha]

namespace Task

variable (t : Task)
variable {reduceValue : ScalarDataType → ReduceOpKind → List UInt8 → List UInt8 → List UInt8}

/-- The whole units of a subchunk are in it. -/
theorem count_mul_le : t.countOf t.bytes * t.unit ≤ t.bytes := by
  by_cases h : t.Works
  · rw [t.countOf_eq h]
    exact Nat.div_mul_le_self _ _
  · rw [t.countOf_eq_zero h, Nat.zero_mul]
    exact Nat.zero_le _

theorem unit_le {e : ℕ} (he : e < t.countOf t.bytes) : e * t.unit + t.unit ≤ t.bytes := by
  have hmul := Nat.mul_le_mul_right t.unit (Nat.succ_le_of_lt he)
  rw [Nat.succ_mul] at hmul
  exact hmul.trans t.count_mul_le

/-- Two elements do not touch. -/
theorem unit_apart {e e' : ℕ} (h : e ≠ e') :
    e * t.unit + t.unit ≤ e' * t.unit ∨ e' * t.unit + t.unit ≤ e * t.unit := by
  rcases Nat.lt_or_gt_of_ne h with hlt | hgt
  · have := Nat.mul_le_mul_right t.unit (Nat.succ_le_of_lt hlt)
    rw [Nat.succ_mul] at this
    exact .inl this
  · have := Nat.mul_le_mul_right t.unit (Nat.succ_le_of_lt hgt)
    rw [Nat.succ_mul] at this
    exact .inr this

/-- A source element is not touched by what is written for another one. -/
theorem source_apart {dst src e e' : ℕ} (hsrc : Apart dst src t.bytes) (h : e ≠ e')
    (he : e < t.countOf t.bytes) (he' : e' < t.countOf t.bytes) {bytes : List UInt8}
    (hlength : bytes.length ≤ t.unit) :
    src + e' * t.unit + t.unit ≤ dst + e * t.unit ∨
      dst + e * t.unit + bytes.length ≤ src + e' * t.unit := by
  have h1 := t.unit_le he
  have h2 := t.unit_le he'
  have h3 := t.unit_apart h
  rcases hsrc with rfl | hbelow | habove
  · omega
  · omega
  · omega

/-- **Two elements** may be worked on in either order. -/
theorem work_comm {b : Buffers} (hsrc1 : Apart b.dst b.src1 t.bytes)
    (hsrc2 : Apart b.dst b.src2 t.bytes) {e e' : ℕ} (he : e < t.countOf t.bytes)
    (he' : e' < t.countOf t.bytes) (h : e ≠ e') (m : Memory) :
    t.work reduceValue b (t.work reduceValue b m e) e' =
      t.work reduceValue b (t.work reduceValue b m e') e := by
  have hload1 (m : Memory) {x y : ℕ} (hx : x < t.countOf t.bytes) (hy : y < t.countOf t.bytes)
      (hxy : x ≠ y) (value : List UInt8) :
      load (store m (b.dst + x * t.unit) (value.take t.unit)) (b.src1 + y * t.unit) t.unit =
        load m (b.src1 + y * t.unit) t.unit :=
    load_store (t.source_apart hsrc1 hxy hx hy (List.length_take_le _ _))
  have hload2 (m : Memory) {x y : ℕ} (hx : x < t.countOf t.bytes) (hy : y < t.countOf t.bytes)
      (hxy : x ≠ y) (value : List UInt8) :
      load (store m (b.dst + x * t.unit) (value.take t.unit)) (b.src2 + y * t.unit) t.unit =
        load m (b.src2 + y * t.unit) t.unit :=
    load_store (t.source_apart hsrc2 hxy hx hy (List.length_take_le _ _))
  unfold work
  dsimp only
  rw [hload1 m he he' h, hload2 m he he' h, hload1 m he' he h.symm, hload2 m he' he h.symm]
  refine store_comm ?_
  have hlength (value : List UInt8) : (value.take t.unit).length ≤ t.unit :=
    List.length_take_le _ _
  have h1 := hlength (if t.isCopy then load m (b.src1 + e * t.unit) t.unit else
    reduceValue t.scalarType t.reduceOp (load m (b.src1 + e * t.unit) t.unit)
      (load m (b.src2 + e * t.unit) t.unit))
  have h2 := hlength (if t.isCopy then load m (b.src1 + e' * t.unit) t.unit else
    reduceValue t.scalarType t.reduceOp (load m (b.src1 + e' * t.unit) t.unit)
      (load m (b.src2 + e' * t.unit) t.unit))
  have h3 := t.unit_apart h
  omega

/-- **The threads leave what one thread leaves**, in whatever order they get to their elements. -/
theorem run_parallel {b : Buffers} (hsrc1 : Apart b.dst b.src1 t.bytes)
    (hsrc2 : Apart b.dst b.src2 t.bytes) {order : List ℕ}
    (horder : order.Perm ((List.range t.numThreads).flatMap t.elements)) (m : Memory) :
    order.foldl (t.work reduceValue b) m = t.sequential reduceValue b m := by
  rw [flatMap_elements] at horder
  exact run_perm horder
    (fun _ hx _ hy hxy m => t.work_comm hsrc1 hsrc2 hx hy hxy m) m

/-! ## When the shares are the subchunk -/

/-- The bytes the threads process are disjoint, begin at elements, are the subchunk, and are left as
one thread leaves them. -/
structure Partitions : Prop where
  disjoint : ∀ i < t.numThreads, ∀ j < t.numThreads, i ≠ j →
    ∀ a, t.Processes i a → ¬t.Processes j a
  aligned : ∀ i < t.numThreads, t.Processes i (t.myStart i) → t.unit ∣ t.offset + t.myStart i
  cover : ∀ a, a < t.bytes ↔ ∃ i < t.numThreads, t.Processes i a
  same : ∀ (reduceValue : ScalarDataType → ReduceOpKind → List UInt8 → List UInt8 → List UInt8)
    (b : Buffers), Apart b.dst b.src1 t.bytes → Apart b.dst b.src2 t.bytes → ∀ order : List ℕ,
      order.Perm ((List.range t.numThreads).flatMap t.elements) → ∀ m,
        order.foldl (t.work reduceValue b) m = t.sequential reduceValue b m

/-- A copy, or a reduction the host makes of whole elements from the start of one. -/
def Whole : Prop :=
  t.bytes = 0 ∨ t.isCopy = true ∨
    hostReduces t.scalarType = true ∧ t.unit ∣ t.offset ∧ t.unit ∣ t.bytes

theorem not_processes (h : ¬t.Works) (tid a : ℕ) : ¬t.Processes tid a := by
  unfold Processes
  rw [t.countOf_eq_zero h]
  omega

/-- Every thread begins at a unit of the subchunk, if it processes anything. -/
theorem unit_dvd_myStart {tid : ℕ} (h : t.Processes tid (t.myStart tid)) :
    t.unit ∣ t.myStart tid := by
  have hworks : t.Works := by
    by_contra hnot
    exact t.not_processes hnot _ _ h
  have hlt : tid * t.perThreadUnits < t.units := by
    rw [t.processes_iff hworks, t.elements_eq hworks, mem_share] at h
    omega
  rw [t.myStart_eq hlt]
  exact Nat.dvd_mul_left _ _

theorem unit_eq_one (h : t.isCopy = true) : t.unit = 1 := by
  unfold unit
  rw [if_pos h]

/-- **When the shares are the subchunk.**  For every byte count, element type, number of threads and
slice size. -/
theorem partitions_iff : t.Partitions ↔ t.Whole := by
  constructor
  · intro h
    rcases Nat.eq_zero_or_pos t.bytes with hzero | hpos
    · exact .inl hzero
    refine .inr ?_
    rcases hcopy : t.isCopy with _ | _
    · have hlast := (t.exists_processes_iff (t.bytes - 1)).1 ((h.cover _).1 (by omega))
      have hworks : t.Works := by
        by_contra hnot
        rw [t.countOf_eq_zero hnot] at hlast
        omega
      rw [t.countOf_eq hworks] at hlast
      have hle : t.bytes / t.unit * t.unit ≤ t.bytes := Nat.div_mul_le_self _ _
      refine .inr ⟨hworks.resolve_left (by simp [hcopy]), ?_, ⟨t.bytes / t.unit, ?_⟩⟩
      · -- the thread with the first byte begins with it
        obtain ⟨tid, htid, hfirst⟩ := (h.cover 0).1 hpos
        have hstart : t.myStart tid = 0 := Nat.le_zero.1 hfirst.1
        have haligned := h.aligned tid htid (hstart.symm ▸ hfirst)
        rwa [hstart, Nat.add_zero] at haligned
      · rw [Nat.mul_comm]
        omega
    · exact .inl rfl
  · intro h
    refine ⟨?_, ?_, ?_, ?_⟩
    · intro i _ j _ hne a hi hj
      by_cases hworks : t.Works
      · rw [t.processes_iff hworks, t.elements_eq hworks] at hi hj
        exact hne (share_disjoint hi hj)
      · exact t.not_processes hworks _ _ hi
    · intro i _ hi
      have hstart := t.unit_dvd_myStart hi
      rcases h with hzero | hcopy | ⟨-, hoffset, -⟩
      · have hnone := (t.exists_processes_iff _).1 ⟨i, ‹_›, hi⟩
        have := t.count_mul_le
        omega
      · rw [t.unit_eq_one hcopy]
        exact Nat.one_dvd _
      · exact Nat.dvd_add hoffset hstart
    · intro a
      rw [t.exists_processes_iff]
      rcases h with hzero | hcopy | ⟨hreduces, -, hbytes⟩
      · have := t.count_mul_le
        omega
      · rw [t.countOf_eq (.inl hcopy), t.unit_eq_one hcopy, Nat.div_one, Nat.mul_one]
      · rw [t.countOf_eq (.inr hreduces), Nat.div_mul_cancel hbytes]
    · intro reduceValue b hsrc1 hsrc2 order horder m
      exact t.run_parallel hsrc1 hsrc2 horder m

end Task

/-- The first subchunk of two slices of 4098 bytes, which is forced, of floats. -/
def forced : Task where
  env := { subchunkSliceSize := some 4098 }
  chunkSize := 8196
  workBytes := 8196
  sc := 0
  isCopy := false
  scalarType := .float32
  reduceOp := .sum
  elementSize := 4
  numThreads := 16
  elementSize_eq := .inr rfl
  numThreads_pos := by decide

/-- Its last two bytes are in no element. -/
theorem forced_drops : ¬ ∀ t : Task, t.Partitions := by
  intro hall
  have h := forced.partitions_iff.1 (hall forced)
  unfold Task.Whole at h
  exact absurd h (by decide)

end HostWork
end Executor
end HyLink
