import Mathlib.Algebra.Order.Floor.Semiring
import Mathlib.Data.Rat.Floor
import HyLink.Orchestrator.Controller
import HyLink.Theory.Ladder

/-!
# The size buckets

`SizeBucket::BucketBytes` climbs from the base by a ratio, rounding up each time, until the next
boundary is above the size.  `double` is a number of any ordered field with a floor.

* `bucketFrom` — the loop; that it ends is the termination of the function.
* `bucketBytes_onRung` — the bucket is the last boundary that is not above the size.
* `size_buckets` — it is monotone and idempotent, and keys are equal just if their sizes are, below
  the base, or share a bucket, above it.
-/

namespace HyLink
namespace Orchestrator
namespace Feedback

open Theory

variable {K : Type} [Field K] [LinearOrder K] [FloorSemiring K]

/-- `std::numeric_limits<size_t>::max()` -/
def sizeMax : ℕ := 2 ^ 64 - 1

/-- The loop of `BucketBytes`. -/
def bucketFrom (ratio : K) (bytes bucket : ℕ) : ℕ :=
  let next := ⌈(bucket : K) * ratio⌉₊
  if sizeMax < next then bucket
  else if next ≤ bucket then
    if bucket = sizeMax then bucket
    else if bytes < bucket + 1 then bucket
    else bucketFrom ratio bytes (bucket + 1)
  else if bytes < next then bucket
  else bucketFrom ratio bytes next
termination_by bytes - bucket

/-- `BucketBytes` -/
def bucketBytes (ratio : K) (base bytes : ℕ) : ℕ :=
  if base = 0 ∨ bytes < base then 0 else bucketFrom ratio bytes base

/-- `MakeOpKey` -/
def makeOpKey (ratio : K) (base : ℕ) (op : CollectiveType)
    (bytes datatype nranks topologyHash : ℕ) : OpKey :=
  ⟨op, bytes, bucketBytes ratio base bytes, datatype, nranks, topologyHash⟩

/-! ## The boundaries -/

/-- The boundary after a bucket: rounded up, and at least one step. -/
def nextBoundary (ratio : K) (bucket : ℕ) : ℕ :=
  if ⌈(bucket : K) * ratio⌉₊ ≤ bucket then bucket + 1 else ⌈(bucket : K) * ratio⌉₊

variable (ratio : K) {base bytes bytes' : ℕ}

theorem lt_nextBoundary (bucket : ℕ) : bucket < nextBoundary ratio bucket := by
  unfold nextBoundary
  split <;> omega

/-- **The loop ends at the boundary whose successor is above the size.** -/
theorem bucketFrom_eq {bucket : ℕ} (hle : bucket ≤ bytes) (hmax : bytes ≤ sizeMax) :
    ∃ k, bucketFrom ratio bytes bucket = rung (nextBoundary ratio) bucket k ∧
      OnRung (nextBoundary ratio) bucket k bytes := by
  fun_induction bucketFrom ratio bytes bucket with
  | case1 bucket next hover =>
    refine ⟨0, rfl, hle, ?_⟩
    show bytes < nextBoundary ratio bucket
    rw [nextBoundary, if_neg (show ¬next ≤ bucket by omega)]
    exact hmax.trans_lt hover
  | case2 next _ hstall =>
    refine ⟨0, rfl, hle, ?_⟩
    show bytes < nextBoundary ratio sizeMax
    rw [nextBoundary, if_pos hstall]
    omega
  | case3 bucket next _ hstall _ hlt =>
    refine ⟨0, rfl, hle, ?_⟩
    show bytes < nextBoundary ratio bucket
    rw [nextBoundary, if_pos hstall]
    exact hlt
  | case4 bucket next _ hstall _ hge ih =>
    have hnext : nextBoundary ratio bucket = bucket + 1 := if_pos hstall
    obtain ⟨k, hk, hon⟩ := ih (not_lt.1 hge)
    rw [← hnext] at hk hon ⊢
    exact ⟨k + 1, hk.trans rung_up, onRung_up.1 hon⟩
  | case5 bucket next _ hstep hlt =>
    refine ⟨0, rfl, hle, ?_⟩
    show bytes < nextBoundary ratio bucket
    rw [nextBoundary, if_neg hstep]
    exact hlt
  | case6 bucket next _ hstep hge ih =>
    have hnext : nextBoundary ratio bucket = next := if_neg hstep
    obtain ⟨k, hk, hon⟩ := ih (not_lt.1 hge)
    rw [← hnext] at hk hon ⊢
    exact ⟨k + 1, hk.trans rung_up, onRung_up.1 hon⟩

/-- **The bucket** of a size from the base on is the last boundary that is not above it. -/
theorem bucketBytes_onRung (hbase : 0 < base) (hle : base ≤ bytes) (hmax : bytes ≤ sizeMax) :
    ∃ k, bucketBytes ratio base bytes = rung (nextBoundary ratio) base k ∧
      OnRung (nextBoundary ratio) base k bytes := by
  unfold bucketBytes
  rw [if_neg (by omega)]
  exact bucketFrom_eq ratio hle hmax

theorem bucketBytes_below (h : bytes < base) : bucketBytes ratio base bytes = 0 :=
  if_pos (.inr h)

/-- A rung is a bucket of its own. -/
theorem base_le_bucketBytes (hbase : 0 < base) (hle : base ≤ bytes) (hmax : bytes ≤ sizeMax) :
    base ≤ bucketBytes ratio base bytes := by
  obtain ⟨k, hk, -⟩ := bucketBytes_onRung ratio hbase hle hmax
  rw [hk]
  exact (rung_strictMono (lt_nextBoundary ratio)).monotone (Nat.zero_le k)

theorem bucketBytes_le (hbase : 0 < base) (hmax : bytes ≤ sizeMax) :
    bucketBytes ratio base bytes ≤ bytes := by
  rcases Nat.lt_or_ge bytes base with hlt | hge
  · rw [bucketBytes_below ratio hlt]
    exact Nat.zero_le _
  · obtain ⟨k, hk, hon⟩ := bucketBytes_onRung ratio hbase hge hmax
    rw [hk]
    exact hon.1

theorem lt_nextBoundary_bucketBytes (hbase : 0 < base) (hle : base ≤ bytes)
    (hmax : bytes ≤ sizeMax) : bytes < nextBoundary ratio (bucketBytes ratio base bytes) := by
  obtain ⟨k, hk, hon⟩ := bucketBytes_onRung ratio hbase hle hmax
  rw [hk]
  exact hon.2

/-- **Bucketing is monotone.** -/
theorem bucketBytes_mono (hbase : 0 < base) (h : bytes ≤ bytes') (hmax : bytes' ≤ sizeMax) :
    bucketBytes ratio base bytes ≤ bucketBytes ratio base bytes' := by
  rcases Nat.lt_or_ge bytes base with hlt | hge
  · rw [bucketBytes_below ratio hlt]
    exact Nat.zero_le _
  · obtain ⟨k, hk, hon⟩ := bucketBytes_onRung ratio hbase hge (h.trans hmax)
    obtain ⟨j, hj, hon'⟩ := bucketBytes_onRung ratio hbase (hge.trans h) hmax
    rw [hk, hj]
    exact (rung_strictMono (lt_nextBoundary ratio)).monotone
      (le_of_onRung (lt_nextBoundary ratio) hon hon' h)

/-- **Bucketing is idempotent.** -/
theorem bucketBytes_idem (hbase : 0 < base) (hmax : bytes ≤ sizeMax) :
    bucketBytes ratio base (bucketBytes ratio base bytes) = bucketBytes ratio base bytes := by
  rcases Nat.lt_or_ge bytes base with hlt | hge
  · rw [bucketBytes_below ratio hlt, bucketBytes_below ratio hbase]
  · have hle : bucketBytes ratio base bytes ≤ sizeMax :=
      (bucketBytes_le ratio hbase hmax).trans hmax
    obtain ⟨k, hk, -⟩ := bucketBytes_onRung ratio hbase hge hmax
    obtain ⟨j, hj, hon⟩ :=
      bucketBytes_onRung ratio hbase (base_le_bucketBytes ratio hbase hge hmax) hle
    rw [hk] at hon
    have hjk : j = k :=
      onRung_unique (lt_nextBoundary ratio) hon (onRung_rung (lt_nextBoundary ratio))
    rw [hj, hk, hjk]

/-! ## Keys -/

/-- Two sizes lie between the same neighbouring boundaries. -/
def SameBucket (ratio : K) (base bytes bytes' : ℕ) : Prop :=
  ∃ k, OnRung (nextBoundary ratio) base k bytes ∧ OnRung (nextBoundary ratio) base k bytes'

theorem bucketBytes_eq_iff (hbase : 0 < base) (hle : base ≤ bytes) (hle' : base ≤ bytes')
    (hmax : bytes ≤ sizeMax) (hmax' : bytes' ≤ sizeMax) :
    bucketBytes ratio base bytes = bucketBytes ratio base bytes' ↔
      SameBucket ratio base bytes bytes' := by
  obtain ⟨k, hk, hon⟩ := bucketBytes_onRung ratio hbase hle hmax
  obtain ⟨j, hj, hon'⟩ := bucketBytes_onRung ratio hbase hle' hmax'
  rw [hk, hj, (rung_strictMono (lt_nextBoundary ratio)).injective.eq_iff]
  constructor
  · rintro rfl
    exact ⟨k, hon, hon'⟩
  · rintro ⟨i, hi, hi'⟩
    rw [onRung_unique (lt_nextBoundary ratio) hon hi,
      onRung_unique (lt_nextBoundary ratio) hon' hi']

/-- What a key compares of its size: the size below the base, the bucket from it on. -/
theorem paramBytes_makeOpKey (hbase : 0 < base) (hmax : bytes ≤ sizeMax) (op : CollectiveType)
    (datatype nranks topologyHash : ℕ) :
    (makeOpKey ratio base op bytes datatype nranks topologyHash).paramBytes =
      if bytes < base then bytes else bucketBytes ratio base bytes := by
  unfold OpKey.paramBytes makeOpKey
  dsimp only
  split
  · rename_i hne
    rw [if_neg fun hlt => hne (bucketBytes_below ratio hlt)]
  · rename_i hzero
    rw [if_pos]
    by_contra hge
    have hle := base_le_bucketBytes ratio hbase (not_lt.1 hge) hmax
    omega

/-- **A bucketed size and an unbucketed one never collide.** -/
theorem paramBytes_eq_iff (hbase : 0 < base) (hmax : bytes ≤ sizeMax) (hmax' : bytes' ≤ sizeMax) :
    (if bytes < base then bytes else bucketBytes ratio base bytes) =
        (if bytes' < base then bytes' else bucketBytes ratio base bytes') ↔
      (bytes < base ∧ bytes = bytes') ∨
        (base ≤ bytes ∧ base ≤ bytes' ∧ SameBucket ratio base bytes bytes') := by
  by_cases hlt : bytes < base
  · by_cases hlt' : bytes' < base
    · rw [if_pos hlt, if_pos hlt']
      omega
    · have hle := base_le_bucketBytes ratio hbase (not_lt.1 hlt') hmax'
      rw [if_pos hlt, if_neg hlt']
      omega
  · by_cases hlt' : bytes' < base
    · have hle := base_le_bucketBytes ratio hbase (not_lt.1 hlt) hmax
      rw [if_neg hlt, if_pos hlt']
      omega
    · rw [if_neg hlt, if_neg hlt',
        bucketBytes_eq_iff ratio hbase (not_lt.1 hlt) (not_lt.1 hlt') hmax hmax']
      simp [hlt, not_lt.1 hlt, not_lt.1 hlt']

/-- **The size buckets.**  The loop of the function ends for every size.  From the base on, the
bucket is not above the size and the next boundary is; bucketing is monotone and idempotent; two
keys are equal just if their other fields are and the sizes are equal, below the base, or in one
bucket, from the base on. -/
theorem size_buckets (ratio : K) (base : ℕ) (hbase : 0 < base) :
    (∀ bytes ≤ sizeMax, bucketBytes ratio base bytes ≤ bytes ∧
      (base ≤ bytes → bytes < nextBoundary ratio (bucketBytes ratio base bytes)) ∧
      bucketBytes ratio base (bucketBytes ratio base bytes) = bucketBytes ratio base bytes) ∧
    (∀ bytes bytes', bytes ≤ bytes' → bytes' ≤ sizeMax →
      bucketBytes ratio base bytes ≤ bucketBytes ratio base bytes') ∧
    ∀ op bytes datatype nranks hash op' bytes' datatype' nranks' hash',
      bytes ≤ sizeMax → bytes' ≤ sizeMax →
      ((makeOpKey ratio base op bytes datatype nranks hash).ident =
          (makeOpKey ratio base op' bytes' datatype' nranks' hash').ident ↔
        (op = op' ∧ datatype = datatype' ∧ nranks = nranks' ∧ hash = hash') ∧
          ((bytes < base ∧ bytes = bytes') ∨
            (base ≤ bytes ∧ base ≤ bytes' ∧ SameBucket ratio base bytes bytes'))) := by
  refine ⟨fun bytes hmax => ⟨bucketBytes_le ratio hbase hmax,
    fun hle => lt_nextBoundary_bucketBytes ratio hbase hle hmax, bucketBytes_idem ratio hbase hmax⟩,
    fun bytes bytes' h hmax => bucketBytes_mono ratio hbase h hmax, ?_⟩
  intro op bytes datatype nranks hash op' bytes' datatype' nranks' hash' hmax hmax'
  have hsizes := paramBytes_eq_iff ratio hbase hmax hmax'
  rw [← paramBytes_makeOpKey ratio hbase hmax op datatype nranks hash,
    ← paramBytes_makeOpKey ratio hbase hmax' op' datatype' nranks' hash'] at hsizes
  rw [← hsizes]
  unfold OpKey.ident
  rw [KeyIdent.mk.injEq]
  constructor
  · rintro ⟨hop, hbytes, hdatatype, hnranks, hhash⟩
    exact ⟨⟨hop, hdatatype, hnranks, hhash⟩, hbytes⟩
  · rintro ⟨⟨hop, hdatatype, hnranks, hhash⟩, hbytes⟩
    exact ⟨hop, hbytes, hdatatype, hnranks, hhash⟩

theorem size_buckets_default :
    bucketBytes (7 / 5 : ℚ) 4194304 5000000 ≤ 5000000 :=
  ((size_buckets (7 / 5 : ℚ) 4194304 (by decide)).1 5000000 (by decide)).1

end Feedback
end Orchestrator
end HyLink
