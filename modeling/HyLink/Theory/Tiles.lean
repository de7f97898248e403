import Mathlib.Data.List.Range
import Mathlib.Data.Nat.Notation
import Mathlib.Tactic.Ring

/-!
# Tiles, and even cuts

Spans that follow one another without a gap, and the places at which a length is cut into parts that
differ by one at most.

* `Tiles.covers_iff`, `Tiles.disjoint` — spans that follow one another cover what lies between
  their ends, each place once.
* `tiles_pieces` — pieces of one length tile what they are cut from.
* `tiles_evenCut_iff` — the parts of an even cut tile what they are cut from, just if all are there.
* `evenCut_add_le` — a part of the largest size fits wherever a part begins.
-/

namespace HyLink
namespace Theory

/-- A range of places. -/
structure Span where
  start : ℕ
  len : ℕ
  deriving DecidableEq, Repr

def Span.Covers (s : Span) (x : ℕ) : Prop := s.start ≤ x ∧ x < s.start + s.len

/-- The spans follow one another from `lo` to `hi`. -/
def Tiles : ℕ → List Span → ℕ → Prop
  | lo, [], hi => lo = hi
  | lo, s :: rest, hi => s.start = lo ∧ Tiles (lo + s.len) rest hi

section

variable {lo hi : ℕ} {l : List Span}

theorem Tiles.le (h : Tiles lo l hi) : lo ≤ hi := by
  induction l generalizing lo with
  | nil => exact Nat.le_of_eq h
  | cons s rest ih => exact (Nat.le_add_right _ _).trans (ih h.2)

/-- **Tiles cover** what lies between their ends. -/
theorem Tiles.covers_iff (h : Tiles lo l hi) {x : ℕ} :
    (∃ s ∈ l, s.Covers x) ↔ lo ≤ x ∧ x < hi := by
  induction l generalizing lo with
  | nil =>
    cases h
    simp only [List.not_mem_nil, false_and, exists_false, false_iff]
    omega
  | cons s rest ih =>
    obtain ⟨rfl, hrest⟩ := h
    have hle := hrest.le
    rw [List.exists_mem_cons_iff, ih hrest, Span.Covers]
    omega

/-- **Tiles are disjoint**: no place lies in two of them. -/
theorem Tiles.disjoint (h : Tiles lo l hi) :
    l.Pairwise fun s t => ∀ x, s.Covers x → ¬ t.Covers x := by
  induction l generalizing lo with
  | nil => exact List.Pairwise.nil
  | cons s rest ih =>
    obtain ⟨rfl, hrest⟩ := h
    refine List.Pairwise.cons (fun t ht x hs hcov => ?_) (ih hrest)
    have hafter := (hrest.covers_iff.1 ⟨t, ht, hcov⟩).1
    exact absurd hs.2 (Nat.not_lt.2 hafter)

theorem tiles_snoc {s : Span} :
    Tiles lo (l ++ [s]) hi ↔ ∃ mid, Tiles lo l mid ∧ s.start = mid ∧ mid + s.len = hi := by
  induction l generalizing lo with
  | nil =>
    constructor
    · rintro ⟨rfl, rfl⟩
      exact ⟨_, rfl, rfl, rfl⟩
    · rintro ⟨mid, rfl, hs, rfl⟩
      exact ⟨hs, rfl⟩
  | cons t rest ih =>
    simp only [List.cons_append, Tiles, ih]
    constructor
    · rintro ⟨ht, mid, hmid, hs⟩
      exact ⟨mid, ⟨ht, hmid⟩, hs⟩
    · rintro ⟨mid, ⟨ht, hmid⟩, hs⟩
      exact ⟨ht, mid, hmid, hs⟩

/-- Pieces of one length, the last one cut off at `n`. -/
theorem tiles_pieces {n len k : ℕ} (h : ∀ i < k, i * len ≤ n) :
    Tiles 0 ((List.range k).map fun i => ⟨i * len, min len (n - i * len)⟩) (min (k * len) n) := by
  induction k with
  | zero => simp [Tiles]
  | succ k ih =>
    have hk := h k (Nat.lt_succ_self k)
    rw [List.range_succ, List.map_append, List.map_singleton, tiles_snoc]
    refine ⟨_, ih fun i hi => h i (Nat.lt_succ_of_lt hi), (Nat.min_eq_left hk).symm, ?_⟩
    rw [Nat.min_eq_left hk, Nat.succ_mul]
    dsimp only
    omega

end

/-! ## Even cuts -/

/-- Where part `i` begins when `n` is cut into `k` parts. -/
def evenCut (n k i : ℕ) : ℕ := n * i / k

section

variable {n k i j : ℕ}

@[simp] theorem evenCut_zero : evenCut n k 0 = 0 := by simp [evenCut]

theorem evenCut_last (hk : 0 < k) : evenCut n k k = n := Nat.mul_div_cancel n hk

theorem evenCut_mono (h : i ≤ j) : evenCut n k i ≤ evenCut n k j :=
  Nat.div_le_div_right (Nat.mul_le_mul_left n h)

theorem evenCut_lt (hn : 0 < n) (h : i < k) : evenCut n k i < n := by
  rw [evenCut, Nat.div_lt_iff_lt_mul (Nat.zero_lt_of_lt h)]
  exact Nat.mul_lt_mul_of_pos_left h hn

/-- **A largest part fits** wherever a part begins. -/
theorem evenCut_add_le (h : i < k) : evenCut n k i + (n + k - 1) / k ≤ n := by
  have hk : 0 < k := Nat.zero_lt_of_lt h
  rcases Nat.eq_zero_or_pos n with rfl | hn
  · rw [evenCut, Nat.zero_mul, Nat.zero_div, Nat.div_eq_of_lt (by omega)]
  have hq := Nat.div_mul_le_self (n + k - 1) k
  have hqn : (n + k - 1) / k ≤ n := by
    have hmul : n + k - 1 ≤ n * k := by
      obtain ⟨n', rfl⟩ := Nat.exists_eq_add_of_lt hn
      obtain ⟨k', rfl⟩ := Nat.exists_eq_add_of_lt hk
      have : (0 + n' + 1) * (0 + k' + 1) = n' * k' + n' + k' + 1 := by ring
      have := Nat.zero_le (n' * k')
      omega
    calc (n + k - 1) / k ≤ n * k / k := Nat.div_le_div_right hmul
      _ = n := Nat.mul_div_cancel n hk
  generalize hdef : (n + k - 1) / k = q at hq hqn ⊢
  -- `n * i` stays one short of the `n - q + 1` whole parts
  have hlt : n * i < (n - q + 1) * k := by
    have h1 : n * i ≤ n * (k - 1) := Nat.mul_le_mul_left n (by omega)
    have h2 : n * (k - 1) + n = n * k := by
      obtain ⟨k', rfl⟩ := Nat.exists_eq_add_of_lt hk
      simp only [Nat.zero_add, Nat.add_sub_cancel]
      ring
    have h3 : (n - q + 1) * k + q * k = n * k + k := by
      obtain ⟨m, rfl⟩ := Nat.exists_eq_add_of_le hqn
      simp only [Nat.add_sub_cancel_left]
      ring
    omega
  have := (Nat.div_lt_iff_lt_mul hk).2 hlt
  rw [evenCut]
  omega

/-- **Even cuts tile** from the first place to where the last part present ends; sizes are counted
in units of `w`. -/
theorem tiles_evenCut {lo w m : ℕ} {hi : ℕ} :
    Tiles lo ((List.range m).map fun i =>
      ⟨lo + evenCut n k i * w, (evenCut n k (i + 1) - evenCut n k i) * w⟩) hi ↔
      hi = lo + evenCut n k m * w := by
  induction m generalizing hi with
  | zero => simp [Tiles, eq_comm]
  | succ m ih =>
    rw [List.range_succ, List.map_append, List.map_singleton, tiles_snoc]
    have hmono : evenCut n k m * w + (evenCut n k (m + 1) - evenCut n k m) * w =
        evenCut n k (m + 1) * w := by
      rw [← Nat.add_mul, Nat.add_sub_cancel' (evenCut_mono (Nat.le_succ m))]
    constructor
    · rintro ⟨mid, hmid, -, rfl⟩
      rw [ih.1 hmid, Nat.add_assoc, hmono]
    · rintro rfl
      exact ⟨_, ih.2 rfl, rfl, by rw [Nat.add_assoc, hmono]⟩

/-- The parts that are there tile the whole just if there is nothing to cut or all are there. -/
theorem tiles_evenCut_iff {lo w m : ℕ} (hm : m ≤ k) (hk : 0 < k) :
    Tiles lo ((List.range m).map fun i =>
      ⟨lo + evenCut n k i * w, (evenCut n k (i + 1) - evenCut n k i) * w⟩) (lo + n * w) ↔
      n * w = 0 ∨ m = k := by
  rw [tiles_evenCut]
  constructor
  · intro h
    by_contra hno
    push Not at hno
    obtain ⟨hpos, hne⟩ := hno
    have hn : 0 < n := Nat.pos_of_mul_pos_right (Nat.pos_of_ne_zero hpos)
    have hw : 0 < w := Nat.pos_of_mul_pos_left (Nat.pos_of_ne_zero hpos)
    have := Nat.mul_lt_mul_of_pos_right (evenCut_lt hn (Nat.lt_of_le_of_ne hm hne)) hw
    omega
  · rintro (h | rfl)
    · rw [h]
      rcases Nat.mul_eq_zero.1 h with rfl | rfl
      · simp [evenCut]
      · simp
    · rw [evenCut_last hk]

end

end Theory
end HyLink
