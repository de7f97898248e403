import Mathlib.Data.List.Basic
import Mathlib.Data.Nat.Notation
import Mathlib.Order.Nat

/-!
# Blocks of cells, and loops that go through a range by blocks

A memory is a function from cells to values.  A loop writes a range from its start on, a block at a
time, and reads as it goes.

* `fill` — a memory in which a range holds the values of a function.
* `store_fill` — the next block is stored.
* `fill_apart`, `load_fill` — what is read beyond the part that is filled is what was there at the
  start, where the range that is read is the same or a disjoint one.
* `loop_rule` — what every turn keeps holds at the end of a loop, and less than a turn is left.
-/

namespace HyLink
namespace Theory

variable {V : Type}

/-- `n` values from `a` on. -/
def load (m : ℕ → V) (a n : ℕ) : List V := (List.range n).map fun k => m (a + k)

def store (m : ℕ → V) (a : ℕ) (v : List V) : ℕ → V := fun x =>
  if a ≤ x then (v[x - a]?).getD (m x) else m x

/-- The cells `a, …, a + n - 1` hold `f 0, …, f (n - 1)`. -/
def fill (m : ℕ → V) (a n : ℕ) (f : ℕ → V) : ℕ → V := fun x =>
  if a ≤ x ∧ x < a + n then f (x - a) else m x

/-- Two ranges of `n` cells are the same, or disjoint. -/
def Apart (a b n : ℕ) : Prop := a = b ∨ a + n ≤ b ∨ b + n ≤ a

instance (a b n : ℕ) : Decidable (Apart a b n) := inferInstanceAs (Decidable (_ ∨ _ ∨ _))

variable {m m' : ℕ → V} {f : ℕ → V} {a b i j k n w x : ℕ}

@[simp] theorem length_load : (load m a n).length = n := by
  simp [load]

theorem getElem?_load (hk : k < n) : (load m a n)[k]? = some (m (a + k)) := by
  simp [load, hk]

theorem load_congr (h : ∀ k < n, m (a + k) = m' (b + k)) : load m a n = load m' b n := by
  apply List.map_congr_left
  intro k hk
  exact h k (List.mem_range.1 hk)

theorem load_add (m : ℕ → V) (a n k : ℕ) : load m a (n + k) = load m a n ++ load m (a + n) k := by
  simp [load, List.range_add, Nat.add_assoc]

@[simp] theorem fill_zero : fill m a 0 f = m := by
  funext x
  exact if_neg fun h => Nat.lt_irrefl a (Nat.lt_of_le_of_lt h.1 h.2)

theorem fill_add (hk : k < n) : fill m a n f (a + k) = f k := by
  unfold fill
  rw [if_pos ⟨Nat.le_add_right a k, Nat.add_lt_add_left hk a⟩, Nat.add_sub_cancel_left]

theorem fill_of_not (h : x < a ∨ a + n ≤ x) : fill m a n f x = m x :=
  if_neg fun hin => by omega

/-- **The next block is stored.** -/
theorem store_fill : store (fill m a i f) (a + i) (load f i w) = fill m a (i + w) f := by
  funext x
  unfold store
  split
  · rename_i hx
    obtain ⟨k, rfl⟩ := Nat.exists_eq_add_of_le hx
    rw [Nat.add_sub_cancel_left]
    by_cases hk : k < w
    · rw [getElem?_load hk, Nat.add_assoc, fill_add (Nat.add_lt_add_left hk i)]
      rfl
    · rw [List.getElem?_eq_none (by rw [length_load]; omega), Option.getD_none,
        fill_of_not (.inr (by omega)), fill_of_not (.inr (by omega))]
  · by_cases ha : a ≤ x
    · obtain ⟨k, rfl⟩ := Nat.exists_eq_add_of_le ha
      rw [fill_add (by omega), fill_add (by omega)]
    · rw [fill_of_not (.inl (Nat.lt_of_not_le ha)), fill_of_not (.inl (Nat.lt_of_not_le ha))]

/-- **Reading beyond what is filled.** -/
theorem fill_apart (hab : Apart a b n) (hij : i ≤ j) (hj : j < n) :
    fill m a i f (b + j) = m (b + j) := by
  apply fill_of_not
  rcases hab with rfl | hab | hab
  · exact .inr (by omega)
  · exact .inr (by omega)
  · exact .inl (by omega)

theorem load_fill (hab : Apart a b n) (hij : i ≤ j) (hj : j + w ≤ n) :
    load (fill m a i f) (b + j) w = load m (b + j) w := by
  apply load_congr
  intro k hk
  rw [Nat.add_assoc]
  exact fill_apart hab (Nat.le_trans hij (Nat.le_add_right j k)) (by omega)

/-! ## Loops -/

variable {S : Type}

/-- `for (; i + step <= n; i += step) body` -/
def loop (step n : ℕ) (body : ℕ → S → S) (i : ℕ) (s : S) : ℕ × S :=
  if 0 < step ∧ i + step ≤ n then loop step n body (i + step) (body i s) else (i, s)
  termination_by n - i

/-- **What every turn keeps** holds at the end of the loop, and less than a turn is left. -/
theorem loop_rule {step : ℕ} (body : ℕ → S → S) {I : ℕ → S → Prop} (hstep : 0 < step)
    (hbody : ∀ i s, I i s → i + step ≤ n → I (i + step) (body i s)) {s : S} (h : I i s) :
    I (loop step n body i s).1 (loop step n body i s).2 ∧ n < (loop step n body i s).1 + step := by
  fun_induction loop step n body i s with
  | case1 i s hcond ih => exact ih (hbody i s h hcond.2)
  | case2 i s hcond => exact ⟨h, by omega⟩

end Theory
end HyLink
