import Mathlib.Order.Monotone.Basic

/-!
# The rungs of a ladder

Numbers that start at a base, each above the one before it.  A number from the base on lies between
two neighbouring rungs, and these are the only ones.

* `le_of_onRung` — a number that is not smaller has no lower rung.
-/

namespace HyLink
namespace Theory

/-- The rungs from a base, where `up` gives the next one. -/
def rung (up : ℕ → ℕ) (base : ℕ) : ℕ → ℕ
  | 0 => base
  | k + 1 => up (rung up base k)

/-- The number lies from rung `k` on and below the next one. -/
def OnRung (up : ℕ → ℕ) (base k n : ℕ) : Prop := rung up base k ≤ n ∧ n < rung up base (k + 1)

variable {up : ℕ → ℕ} {base k j n m : ℕ}

theorem rung_strictMono (hup : ∀ b, b < up b) : StrictMono (rung up base) :=
  strictMono_nat_of_lt_succ fun _ => hup _

/-- Who starts one rung higher is always one rung higher. -/
theorem rung_up : rung up (up base) k = rung up base (k + 1) := by
  induction k with
  | zero => rfl
  | succ k ih => exact congrArg up ih

theorem onRung_up : OnRung up (up base) k n ↔ OnRung up base (k + 1) n := by
  unfold OnRung
  rw [rung_up, rung_up]

theorem onRung_rung (hup : ∀ b, b < up b) : OnRung up base k (rung up base k) :=
  ⟨le_refl _, hup _⟩

/-- **A number that is not smaller has no lower rung.** -/
theorem le_of_onRung (hup : ∀ b, b < up b) (hn : OnRung up base k n) (hm : OnRung up base j m)
    (h : n ≤ m) : k ≤ j := by
  have hlt : rung up base k < rung up base (j + 1) := hn.1.trans_lt (h.trans_lt hm.2)
  exact Nat.lt_succ_iff.1 ((rung_strictMono hup).lt_iff_lt.1 hlt)

theorem onRung_unique (hup : ∀ b, b < up b) (hk : OnRung up base k n) (hj : OnRung up base j n) :
    k = j :=
  Nat.le_antisymm (le_of_onRung hup hk hj (le_refl _)) (le_of_onRung hup hj hk (le_refl _))

end Theory
end HyLink
