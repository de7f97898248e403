import Mathlib.Data.List.Basic
import Mathlib.Data.List.Forall2
import Mathlib.Logic.Function.Basic

/-!
# Replaying a log

A log of events, each of which changes the value under one key.

* `replay_apply` — the value under a key comes from the events with this key.
* `rel_of_forall₂` — logs of related events give related values.
* `before` — the part of a log before its `n`-th marked event.
-/

namespace HyLink
namespace Theory

section Replay

variable {E ι V : Type} [DecidableEq ι] (key : E → ι) (act : E → V → V)

/-- The table after the events of a log. -/
def replay (table : ι → V) : List E → ι → V
  | [] => table
  | e :: log => replay (Function.update table (key e) (act e (table (key e)))) log

theorem replay_append (table : ι → V) (log log' : List E) :
    replay key act table (log ++ log') = replay key act (replay key act table log) log' := by
  induction log generalizing table with
  | nil => rfl
  | cons e log ih => exact ih _

theorem replay_snoc (table : ι → V) (log : List E) (e : E) :
    replay key act table (log ++ [e]) = Function.update (replay key act table log) (key e)
      (act e (replay key act table log (key e))) := by
  rw [replay_append]
  rfl

/-- **The value under a key** comes from the events with this key. -/
theorem replay_apply (table : ι → V) (log : List E) (i : ι) :
    replay key act table log i =
      (log.filter fun e => decide (key e = i)).foldl (fun v e => act e v) (table i) := by
  induction log generalizing table with
  | nil => rfl
  | cons e log ih =>
    rw [replay, ih]
    by_cases h : key e = i
    · subst h
      simp
    · simp [h, Function.update_of_ne (Ne.symm h)]

omit [DecidableEq ι] in
/-- **Related logs** give related values. -/
theorem rel_of_forall₂ {S : E → E → Prop} {R : V → V → Prop}
    (hact : ∀ e e' v v', S e e' → R v v' → R (act e v) (act e' v')) {log log' : List E}
    (h : List.Forall₂ S log log') {v v' : V} (hv : R v v') :
    R (log.foldl (fun v e => act e v) v) (log'.foldl (fun v e => act e v) v') := by
  induction h generalizing v v' with
  | nil => exact hv
  | cons he _ ih => exact ih (hact _ _ _ _ he hv)

end Replay

section Before

variable {E : Type} (mark : E → Bool)

/-- The events before the `n`-th marked one, counted from zero. -/
def before : ℕ → List E → List E
  | _, [] => []
  | n, e :: log =>
    if mark e then
      match n with
      | 0 => []
      | n + 1 => e :: before n log
    else e :: before n log

variable {mark}

theorem before_append_of_lt {n : ℕ} {log : List E} (h : n < log.countP mark) (log' : List E) :
    before mark n (log ++ log') = before mark n log := by
  induction log generalizing n with
  | nil => simp at h
  | cons e log ih =>
    by_cases he : mark e = true
    · cases n with
      | zero => simp [before, he]
      | succ n =>
        rw [List.countP_cons_of_pos he] at h
        simp [before, he, ih (Nat.lt_of_succ_lt_succ h)]
    · rw [List.countP_cons_of_neg he] at h
      simp [before, he, ih h]

/-- The marked event at the end is the one with the number of those before it. -/
theorem before_snoc {log : List E} {e : E} (he : mark e = true) :
    before mark (log.countP mark) (log ++ [e]) = log := by
  induction log with
  | nil => simp [before, he]
  | cons a log ih =>
    by_cases ha : mark a = true
    · simp [before, ha, ih]
    · simp [before, ha, ih]

end Before

end Theory
end HyLink
