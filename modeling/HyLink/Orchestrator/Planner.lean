import Mathlib.Algebra.Order.Floor.Semiring
import Mathlib.Algebra.Order.Field.Basic
import Mathlib.Data.Nat.Notation

/-!
# The plan of a collective

`Planner::CreatePlan` splits the bytes of a collective between the fast library and the
PCIe library.  Sizes are 64-bit words; the split ratio is a number of any ordered field
with a floor.
-/

namespace HyLink
namespace Orchestrator

structure Plan where
  fastBytes : ℕ
  pcieBytes : ℕ
  usePcie : Bool
  deriving DecidableEq, Repr

/-- The configuration `CreatePlan` reads. -/
structure PlannerConfig where
  pcieEnabled : Bool
  minMsgSize : ℕ
  minChunkSize : ℕ

/-- `ForceFastOnly`. -/
def Plan.forceFastOnly (fastBytes : ℕ) : Plan := ⟨fastBytes, 0, false⟩

/-- `(bytes + 127) & ~127` on 64-bit words. -/
def align (bytes : ℕ) : ℕ := (bytes + 127) % 2 ^ 64 / 128 * 128

/-- The difference of two 64-bit words. -/
def subWord (a b : ℕ) : ℕ := (a + 2 ^ 64 - b) % 2 ^ 64

/-- A part that is smaller than a chunk goes to the other path. -/
def mergeSmall (minChunkSize : ℕ) (plan : Plan) : Plan :=
  let plan :=
    if 0 < plan.fastBytes ∧ plan.fastBytes < minChunkSize then
      { plan with pcieBytes := plan.pcieBytes + plan.fastBytes, fastBytes := 0 }
    else plan
  if 0 < plan.pcieBytes ∧ plan.pcieBytes < minChunkSize then
    { plan with fastBytes := plan.fastBytes + plan.pcieBytes, pcieBytes := 0 }
  else plan

/-- One path alone where the other one's part is too small. -/
def choosePath (minChunkSize totalBytes : ℕ) (plan : Plan) : Plan :=
  if plan.pcieBytes < minChunkSize then ⟨totalBytes, 0, false⟩
  else if plan.fastBytes < minChunkSize then ⟨0, totalBytes, true⟩
  else { plan with usePcie := true }

def alignPlan (totalBytes : ℕ) (plan : Plan) : Plan :=
  let fastBytes := align plan.fastBytes
  let pcieBytes := align plan.pcieBytes
  if totalBytes < (fastBytes + pcieBytes) % 2 ^ 64 then
    ⟨fastBytes, subWord totalBytes fastBytes, plan.usePcie⟩
  else ⟨fastBytes, pcieBytes, plan.usePcie⟩

/-- `Planner::CreatePlan`. -/
def createPlan {α : Type} [Field α] [LinearOrder α] [FloorSemiring α] (cfg : PlannerConfig)
    (totalBytes : ℕ) (alpha : α) (usePcieHint : Bool) : Plan :=
  if cfg.pcieEnabled = false ∨ totalBytes < cfg.minMsgSize ∨ usePcieHint = false then
    ⟨totalBytes, 0, false⟩
  else
    let alpha := if alpha < 0 then 0 else alpha
    let alpha := if 1 < alpha then 1 else alpha
    let pcieBytes := ⌊(totalBytes : α) * alpha⌋₊
    let plan := mergeSmall cfg.minChunkSize ⟨totalBytes - pcieBytes, pcieBytes, false⟩
    alignPlan totalBytes (choosePath cfg.minChunkSize totalBytes plan)

end Orchestrator
end HyLink
