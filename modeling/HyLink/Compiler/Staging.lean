import HyLink.Compiler.Layout

/-!
# In-place staging and ring eligibility

Two analyses of the whole program that precede version assignment.

*Staging.*  When the call is in place, an output chunk whose bytes some
instruction still reads as input may be redirected to the `INTERNAL` buffer and
copied back at the end; whether it is depends on the staging policy.

*Rings.*  A host chunk may keep only a few slice-sized slots when it is written
by H2H and never by D2H or read by H2D, or, with staging rings enabled, when it
is written by exactly one D2H and read by H2D.

Both are functions of the program and the options alone: no rank appears in
them.
-/

namespace HyLink
namespace Compiler

open Ir

section

variable (env : Env) (graphOptions : GraphCompileOptions) (program : IRProgram) (worldSize : ℕ)

/-! ## Staging -/

/-- `input_read_by_rank[owner][chunk]`: some instruction reads this input
chunk. -/
def inputRead (owner chunk : ℤ) : Bool :=
  decide (0 ≤ owner ∧ owner < worldSize ∧ 0 ≤ chunk) &&
    program.allInstructions.any fun inst =>
      match inst.op with
      | .d2h => decide (inst.rank = owner ∧ inst.src.chunkIdx = chunk)
      | .d2d | .d2dReduce =>
          decide (inst.srcBuf = .input ∧ inst.sourceRank = owner ∧ inst.src.chunkIdx = chunk)
      | _ => false

/-- Writing this output chunk in place overwrites input that the program
reads. -/
def outputOverlapsLiveInput (owner outputChunk : ℤ) : Bool :=
  decide (0 ≤ owner ∧ owner < worldSize ∧ 0 ≤ outputChunk) &&
    match graphOptions.legacyLayout.inPlaceAliasMode with
    | .allGather =>
        inputRead program worldSize owner (outputChunk - owner * max 1 program.inputChunkCount)
    | .sameBase => inputRead program worldSize owner outputChunk

/-- `stage_output_chunk_by_rank[owner][chunk]`: writes of this output chunk are
redirected to `INTERNAL`. -/
def stageOutputChunk (owner chunk : ℤ) : Bool :=
  graphOptions.legacyLayout.isInPlace &&
    decide (0 ≤ owner ∧ owner < worldSize ∧ 0 ≤ chunk ∧ chunk < program.outputChunkCount) &&
    program.allInstructions.any fun inst =>
      decide ((inst.op = .h2d ∨ inst.op = .d2d ∨ inst.op = .d2dReduce) ∧
        inst.dstBuf = .output ∧ inst.rank = owner ∧ inst.dst.chunkIdx = chunk) &&
      outputOverlapsLiveInput graphOptions program worldSize owner chunk &&
      decide (graphOptions.stagingPolicy ≠ .directOverwrite ∧
        graphOptions.stagingPolicy ≠ .auto)

/-- The buffer an instruction's operand really lives in. -/
def visibleBuf (buf : DeviceBufferKind) (owner chunk : ℤ) : DeviceBufferKind :=
  if buf = .output ∧ stageOutputChunk graphOptions program worldSize owner chunk then .internal
  else buf

/-! ## Ring eligibility -/

/-- D2H instructions writing a host chunk. -/
def d2hWriters (numa chunk : ℤ) : ℕ :=
  program.allInstructions.countP fun inst =>
    decide (inst.op = .d2h ∧ inst.dst.numaId = numa ∧ inst.dst.chunkIdx = chunk)

def isD2hDst (numa chunk : ℤ) : Bool := decide (0 < d2hWriters program numa chunk)

def isH2dSrc (numa chunk : ℤ) : Bool :=
  program.allInstructions.any fun inst =>
    decide (inst.op = .h2d ∧ inst.src.numaId = numa ∧ inst.src.chunkIdx = chunk)

def isH2hDst (numa chunk : ℤ) : Bool :=
  program.allInstructions.any fun inst =>
    decide ((inst.op = .h2h ∨ inst.op = .h2hReduce) ∧ inst.dst.numaId = numa ∧
      inst.dst.chunkIdx = chunk)

/-- Staging chunks may ring: the graph has more slices than slots, and the slots
fit in the chunk. -/
def stagingRing (chunkSize : ℕ) : Bool :=
  decide (2 ≤ pcclHostRingSlots env ∧ pcclRingSlotsFor env < numSubchunksFor env chunkSize ∧
    pcclRingSlotsFor env * pcclSubchunkSliceFor env chunkSize ≤ chunkSize)

/-- `host_meta[numa][chunk].ring`. -/
def hostRing (chunkSize : ℕ) (numa chunk : ℤ) : Bool :=
  (isH2hDst program numa chunk && !isD2hDst program numa chunk && !isH2dSrc program numa chunk) ||
    (stagingRing env chunkSize && isD2hDst program numa chunk &&
      decide (d2hWriters program numa chunk = 1) && isH2dSrc program numa chunk &&
      !isH2hDst program numa chunk)

/-- Ring flag of a chunk of any space: only host chunks ring. -/
def ringChunk (chunkSize : ℕ) (key : BaseKey) : Bool :=
  decide (key.space = .host) && hostRing env program chunkSize key.owner key.chunk

end

/-! ## Facts -/

section

variable {env : Env} {graphOptions : GraphCompileOptions} {program : IRProgram} {worldSize : ℕ}

theorem space_of_ringChunk {chunkSize : ℕ} {key : BaseKey}
    (h : ringChunk env program chunkSize key = true) : key.space = .host := by
  simp only [ringChunk, Bool.and_eq_true, decide_eq_true_eq] at h
  exact h.1

/-- Out of place nothing is staged. -/
theorem stageOutputChunk_of_not_inPlace (h : graphOptions.legacyLayout.isInPlace = false)
    (owner chunk : ℤ) : stageOutputChunk graphOptions program worldSize owner chunk = false := by
  simp [stageOutputChunk, h]

theorem visibleBuf_of_not_inPlace (h : graphOptions.legacyLayout.isInPlace = false)
    (buf : DeviceBufferKind) (owner chunk : ℤ) :
    visibleBuf graphOptions program worldSize buf owner chunk = buf := by
  simp [visibleBuf, stageOutputChunk_of_not_inPlace h]

/-- No operand lives in a staged output chunk. -/
theorem visibleBuf_ne_output {owner chunk : ℤ}
    (hs : stageOutputChunk graphOptions program worldSize owner chunk = true)
    (buf : DeviceBufferKind) : visibleBuf graphOptions program worldSize buf owner chunk ≠ .output := by
  rw [visibleBuf]
  split
  · exact nofun
  · next h => exact fun hb => h ⟨hb, hs⟩

/-- A direct-overwrite or automatic policy stages nothing. -/
theorem stageOutputChunk_of_direct
    (h : graphOptions.stagingPolicy = .directOverwrite ∨ graphOptions.stagingPolicy = .auto)
    (owner chunk : ℤ) : stageOutputChunk graphOptions program worldSize owner chunk = false := by
  rcases h with h | h <;> simp [stageOutputChunk, h]

end

end Compiler
end HyLink
