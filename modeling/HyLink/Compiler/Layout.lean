import HyLink.Ir.Slices

/-!
# Compile options and device layouts

How a buffer of `seg_count` elements per segment is cut into chunks.  A device
chunk holds the elements between two consecutive multiples of
`active_elems / chunks_per_segment`, rounded down, so that neighbouring chunks
may differ by one element; a host chunk always has the size of the largest.

* `deviceChunkSize_le` — no device chunk is longer than the graph's chunk size.
-/

namespace HyLink
namespace Compiler

open Ir

/-- Which bytes `INPUT` and `OUTPUT` share in place. -/
inductive InPlaceAliasMode
  /-- `sendbuff == recvbuff`. -/
  | sameBase
  /-- `sendbuff` is the rank's own segment of `recvbuff`. -/
  | allGather
  deriving DecidableEq, Repr

inductive StagingPolicy
  | auto
  | conservative
  | directOverwrite
  | forceInternal
  deriving DecidableEq, Repr

/-- Sizes and placement of one collective call. -/
structure CompileOptions where
  /-- Elements of a segment. -/
  segCount : ℕ
  /-- Bytes of an element. -/
  elementSize : ℕ := 4
  /-- Leading elements of every segment that another path transfers. -/
  stride : ℕ := 0
  d2hSegments : ℕ := 1
  h2dSegments : ℕ := 1
  isInPlace : Bool := false
  inPlaceAliasMode : InPlaceAliasMode := .sameBase
  deriving DecidableEq, Repr

structure GraphCompileOptions where
  legacyLayout : CompileOptions
  stagingPolicy : StagingPolicy := .conservative
  prioritizeInputD2d : Bool := false
  deriving DecidableEq, Repr

def divUp (a b : ℕ) : ℕ := if b = 0 then 0 else (a + b - 1) / b

structure LayoutDesc where
  segmentSize : ℕ
  strideOffset : ℕ
  chunkSize : ℕ
  chunksPerSegment : ℕ
  chunkOffsets : List ℕ := []
  chunkSizes : List ℕ := []
  deriving DecidableEq, Repr

def makeLayout (segmentSize strideOffset chunkSize chunksPerSegment : ℕ) : LayoutDesc where
  segmentSize := segmentSize
  strideOffset := strideOffset
  chunkSize := chunkSize
  chunksPerSegment := max 1 chunksPerSegment

/-- First element of chunk `i` of a segment of `activeElems` elements cut into
`cps` chunks. -/
def chunkBegin (activeElems cps i : ℕ) : ℕ := activeElems * i / cps

/-- Bytes of device chunk `c`. -/
def deviceChunkSize (elementSize activeElems cps c : ℕ) : ℕ :=
  (chunkBegin activeElems cps (c % cps + 1) - chunkBegin activeElems cps (c % cps)) * elementSize

def makeDeviceLayout (segmentSize strideOffset elementSize activeElems totalChunks
    chunksPerSegment slotSize : ℕ) : LayoutDesc :=
  let cps := max 1 chunksPerSegment
  { makeLayout segmentSize strideOffset slotSize chunksPerSegment with
    chunkOffsets := (List.range totalChunks).map fun c =>
      chunkBegin activeElems cps (c % cps) * elementSize
    chunkSizes := (List.range totalChunks).map (deviceChunkSize elementSize activeElems cps) }

def maxChunkBytes (activeElems elementSize chunksPerSegment : ℕ) : ℕ :=
  divUp activeElems (max 1 chunksPerSegment) * elementSize

/-- Chunks of the `INPUT` buffer of a rank that the program names. -/
def maxInputChunkCount (program : IRProgram) (rank : ℤ) : ℕ :=
  program.allInstructions.foldl
    (fun count inst =>
      if (inst.op = .d2d ∨ inst.op = .d2dReduce) ∧ inst.srcBuf = .input ∧ inst.srcRank = rank
      then max count (inst.src.chunkIdx + 1).toNat else count)
    program.inputChunkCount

namespace CompileOptions

variable (options : CompileOptions) (program : IRProgram)

def segmentSize : ℕ := options.segCount * options.elementSize

def strideOffset : ℕ := options.stride * options.elementSize

def activeElems : ℕ := options.segCount - options.stride

def d2hCps : ℕ := max 1 (program.inputChunkCount / max 1 options.d2hSegments)

def h2dCps : ℕ := max 1 (program.outputChunkCount / max 1 options.h2dSegments)

/-- The size of every host chunk, and an upper bound for the device chunks. -/
def chunkSize : ℕ :=
  max (maxChunkBytes options.activeElems options.elementSize (options.d2hCps program))
    (maxChunkBytes options.activeElems options.elementSize (options.h2dCps program))

/-- The layout of a progress space on a rank with `inputChunkCount` input
chunks. -/
def runtimeLayout (inputChunkCount : ℕ) : ProgressSpace → LayoutDesc
  | .host => makeLayout options.segmentSize 0 (options.chunkSize program) 1
  | .input => makeDeviceLayout options.segmentSize options.strideOffset options.elementSize
      options.activeElems inputChunkCount (options.d2hCps program) (options.chunkSize program)
  | .output | .scratch => makeDeviceLayout options.segmentSize options.strideOffset
      options.elementSize options.activeElems program.outputChunkCount (options.h2dCps program)
      (options.chunkSize program)
  | .internal => makeLayout (options.chunkSize program) 0 (options.chunkSize program) 1

/-- Bytes a node writing `key` transfers. -/
def chunkBytesForKey (inputChunkCount : ℕ) (key : BaseKey) : ℕ :=
  if key.space = .host ∨ key.space = .internal then options.chunkSize program
  else
    let sizes := (options.runtimeLayout program inputChunkCount key.space).chunkSizes
    if 0 ≤ key.chunk ∧ key.chunk.toNat < sizes.length then sizes.getD key.chunk.toNat 0
    else options.chunkSize program

end CompileOptions

/-! ## Chunk sizes -/

/-- Two neighbouring chunk boundaries are at most `divUp` apart. -/
theorem chunkBegin_succ_sub_le {activeElems cps i : ℕ} (hcps : 0 < cps) :
    chunkBegin activeElems cps (i + 1) - chunkBegin activeElems cps i ≤
      divUp activeElems cps := by
  have h1 := Nat.lt_div_mul_add (a := activeElems * i) hcps
  have h2 := Nat.lt_div_mul_add (a := activeElems + cps - 1) hcps
  have hsucc : activeElems * (i + 1) / cps <
      activeElems * i / cps + (activeElems + cps - 1) / cps + 1 := by
    rw [Nat.div_lt_iff_lt_mul hcps]
    have h3 : (activeElems * i / cps + (activeElems + cps - 1) / cps + 1) * cps =
        activeElems * i / cps * cps + (activeElems + cps - 1) / cps * cps + cps := by ring
    have h4 : activeElems * (i + 1) = activeElems * i + activeElems := by ring
    omega
  rw [divUp, if_neg hcps.ne']
  exact Nat.sub_le_iff_le_add'.2 (Nat.lt_succ_iff.1 hsucc)

/-- A device chunk is no longer than the host chunk it travels through. -/
theorem deviceChunkSize_le {elementSize activeElems cps c : ℕ} (hcps : 0 < cps) :
    deviceChunkSize elementSize activeElems cps c ≤ maxChunkBytes activeElems elementSize cps := by
  rw [deviceChunkSize, maxChunkBytes, max_eq_right hcps]
  exact Nat.mul_le_mul_right _ (chunkBegin_succ_sub_le hcps)

/-- No node transfers more than the graph's chunk size. -/
theorem chunkBytesForKey_le (options : CompileOptions) (program : IRProgram)
    (inputChunkCount : ℕ) (key : BaseKey) :
    options.chunkBytesForKey program inputChunkCount key ≤ options.chunkSize program := by
  have hin : ∀ c, deviceChunkSize options.elementSize options.activeElems
      (options.d2hCps program) c ≤ options.chunkSize program := fun c =>
    (deviceChunkSize_le (by simp [CompileOptions.d2hCps])).trans (le_max_left _ _)
  have hout : ∀ c, deviceChunkSize options.elementSize options.activeElems
      (options.h2dCps program) c ≤ options.chunkSize program := fun c =>
    (deviceChunkSize_le (by simp [CompileOptions.h2dCps])).trans (le_max_right _ _)
  rw [CompileOptions.chunkBytesForKey]
  split
  · exact le_rfl
  · dsimp only
    split
    · next hlt =>
      obtain ⟨space, owner, chunk⟩ := key
      cases space <;>
        simp_all [CompileOptions.runtimeLayout, makeDeviceLayout, makeLayout,
          CompileOptions.d2hCps, CompileOptions.h2dCps]
    · exact le_rfl

end Compiler
end HyLink
