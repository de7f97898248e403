import Mathlib.Data.List.Basic
import Mathlib.Data.Int.Notation

/-!
# The IR: instructions, buffers and progress keys

The communication IR of the CUDA library (`ir/ir.hpp`).  A program is the list
of the instructions of *all* ranks, in document order; an instruction moves or
reduces one chunk between buffers.  The compiler names every version of every
chunk by a **progress key**: the progress space the chunk lives in, its owner (a
NUMA node for host chunks, a rank for device chunks), the chunk index and the
version.

The C++ `ProgressKey` with `version = 0` doubles as the name of the chunk
itself; here that name is a type of its own, `BaseKey`.
-/

namespace HyLink
namespace Ir

/-! ## Limits -/

/-- Ranks of a node. -/
def maxRanks : ℕ := 8

/-- Chunks of a progress space. -/
def maxChunks : ℕ := 128

/-- NUMA nodes of the host. -/
def maxNumaNodes : ℕ := 8

/-- Versions of one chunk that have their own progress words. -/
def maxProgressVersions : ℕ := 16

/-- Reader cursors of one chunk version. -/
def maxProgressReaders : ℕ := 32

/-- A D2H may not lead its readers by more than this many subchunks. -/
def d2hLeadWindow : ℕ := 4

/-- Ring slots of a host chunk when staging rings are switched off. -/
def doubleBufferSlots : ℕ := 2

/-! ## Instructions -/

/-- What an instruction does. -/
inductive OpCode
  | nop
  /-- Device copy, possibly between two ranks. -/
  | d2d
  | d2h
  | h2d
  /-- Host copy: `dst = src`. -/
  | h2h
  /-- Three-address host reduce: `dst = src1 + src2`. -/
  | h2hReduce
  /-- Device reduce: `dst += src`. -/
  | d2dReduce
  deriving DecidableEq, Repr

/-- The device buffers of a rank. -/
inductive DeviceBufferKind
  | input
  | output
  | scratch
  | internal
  deriving DecidableEq, Repr

/-- The host pool and the device buffers, as index of progress state. -/
inductive ProgressSpace
  | host
  | input
  | output
  | scratch
  | internal
  deriving DecidableEq, Repr

def progressSpaceForDeviceBuffer : DeviceBufferKind → ProgressSpace
  | .input => .input
  | .output => .output
  | .scratch => .scratch
  | .internal => .internal

/-- A chunk of a buffer: the key of `latest_by_base`, a progress key without
its version. -/
structure BaseKey where
  space : ProgressSpace
  /-- NUMA node for the host space, rank for a device space. -/
  owner : ℤ
  chunk : ℤ
  deriving DecidableEq, Repr

/-- One version of a chunk. -/
structure ProgressKey where
  base : BaseKey
  version : ℕ
  deriving DecidableEq, Repr

def hostKey (numa chunk : ℤ) : BaseKey := ⟨.host, numa, chunk⟩

def deviceKey (kind : DeviceBufferKind) (owner chunk : ℤ) : BaseKey :=
  ⟨progressSpaceForDeviceBuffer kind, owner, chunk⟩

@[simp] theorem deviceKey_inj {kind kind' : DeviceBufferKind} {owner owner' chunk chunk' : ℤ} :
    deviceKey kind owner chunk = deviceKey kind' owner' chunk' ↔
      kind = kind' ∧ owner = owner' ∧ chunk = chunk' := by
  cases kind <;> cases kind' <;> simp [deviceKey, progressSpaceForDeviceBuffer]

@[simp] theorem hostKey_ne_deviceKey {kind : DeviceBufferKind} {numa owner chunk chunk' : ℤ} :
    hostKey numa chunk ≠ deviceKey kind owner chunk' := by
  cases kind <;> simp [hostKey, deviceKey, progressSpaceForDeviceBuffer]

@[simp] theorem deviceKey_ne_hostKey {kind : DeviceBufferKind} {numa owner chunk chunk' : ℤ} :
    deviceKey kind owner chunk' ≠ hostKey numa chunk :=
  hostKey_ne_deviceKey.symm

/-- A host chunk, by NUMA node and index; device chunks only use the index. -/
structure ChunkAddress where
  numaId : ℤ
  chunkIdx : ℤ
  deriving DecidableEq, Repr

structure Instruction where
  op : OpCode
  /-- The rank the instruction is written for. -/
  rank : ℤ := -1
  /-- D2D only; negative means the instruction's own rank. -/
  srcRank : ℤ := -1
  srcBuf : DeviceBufferKind := .input
  dstBuf : DeviceBufferKind := .output
  /-- H2HReduce: the first source. -/
  src : ChunkAddress
  /-- H2HReduce only: the second source. -/
  src2 : ChunkAddress := ⟨-1, -1⟩
  dst : ChunkAddress
  deriving DecidableEq, Repr

/-- `(inst.src_rank >= 0) ? inst.src_rank : inst.rank`, as every pass over the
program computes it. -/
def Instruction.sourceRank (inst : Instruction) : ℤ :=
  if 0 ≤ inst.srcRank then inst.srcRank else inst.rank

structure IRProgram where
  inputChunkCount : ℕ
  outputChunkCount : ℕ
  /-- The instructions of all ranks, in document order. -/
  allInstructions : List Instruction
  deriving DecidableEq, Repr

end Ir
end HyLink
