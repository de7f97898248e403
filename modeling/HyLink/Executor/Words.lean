import Mathlib.Logic.Function.Basic
import HyLink.Compiler.Nodes

/-!
# The shared progress words

`SharedState` of one communicator during one collective: the write cursor, the
consume cursor, the reader cursors and the reader count of every chunk version,
and the flag by which a rank says that its user buffers are ready.  A version
has its words at index `version % 16` of its chunk, so that two versions of a
chunk can share them; `DistinctWords` says that the versions in use do not.

Every cursor is only ever raised.  `num_readers` is the exception: every rank
resets it and sets it again when it starts.
-/

namespace HyLink
namespace Executor

open Ir Compiler

/-- The place of a chunk version's words. -/
structure Word where
  base : BaseKey
  /-- `progressVersionIndex` of the version. -/
  index : ℕ
  deriving DecidableEq, Repr

def wordOf (key : ProgressKey) : Word := ⟨key.base, key.version % maxProgressVersions⟩

/-- The words of one communicator at one epoch parity. -/
structure SharedWords where
  writeProgress : Word → ℕ
  consumeProgress : Word → ℕ
  /-- `reader_done[reader_id]`. -/
  readerDone : ℕ → Word → ℕ
  numReaders : Word → ℕ
  /-- `user_ready_seq[rank]` equals the sequence number of this collective. -/
  userReady : ℤ → Bool

namespace SharedWords

/-- All cursors reset; the reader counts are whatever the last collective that
used them left behind. -/
def init (stale : Word → ℕ) : SharedWords where
  writeProgress := fun _ => 0
  consumeProgress := fun _ => 0
  readerDone := fun _ _ => 0
  numReaders := stale
  userReady := fun _ => false

variable (w : SharedWords)

/-! ## Loads -/

def getWriteProgress (key : ProgressKey) : ℕ := w.writeProgress (wordOf key)

def getConsumeProgress (key : ProgressKey) : ℕ := w.consumeProgress (wordOf key)

def getReaderDone (id : ℕ) (key : ProgressKey) : ℕ := w.readerDone id (wordOf key)

def getNumReaders (key : ProgressKey) : ℕ := w.numReaders (wordOf key)

/-! ## Stores -/

def setNumReaders (key : ProgressKey) (count : ℕ) : SharedWords :=
  { w with numReaders := Function.update w.numReaders (wordOf key) count }

def setWriteProgress (key : ProgressKey) (value : ℕ) : SharedWords :=
  { w with writeProgress := Function.update w.writeProgress (wordOf key) value }

/-- The compare-and-swap loop of `advanceWriteProgress`: an atomic maximum. -/
def advanceWriteProgress (key : ProgressKey) (value : ℕ) : SharedWords :=
  { w with writeProgress :=
      Function.update w.writeProgress (wordOf key) (max (w.getWriteProgress key) value) }

def raiseReaderDone (id : ℕ) (key : ProgressKey) (value : ℕ) : SharedWords :=
  { w with readerDone := fun i =>
      if i = id then
        Function.update (w.readerDone id) (wordOf key) (max (w.getReaderDone id key) value)
      else w.readerDone i }

def raiseConsumeProgress (key : ProgressKey) (value : ℕ) : SharedWords :=
  { w with consumeProgress :=
      Function.update w.consumeProgress (wordOf key) (max (w.getConsumeProgress key) value) }

def publishUserReady (rank : ℤ) : SharedWords :=
  { w with userReady := Function.update w.userReady rank true }

end SharedWords

/-! ## What an update changes -/

section

variable {w : SharedWords} {k k' : ProgressKey} {v : ℕ}

theorem getWriteProgress_advance :
    (w.advanceWriteProgress k v).getWriteProgress k' =
      if wordOf k' = wordOf k then max (w.getWriteProgress k') v else w.getWriteProgress k' := by
  by_cases h : wordOf k' = wordOf k <;>
    simp [SharedWords.advanceWriteProgress, SharedWords.getWriteProgress, h]

theorem getWriteProgress_set :
    (w.setWriteProgress k v).getWriteProgress k' =
      if wordOf k' = wordOf k then v else w.getWriteProgress k' := by
  by_cases h : wordOf k' = wordOf k <;>
    simp [SharedWords.setWriteProgress, SharedWords.getWriteProgress, h]

theorem getReaderDone_raise {id id' : ℕ} :
    (w.raiseReaderDone id k v).getReaderDone id' k' =
      if id' = id ∧ wordOf k' = wordOf k then max (w.getReaderDone id' k') v
      else w.getReaderDone id' k' := by
  by_cases hid : id' = id
  · subst hid
    by_cases h : wordOf k' = wordOf k <;>
      simp [SharedWords.raiseReaderDone, SharedWords.getReaderDone, h]
  · simp [SharedWords.raiseReaderDone, SharedWords.getReaderDone, hid]

theorem getConsumeProgress_raise :
    (w.raiseConsumeProgress k v).getConsumeProgress k' =
      if wordOf k' = wordOf k then max (w.getConsumeProgress k') v
      else w.getConsumeProgress k' := by
  by_cases h : wordOf k' = wordOf k <;>
    simp [SharedWords.raiseConsumeProgress, SharedWords.getConsumeProgress, h]

theorem getNumReaders_set :
    (w.setNumReaders k v).getNumReaders k' =
      if wordOf k' = wordOf k then v else w.getNumReaders k' := by
  by_cases h : wordOf k' = wordOf k <;>
    simp [SharedWords.setNumReaders, SharedWords.getNumReaders, h]

end

end Executor
end HyLink
