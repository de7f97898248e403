import HyLink.Compiler.Active
import HyLink.Executor.Words

/-!
# Progress slots

`chunkState` of the CUDA library finds the progress words of a key by indexing
`numa_nodes` or `device_spaces` with the owner and the chunk of the key, and the
arrays of the chunk with its version modulo `MAX_PROGRESS_VERSIONS`.  The
communicator and the epoch index two more dimensions; they are the same for all
keys of a collective and left out.

Nothing checks the indices.  The compiler counts readers against
`MAX_PROGRESS_READERS`, but it compares no owner, no chunk and no version with
the arrays.

* `publish_frame` — a store for one key is not seen by loads of a key with other
  words.
* `progress_slots` — when no rank's chunks leave the arrays and no chunk is
  written as often as there are versions, different keys of a collective have
  different words; in a program whose instructions all run in the world, only
  then.
-/

namespace HyLink
namespace Memory

open Ir Compiler Executor

/-! ## The arrays -/

/-- `NumaNodeState`s of a space: one a NUMA node, or one a rank. -/
def ownersOf : ProgressSpace → ℕ
  | .host => maxNumaNodes
  | .input | .output | .scratch | .internal => maxRanks

/-- The chunk has a `ChunkState`. -/
def InArrays (base : BaseKey) : Prop :=
  0 ≤ base.owner ∧ base.owner < ownersOf base.space ∧ 0 ≤ base.chunk ∧ base.chunk < maxChunks

instance (base : BaseKey) : Decidable (InArrays base) := by unfold InArrays; infer_instance

/-- A word of `numa_nodes` (host space) or of its space's row of `device_spaces`. -/
@[ext] structure ProgressSlot where
  space : ProgressSpace
  owner : ℕ
  chunk : ℕ
  version : ℕ
  owner_lt : owner < ownersOf space
  chunk_lt : chunk < maxChunks
  version_lt : version < maxProgressVersions

def progressVersionIndex (version : ℕ) : ℕ := version % maxProgressVersions

/-- `chunkState`, with the version's index: the words of a key, unless an index
is outside its array. -/
def chunkState? (key : ProgressKey) : Option ProgressSlot :=
  if h : InArrays key.base then
    some
      { space := key.base.space
        owner := key.base.owner.toNat
        chunk := key.base.chunk.toNat
        version := progressVersionIndex key.version
        owner_lt := by obtain ⟨h1, h2, -, -⟩ := h; omega
        chunk_lt := by obtain ⟨-, -, h3, h4⟩ := h; omega
        version_lt := Nat.mod_lt _ (by decide) }
  else none

/-! ## Stores and loads -/

/-- What the loads of a key return. -/
structure Progress where
  write : ℕ
  consume : ℕ
  readerDone : ℕ → ℕ
  numReaders : ℕ

def progressOf (w : SharedWords) (key : ProgressKey) : Progress where
  write := w.getWriteProgress key
  consume := w.getConsumeProgress key
  readerDone := fun id => w.getReaderDone id key
  numReaders := w.getNumReaders key

/-- What a rank publishes for a key. -/
inductive Publication
  | setWriteProgress (value : ℕ)
  | advanceWriteProgress (value : ℕ)
  | raiseReaderDone (id value : ℕ)
  | raiseConsumeProgress (value : ℕ)
  | setNumReaders (count : ℕ)
  deriving DecidableEq, Repr

def publish (w : SharedWords) (key : ProgressKey) : Publication → SharedWords
  | .setWriteProgress value => w.setWriteProgress key value
  | .advanceWriteProgress value => w.advanceWriteProgress key value
  | .raiseReaderDone id value => w.raiseReaderDone id key value
  | .raiseConsumeProgress value => w.raiseConsumeProgress key value
  | .setNumReaders count => w.setNumReaders key count

/-- Two keys have words of their own, and what is published for one is not read
for the other. -/
structure Separate (k k' : ProgressKey) : Prop where
  slots : ∃ slot slot', chunkState? k = some slot ∧ chunkState? k' = some slot' ∧ slot ≠ slot'
  frame : ∀ (w : SharedWords) (p : Publication), progressOf (publish w k p) k' = progressOf w k'

/-! ## Which keys share words -/

section

variable {k k' : ProgressKey}

theorem chunkState?_isSome : (chunkState? k).isSome = true ↔ InArrays k.base := by
  unfold chunkState?
  split <;> simp [*]

/-- Keys of chunks in the arrays have the same slot when they are versions of one
chunk with the same index. -/
theorem chunkState?_eq_iff (h : InArrays k.base) (h' : InArrays k'.base) :
    chunkState? k = chunkState? k' ↔ wordOf k = wordOf k' := by
  obtain ⟨⟨space, owner, chunk⟩, version⟩ := k
  obtain ⟨⟨space', owner', chunk'⟩, version'⟩ := k'
  rw [chunkState?, chunkState?, dif_pos h, dif_pos h']
  have ho : 0 ≤ owner ∧ 0 ≤ chunk := ⟨h.1, h.2.2.1⟩
  have ho' : 0 ≤ owner' ∧ 0 ≤ chunk' := ⟨h'.1, h'.2.2.1⟩
  simp only [Option.some.injEq, ProgressSlot.mk.injEq, wordOf, Word.mk.injEq, BaseKey.mk.injEq,
    progressVersionIndex]
  constructor
  · rintro ⟨hspace, howner, hchunk, hversion⟩
    exact ⟨⟨hspace, by omega, by omega⟩, hversion⟩
  · rintro ⟨⟨rfl, rfl, rfl⟩, hversion⟩
    exact ⟨rfl, rfl, rfl, hversion⟩

/-- **Frame.**  A store for a key changes no load of a key with other words. -/
theorem publish_frame (h : wordOf k' ≠ wordOf k) (w : SharedWords) (p : Publication) :
    progressOf (publish w k p) k' = progressOf w k' := by
  unfold progressOf
  cases p with
  | setWriteProgress value =>
    simp only [publish, getWriteProgress_set, if_neg h]
    rfl
  | advanceWriteProgress value =>
    simp only [publish, getWriteProgress_advance, if_neg h]
    rfl
  | raiseReaderDone id value =>
    simp only [publish, getReaderDone_raise, h, and_false, if_false]
    rfl
  | raiseConsumeProgress value =>
    simp only [publish, getConsumeProgress_raise, if_neg h]
    rfl
  | setNumReaders count =>
    simp only [publish, getNumReaders_set, if_neg h]
    rfl

theorem separate_iff (h : InArrays k.base) (h' : InArrays k'.base) :
    Separate k k' ↔ wordOf k ≠ wordOf k' := by
  obtain ⟨slot, hslot⟩ := Option.isSome_iff_exists.1 (chunkState?_isSome.2 h)
  obtain ⟨slot', hslot'⟩ := Option.isSome_iff_exists.1 (chunkState?_isSome.2 h')
  have hiff := chunkState?_eq_iff h h'
  rw [hslot, hslot', Option.some.injEq] at hiff
  constructor
  · rintro ⟨⟨s, s', hs, hs', hne⟩, -⟩ hword
    rw [hslot, Option.some.injEq] at hs
    rw [hslot', Option.some.injEq] at hs'
    exact hne (by rw [← hs, ← hs', hiff.2 hword])
  · intro hne
    exact ⟨⟨slot, slot', hslot, hslot', fun heq => hne (hiff.1 heq)⟩,
      publish_frame (Ne.symm hne)⟩

end

/-! ## The keys of a collective -/

section

variable (env : Env) (graphOptions : GraphCompileOptions) (program : IRProgram) (worldSize : ℕ)

/-- Every active key of the graphs has words, and any two have words of their
own. -/
structure SlotsInjective (worldSize : ℕ) (g : ℕ → CompiledGraph) : Prop where
  inArrays : ∀ r < worldSize, ∀ k ∈ (g r).activeProgressKeys, ∃ slot, chunkState? k = some slot
  separate : ∀ r < worldSize, ∀ k ∈ (g r).activeProgressKeys,
    ∀ r' < worldSize, ∀ k' ∈ (g r').activeProgressKeys, k ≠ k' → Separate k k'

/-- The chunks of all ranks lie in the arrays, and no chunk is written as often as
it has versions. -/
structure SlotsFit : Prop where
  bases : ∀ r < worldSize, ∀ base ∈ rankBases env graphOptions program worldSize r, InArrays base
  versions : ∀ inst ∈ program.allInstructions,
    ∀ base ∈ producedBase graphOptions program worldSize inst,
      producedVersions graphOptions program worldSize program.allInstructions base <
        maxProgressVersions

end

section

variable {env : Env} {graphOptions : GraphCompileOptions} {program : IRProgram} {worldSize : ℕ}

/-- A chunk nobody writes has no versions to count. -/
theorem SlotsFit.versions_lt (h : SlotsFit env graphOptions program worldSize) (base : BaseKey) :
    producedVersions graphOptions program worldSize program.allInstructions base <
      maxProgressVersions := by
  rcases Nat.eq_zero_or_pos
    (producedVersions graphOptions program worldSize program.allInstructions base) with h0 | hpos
  · rw [h0]; decide
  · obtain ⟨inst, hmem, hp⟩ := List.countP_pos_iff.1 hpos
    exact h.versions inst hmem base (of_decide_eq_true hp)

/-- **Enough room.**  Keys of chunks in the arrays, with versions below the number
of version words, have words of their own. -/
theorem SlotsFit.injective (h : SlotsFit env graphOptions program worldSize)
    (plan : Plan graphOptions program worldSize) :
    SlotsInjective worldSize (plan.graph env) := by
  have hbase : ∀ r < worldSize, ∀ k ∈ (plan.graph env r).activeProgressKeys, InArrays k.base :=
    fun r hr k hk => h.bases r hr _ (plan.bases_active.1 ⟨k, hk, rfl⟩)
  have hindex : ∀ r < worldSize, ∀ k ∈ (plan.graph env r).activeProgressKeys,
      k.version % maxProgressVersions = k.version := by
    intro r _ k hk
    have hle := plan.active_version_le hk
    have hlt := h.versions_lt k.base
    have h1 : 1 < maxProgressVersions := by decide
    rw [Plan.finalVersion] at hle
    exact Nat.mod_eq_of_lt (by omega)
  refine ⟨fun r hr k hk => ?_, fun r hr k hk r' hr' k' hk' hne => ?_⟩
  · exact Option.isSome_iff_exists.1 (chunkState?_isSome.2 (hbase r hr k hk))
  · refine (separate_iff (hbase r hr k hk) (hbase r' hr' k' hk')).2 fun hword => hne ?_
    simp only [wordOf, Word.mk.injEq, hindex r hr k hk, hindex r' hr' k' hk'] at hword
    obtain ⟨base, version⟩ := k
    obtain ⟨base', version'⟩ := k'
    simp only at hword
    rw [hword.1, hword.2]

/-- **No room to spare.**  When every instruction runs in the world, a chunk
written sixteen times has versions zero and sixteen in use, in the same words. -/
theorem SlotsInjective.fit (hranks : RanksInWorld env program worldSize)
    (plan : Plan graphOptions program worldSize)
    (h : SlotsInjective worldSize (plan.graph env)) :
    SlotsFit env graphOptions program worldSize := by
  have hbase : ∀ r < worldSize, ∀ k ∈ (plan.graph env r).activeProgressKeys, InArrays k.base :=
    fun r hr k hk => chunkState?_isSome.1 (Option.isSome_iff_exists.2 (h.inArrays r hr k hk))
  refine ⟨fun r hr base hb => ?_, fun inst _ base _ => ?_⟩
  · obtain ⟨k, hk, rfl⟩ := plan.bases_active.2 hb
    exact hbase r hr k hk
  · by_contra hlt
    have hle : maxProgressVersions ≤ plan.finalVersion base := Nat.le_of_not_lt hlt
    have hpos : 0 < plan.finalVersion base := Nat.lt_of_lt_of_le (by decide) hle
    obtain ⟨r, hr, hk⟩ := plan.versions_active hranks hpos (Nat.zero_le _)
    obtain ⟨r', hr', hk'⟩ := plan.versions_active hranks hpos hle
    have hne : (⟨base, 0⟩ : ProgressKey) ≠ ⟨base, maxProgressVersions⟩ := by
      simp [maxProgressVersions]
    have hsep := h.separate r hr _ hk r' hr' _ hk' hne
    refine (separate_iff (hbase r hr _ hk) (hbase r' hr' _ hk')).1 hsep ?_
    simp [wordOf]

end

/-! ## All programs -/

theorem SlotsInjective.congr {worldSize : ℕ} {g g' : ℕ → CompiledGraph}
    (h : SlotsInjective worldSize g') (heq : ∀ r < worldSize, g r = g' r) :
    SlotsInjective worldSize g := by
  refine ⟨fun r hr k hk => ?_, fun r hr k hk r' hr' k' hk' => ?_⟩
  · rw [heq r hr] at hk
    exact h.inArrays r hr k hk
  · rw [heq r hr] at hk
    rw [heq r' hr'] at hk'
    exact h.separate r hr k hk r' hr' k' hk'

/-- **Progress slots.**  When the chunks of every rank lie in the arrays and no
chunk is written `MAX_PROGRESS_VERSIONS` times, different active keys of a
collective have words of their own.  Where every instruction runs on a rank of
the world, this happens only then. -/
theorem progress_slots (env : Env) (graphOptions : GraphCompileOptions) (program : IRProgram)
    (worldSize : ℕ) (g : ℕ → CompiledGraph)
    (hg : ∀ r < worldSize, compileGraph env program r worldSize graphOptions = .ok (g r)) :
    (SlotsFit env graphOptions program worldSize → SlotsInjective worldSize g) ∧
    (RanksInWorld env program worldSize → SlotsInjective worldSize g →
      SlotsFit env graphOptions program worldSize) := by
  have hplan : ∀ r < worldSize, ∃ plan : Plan graphOptions program worldSize,
      ∀ r < worldSize, g r = plan.graph env r := by
    intro r hr
    obtain ⟨plan, -⟩ := exists_plan hr (hg r hr)
    refine ⟨plan, fun r' hr' => ?_⟩
    have h := (hg r' hr').symm.trans (compileGraph_eq plan env hr')
    exact Except.ok.inj h
  constructor
  · intro hfit
    have hinj : ∀ r < worldSize, SlotsInjective worldSize g := by
      intro r hr
      obtain ⟨plan, heq⟩ := hplan r hr
      exact (hfit.injective plan).congr heq
    exact ⟨fun r hr => (hinj r hr).inArrays r hr, fun r hr => (hinj r hr).separate r hr⟩
  · intro hranks hinj
    have hfit : ∀ r < worldSize, SlotsFit env graphOptions program worldSize := by
      intro r hr
      obtain ⟨plan, heq⟩ := hplan r hr
      exact SlotsInjective.fit hranks plan (hinj.congr fun r hr => (heq r hr).symm)
    refine ⟨fun r hr => (hfit r hr).bases r hr, fun inst hmem base hb => ?_⟩
    -- an instruction that writes runs somewhere, so that the world has a rank
    have hop : inst.op ≠ .nop := fun hop => by
      rw [producedBase_eq_none.2 hop] at hb
      cases hb
    obtain ⟨h0, hlt⟩ := hranks inst hmem hop
    exact (hfit 0 (by omega)).versions inst hmem base hb

/-! ## Programs -/

/-- Rank zero stages its input chunk `n` times through the same host chunk. -/
def rewriteProgram (n : ℕ) : IRProgram where
  inputChunkCount := 1
  outputChunkCount := 0
  allInstructions := List.replicate n { op := .d2h, rank := 0, src := ⟨0, 0⟩, dst := ⟨0, 0⟩ }

theorem progress_slots_fifteen :
    ∃ g, (∀ r < 1, compileGraph {} (rewriteProgram 15) r 1 oneElement = .ok (g r)) ∧
      SlotsInjective 1 g ∧ SlotsFit {} oneElement (rewriteProgram 15) 1 := by
  let plan := (plan? oneElement (rewriteProgram 15) 1).get (by decide)
  have hg : ∀ r < 1, compileGraph {} (rewriteProgram 15) r 1 oneElement =
    .ok (plan.graph {} r) := fun r hr => compileGraph_eq plan {} hr
  have hslots := progress_slots {} oneElement (rewriteProgram 15) 1 _ hg
  have hinj := hslots.1 ⟨by decide, by decide⟩
  exact ⟨plan.graph {}, hg, hinj, hslots.2 (by decide) hinj⟩

/-- Sixteen writes of one chunk compile, and version sixteen has the words of
version zero. -/
theorem rewrites_share_words :
    ¬ ∀ (env : Env) (graphOptions : GraphCompileOptions) (program : IRProgram) (worldSize : ℕ)
      (g : ℕ → CompiledGraph),
      (∀ r < worldSize, compileGraph env program r worldSize graphOptions = .ok (g r)) →
      SlotsInjective worldSize g := by
  intro h
  let plan := (plan? oneElement (rewriteProgram 16) 1).get (by decide)
  have hinj := h {} oneElement (rewriteProgram 16) 1 (plan.graph {})
    fun r hr => compileGraph_eq plan {} hr
  have hranks : RanksInWorld {} (rewriteProgram 16) 1 := by decide
  have hwrites : plan.finalVersion (hostKey 0 0) = 16 := by decide
  obtain ⟨r, hr, hk⟩ := plan.versions_active hranks (by rw [hwrites]; decide) (Nat.zero_le _)
  obtain ⟨r', hr', hk'⟩ := plan.versions_active hranks (by rw [hwrites]; decide) hwrites.ge
  obtain ⟨⟨slot, slot', hslot, hslot', hne⟩, -⟩ := hinj.separate r hr _ hk r' hr' _ hk' (by decide)
  exact hne (Option.some.inj (hslot.symm.trans hslot'))

end Memory
end HyLink
