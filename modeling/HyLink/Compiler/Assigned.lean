import Mathlib.Data.List.Range
import HyLink.Compiler.Graph

/-!
# What pass 1 assigns

The specification of version and reader assignment.  A write gets the number of
earlier writes of its chunk plus one; a read gets the number of earlier writes
or, where there is none, zero for input data and the number of *all* writes
otherwise.  The reader ids of a chunk version are handed out consecutively from
zero.

* `assignAll_assigned` — the pass assigns exactly these versions.
* `readerIds_eq_range` — the reader ids of a version are `0, 1, …` in document
  order, and `reader_counts` is how many there are.
-/

namespace HyLink
namespace Compiler

open Ir

section

variable (graphOptions : GraphCompileOptions) (program : IRProgram) (worldSize : ℕ)

/-- A chunk that holds data before the first instruction: an input chunk of a
rank of the world. -/
def InputData (base : BaseKey) : Prop :=
  base.space = .input ∧ 0 ≤ base.chunk ∧ 0 ≤ base.owner ∧ base.owner < worldSize ∧
    base.chunk.toNat < maxInputChunkCount program base.owner

instance (base : BaseKey) : Decidable (InputData program worldSize base) := by
  unfold InputData; infer_instance

/-- The version a read of `base` sees after the instructions `pre`. -/
def readVersion (pre : List Instruction) (base : BaseKey) : ℕ :=
  let n := producedVersions graphOptions program worldSize pre base
  if 0 < n then n
  else if InputData program worldSize base then 0
  else producedVersions graphOptions program worldSize program.allInstructions base

/-- The assignment of an instruction that follows the instructions `pre`. -/
structure AssignedAt (pre : List Instruction) (a : Assignment) : Prop where
  produced : producedBase graphOptions program worldSize a.inst = some a.output.base
  version : a.output.version =
    producedVersions graphOptions program worldSize pre a.output.base + 1
  oldOutput : a.oldOutput =
    ⟨a.output.base, producedVersions graphOptions program worldSize pre a.output.base⟩
  inputs : a.inputs.map (·.key) = (inputBases graphOptions program worldSize a.inst).map
    fun base => ⟨base, readVersion graphOptions program worldSize pre base⟩

/-- `as` are the assignments of `insts` in a program that starts with `pre`:
one for every instruction with an output. -/
def AssignedFrom : List Instruction → List Instruction → List Assignment → Prop
  | _, [], as => as = []
  | pre, inst :: insts, as =>
      (producedBase graphOptions program worldSize inst = none ∧
        AssignedFrom (pre ++ [inst]) insts as) ∨
      ∃ a rest, as = a :: rest ∧ a.inst = inst ∧ AssignedAt graphOptions program worldSize pre a ∧
        AssignedFrom (pre ++ [inst]) insts rest

/-- `latest_by_base` after the instructions `pre`. -/
def LatestInvariant (pre : List Instruction) (map : LatestMap) : Prop :=
  ∀ base,
    let n := producedVersions graphOptions program worldSize pre base
    if 0 < n then map base = some n
    else if InputData program worldSize base then map base = some 0
    else map base = none ∨ (map base = some 0 ∧
      producedVersions graphOptions program worldSize program.allInstructions base = 0)

end

section

variable {graphOptions : GraphCompileOptions} {program : IRProgram} {worldSize : ℕ}
variable {pre : List Instruction} {map : LatestMap}

/-! ## Versions -/

theorem initialLatest_eq {rank : ℕ} (hrank : rank < worldSize) (base : BaseKey) :
    initialLatest program worldSize rank base =
      if InputData program worldSize base then some 0 else none := by
  simp only [initialLatest, InputData]
  congr 1
  apply propext
  constructor
  · rintro ⟨h1, h2, ⟨h3, h4⟩ | h⟩
    · exact ⟨h1, h2, by omega, by omega, by rw [h3]; exact h4⟩
    · exact ⟨h1, h2, h⟩
  · rintro ⟨h1, h2, h⟩
    exact ⟨h1, h2, Or.inr h⟩

theorem latestInvariant_init {rank : ℕ} (hrank : rank < worldSize) :
    LatestInvariant graphOptions program worldSize [] (initialLatest program worldSize rank) := by
  intro base
  simp only [producedVersions, List.countP_nil, lt_irrefl, if_false,
    initialLatest_eq hrank]
  split <;> simp

theorem latest_fst (hinv : LatestInvariant graphOptions program worldSize pre map)
    (base : BaseKey) : (latest graphOptions program worldSize map base).1 =
      readVersion graphOptions program worldSize pre base := by
  have h := hinv base
  simp only at h
  simp only [latest, readVersion]
  split at h
  · next hpos => simp [h, hpos]
  · split at h
    · next hn hin => simp [h, hn, hin]
    · next hn hin =>
      rcases h with h | ⟨h, h0⟩
      · simp only [h, hn, hin, if_false]
        split
        · rfl
        · exact (Nat.eq_zero_of_not_pos ‹_›).symm
      · simp [h, hn, hin, h0]

theorem latest_snd (hinv : LatestInvariant graphOptions program worldSize pre map)
    (base : BaseKey) : LatestInvariant graphOptions program worldSize pre
      (latest graphOptions program worldSize map base).2 := by
  have hbase := hinv base
  simp only at hbase
  rw [latest]
  split
  · exact hinv
  · next hnone =>
    simp only [hnone, reduceCtorEq, false_and, or_false, if_false_left] at hbase
    dsimp only
    split
    · exact hinv
    · next hfinal =>
      intro b
      have h := hinv b
      by_cases hb : b = base
      · subst hb
        simp [hbase.1, hbase.2.1, Nat.eq_zero_of_not_pos hfinal]
      · simpa only [Function.update_of_ne hb] using h

theorem latestAll_spec (hinv : LatestInvariant graphOptions program worldSize pre map)
    (bases : List BaseKey) :
    (latestAll graphOptions program worldSize map bases).1 =
        bases.map (fun base => ⟨base, readVersion graphOptions program worldSize pre base⟩) ∧
      LatestInvariant graphOptions program worldSize pre
        (latestAll graphOptions program worldSize map bases).2 := by
  induction bases generalizing map with
  | nil => exact ⟨rfl, hinv⟩
  | cons base bases ih =>
    obtain ⟨h1, h2⟩ := ih (latest_snd hinv base)
    refine ⟨?_, h2⟩
    simp only [latestAll, List.map_cons, ← h1, ← latest_fst hinv base]

theorem latestExisting_eq (hinv : LatestInvariant graphOptions program worldSize pre map)
    (base : BaseKey) : latestExisting map base =
      producedVersions graphOptions program worldSize pre base := by
  have h := hinv base
  simp only at h
  rw [latestExisting]
  split at h
  · simp [h]
  · next hn =>
    have h0 := Nat.eq_zero_of_not_pos hn
    split at h
    · simp [h, h0]
    · rcases h with h | ⟨h, -⟩ <;> simp [h, h0]

theorem produce_fst (hinv : LatestInvariant graphOptions program worldSize pre map)
    (base : BaseKey) : (produce map base).1 =
      producedVersions graphOptions program worldSize pre base + 1 := by
  have h := latestExisting_eq hinv base
  rw [latestExisting] at h
  simp only [produce]
  cases hm : map base <;> simp_all

theorem producedVersions_append (pre : List Instruction) (inst : Instruction) (base : BaseKey) :
    producedVersions graphOptions program worldSize (pre ++ [inst]) base =
      producedVersions graphOptions program worldSize pre base +
        if producedBase graphOptions program worldSize inst = some base then 1 else 0 := by
  simp [producedVersions, List.countP_append, List.countP_cons]

theorem produce_snd (hinv : LatestInvariant graphOptions program worldSize pre map)
    {inst : Instruction} {base : BaseKey}
    (hbase : producedBase graphOptions program worldSize inst = some base) :
    LatestInvariant graphOptions program worldSize (pre ++ [inst]) (produce map base).2 := by
  intro b
  have h := hinv b
  simp only [producedVersions_append, hbase, Option.some.injEq] at h ⊢
  by_cases hb : base = b
  · subst hb
    have hfst := produce_fst hinv base
    simp only [produce] at hfst
    simp [produce, hfst]
  · simpa [hb, produce, Function.update_of_ne (Ne.symm hb)] using h

/-! ## Reader ids -/

/-- The cursors that one instruction's operands advance for a chunk version. -/
def inputIds (inputs : List ReaderInput) (key : ProgressKey) : List ℕ :=
  (inputs.filter fun input => input.key = key).filterMap (·.readerId)

/-- The cursors that the assignments `as` advance for a chunk version, in
document order. -/
def readerIds (as : List Assignment) (key : ProgressKey) : List ℕ :=
  as.flatMap fun a => inputIds a.inputs key

/-- The counted keys are exactly those with a reader, each listed once. -/
structure ReaderCounts.Valid (counts : ReaderCounts) : Prop where
  nodup : counts.touched.Nodup
  mem_touched : ∀ key, key ∈ counts.touched ↔ 0 < counts.count key

theorem ReaderCounts.valid_empty : ({} : ReaderCounts).Valid := ⟨List.nodup_nil, by simp⟩

theorem ReaderCounts.Valid.add {counts : ReaderCounts} (h : counts.Valid) (key : ProgressKey) :
    (counts.add key).Valid := by
  constructor
  · simp only [ReaderCounts.add]
    split
    · exact h.nodup
    · exact h.nodup.append (List.nodup_singleton _) (by simpa using ‹_›)
  · intro k
    by_cases hk : k = key
    · subst hk
      simp only [ReaderCounts.add, Function.update_self, Nat.succ_pos, iff_true]
      split
      · assumption
      · simp
    · simp only [ReaderCounts.add, Function.update_of_ne hk]
      rw [← h.mem_touched]
      split <;> simp [hk]

theorem inputIds_cons_none (k key : ProgressKey) (inputs : List ReaderInput) :
    inputIds (⟨k, none⟩ :: inputs) key = inputIds inputs key := by
  by_cases h : k = key <;> simp [inputIds, h]

theorem inputIds_cons_some (k key : ProgressKey) (id : ℕ) (inputs : List ReaderInput) :
    inputIds (⟨k, some id⟩ :: inputs) key =
      (if k = key then [id] else []) ++ inputIds inputs key := by
  by_cases h : k = key <;> simp [inputIds, h]

/-- What `assignReaders` does: it keeps the keys, hands out consecutive ids below
the limit, and leaves only a reduce's own destination without one. -/
structure ReadersAssigned (inst : Instruction) (output : ProgressKey)
    (counts : ReaderCounts) (keys : List ProgressKey) (inputs : List ReaderInput)
    (counts' : ReaderCounts) : Prop where
  keys_eq : inputs.map (·.key) = keys
  ids : ∀ key, inputIds inputs key =
    List.range' (counts.count key) (inputIds inputs key).length
  count : ∀ key, counts'.count key = counts.count key + (inputIds inputs key).length
  valid : counts.Valid → counts'.Valid
  bounded : ∀ input ∈ inputs, ∀ id, input.readerId = some id → id < maxProgressReaders
  selfRmw : ∀ input ∈ inputs, input.readerId = none →
    inst.op = .d2dReduce ∧ input.key.base = output.base

theorem assignReaders_spec {inst : Instruction} {output : ProgressKey} {inputIdx : ℕ}
    {counts counts' : ReaderCounts} {keys : List ProgressKey} {inputs : List ReaderInput}
    (h : assignReaders inst output inputIdx counts keys = .ok (inputs, counts')) :
    ReadersAssigned inst output counts keys inputs counts' := by
  induction keys generalizing inputIdx counts inputs with
  | nil =>
    cases h
    exact ⟨rfl, fun _ => rfl, fun _ => rfl, id, by simp, by simp⟩
  | cons k keys ih =>
    rw [assignReaders] at h
    dsimp only at h
    split at h
    · next hself =>
      cases hrest : assignReaders inst output (inputIdx + 1) counts keys with
      | error e => rw [hrest] at h; cases h
      | ok r =>
        rw [hrest] at h
        cases h
        have hr := ih hrest
        refine ⟨by simp [hr.keys_eq], ?_, ?_, hr.valid, ?_, ?_⟩
        · simpa only [inputIds_cons_none] using hr.ids
        · simpa only [inputIds_cons_none] using hr.count
        · simpa using hr.bounded
        · simpa using ⟨⟨hself.1, hself.2.2⟩, hr.selfRmw⟩
    · split at h
      · cases h
      · next hself hlim =>
        cases hrest : assignReaders inst output (inputIdx + 1) (counts.add k) keys with
        | error e => rw [hrest] at h; cases h
        | ok r =>
          rw [hrest] at h
          cases h
          have hr := ih hrest
          refine ⟨by simp [hr.keys_eq], ?_, ?_, fun hv => hr.valid (hv.add k), ?_, ?_⟩
          · intro key
            rw [inputIds_cons_some]
            by_cases hk : k = key
            · subst hk
              have := hr.ids k
              simp only [ReaderCounts.add, Function.update_self] at this
              rw [this]
              simp [List.range'_succ]
            · have := hr.ids key
              simp only [ReaderCounts.add, Function.update_of_ne (Ne.symm hk)] at this
              simpa [hk] using this
          · intro key
            rw [hr.count key, inputIds_cons_some]
            by_cases hk : k = key
            · subst hk
              simp [ReaderCounts.add]
              omega
            · simp [ReaderCounts.add, Function.update_of_ne (Ne.symm hk), hk]
          · simpa using ⟨by omega, hr.bounded⟩
          · simpa using hr.selfRmw

/-- **One instruction of pass 1.** -/
theorem assignInstruction_spec {inst : Instruction} {st st' : PassState} {a : Option Assignment}
    (hinv : LatestInvariant graphOptions program worldSize pre st.latestByBase)
    (h : assignInstruction graphOptions program worldSize st inst = .ok (a, st')) :
    LatestInvariant graphOptions program worldSize (pre ++ [inst]) st'.latestByBase ∧
    match a with
    | none => producedBase graphOptions program worldSize inst = none ∧
        st'.readerCounts = st.readerCounts
    | some a => a.inst = inst ∧ AssignedAt graphOptions program worldSize pre a ∧
        ∃ keys, ReadersAssigned inst a.output st.readerCounts keys a.inputs st'.readerCounts := by
  rw [assignInstruction] at h
  split at h
  · next hnone =>
    cases h
    refine ⟨fun b => ?_, hnone, rfl⟩
    simpa only [producedVersions_append, hnone, reduceCtorEq, if_false, Nat.add_zero]
      using hinv b
  · next base hbase =>
    obtain ⟨hkeys, hinv'⟩ := latestAll_spec hinv (inputBases graphOptions program worldSize inst)
    simp only at h
    generalize hall : latestAll graphOptions program worldSize st.latestByBase
      (inputBases graphOptions program worldSize inst) = all at h hkeys hinv'
    obtain ⟨keys, map⟩ := all
    cases hr : assignReaders inst ⟨base, (produce map base).1⟩ 0 st.readerCounts keys with
    | error e => simp only [hr] at h; cases h
    | ok r =>
      simp only [hr] at h
      cases h
      have hread := assignReaders_spec hr
      refine ⟨produce_snd hinv' hbase, rfl, ⟨hbase, produce_fst hinv' base, ?_, ?_⟩, keys, hread⟩
      · rw [latestExisting_eq hinv' base]
      · exact hread.keys_eq.trans hkeys

/-- The pass over a list assigns the first instruction, then the others. -/
theorem assignAll_cons_ok {inst : Instruction} {insts : List Instruction} {st st' : PassState}
    {as : List Assignment}
    (h : assignAll graphOptions program worldSize st (inst :: insts) = .ok (as, st')) :
    ∃ a st1 rest, assignInstruction graphOptions program worldSize st inst = .ok (a, st1) ∧
      assignAll graphOptions program worldSize st1 insts = .ok (rest, st') ∧
      as = a.toList ++ rest := by
  rw [assignAll] at h
  cases h1 : assignInstruction graphOptions program worldSize st inst with
  | error e => simp only [h1] at h; cases h
  | ok r =>
    simp only [h1, bind, Except.bind] at h
    cases h2 : assignAll graphOptions program worldSize r.2 insts with
    | error e => simp only [h2] at h; cases h
    | ok q =>
      simp only [h2] at h
      cases h
      exact ⟨r.1, r.2, q.1, rfl, h2, rfl⟩

/-- **The versions of pass 1.** -/
theorem assignAll_assigned {insts : List Instruction} {st st' : PassState}
    {as : List Assignment}
    (hinv : LatestInvariant graphOptions program worldSize pre st.latestByBase)
    (h : assignAll graphOptions program worldSize st insts = .ok (as, st')) :
    AssignedFrom graphOptions program worldSize pre insts as ∧
      LatestInvariant graphOptions program worldSize (pre ++ insts) st'.latestByBase := by
  induction insts generalizing pre st as with
  | nil => cases h; exact ⟨rfl, by simpa using hinv⟩
  | cons inst insts ih =>
    obtain ⟨a, st1, rest, h1, h2, rfl⟩ := assignAll_cons_ok h
    obtain ⟨hinv1, ha⟩ := assignInstruction_spec hinv h1
    obtain ⟨hfrom, hlast⟩ := ih hinv1 h2
    refine ⟨?_, by simpa using hlast⟩
    cases a with
    | none => exact Or.inl ⟨ha.1, hfrom⟩
    | some a => exact Or.inr ⟨a, rest, rfl, ha.1, ha.2.1, hfrom⟩

/-- **The reader ids of pass 1** are consecutive: the ids handed out for a key
continue the count the pass started with. -/
theorem assignAll_readerIds {insts : List Instruction} {st st' : PassState}
    {as : List Assignment}
    (hinv : LatestInvariant graphOptions program worldSize pre st.latestByBase)
    (h : assignAll graphOptions program worldSize st insts = .ok (as, st')) :
    (∀ key, readerIds as key =
        List.range' (st.readerCounts.count key) (readerIds as key).length ∧
      st'.readerCounts.count key = st.readerCounts.count key + (readerIds as key).length) ∧
    (st.readerCounts.Valid → st'.readerCounts.Valid) ∧
    ∀ a ∈ as, ∀ input ∈ a.inputs,
      (∀ id, input.readerId = some id → id < maxProgressReaders) ∧
      (input.readerId = none → a.inst.op = .d2dReduce ∧ input.key.base = a.output.base) := by
  induction insts generalizing pre st as with
  | nil => cases h; exact ⟨fun _ => ⟨rfl, rfl⟩, id, by simp⟩
  | cons inst insts ih =>
    obtain ⟨a, st1, rest, h1, h2, rfl⟩ := assignAll_cons_ok h
    obtain ⟨hinv1, ha⟩ := assignInstruction_spec hinv h1
    obtain ⟨hids, hvalid, hmem⟩ := ih hinv1 h2
    cases a with
    | none =>
      simp only [ha.2] at hids hvalid
      exact ⟨hids, hvalid, hmem⟩
    | some a =>
      obtain ⟨hinst, -, keys, hr⟩ := ha
      refine ⟨fun key => ?_, fun hv => hvalid (hr.valid hv), ?_⟩
      · obtain ⟨hkey, hcount⟩ := hids key
        rw [hr.count key] at hkey hcount
        simp only [Option.toList_some, List.singleton_append, readerIds, List.flatMap_cons,
          List.length_append] at hkey hcount ⊢
        refine ⟨?_, by omega⟩
        rw [hkey, hr.ids key]
        simp [List.range'_append_1]
      · simp only [Option.toList_some, List.singleton_append, List.mem_cons, forall_eq_or_imp]
        refine ⟨fun input hin => ⟨hr.bounded input hin, fun hnone => ?_⟩, hmem⟩
        rw [hinst]
        exact hr.selfRmw input hin hnone

end

end Compiler
end HyLink
