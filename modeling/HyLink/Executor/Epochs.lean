import HyLink.Executor.Obligations
import HyLink.Executor.Publication
import HyLink.Executor.Series
import HyLink.Theory.Counting

/-!
# The two parities of the progress words

A rank that starts collective `k` uses the words that collective `k - 2` has
used.  Every rank has reset its own keys of `k - 2` before it arrived at the
barrier of `k - 1`, and no rank starts `k` before all have arrived there.

* `epochs_recycled` — when a rank starts a collective, the cursors of its
  parity are zero or stored for that very collective, the reader counts of the
  rank's keys are that collective's once it has stored them, and a reset finds
  nothing stored for a later collective.
* `stale_count` — the reader counts have no parity and are not reset: a
  count of two collectives ago is still there under a key of another rank.
-/

namespace HyLink
namespace Executor

open Ir Compiler

section

variable {c : Cluster} {r : ℕ} {w w' : SharedWords} {e e' : Exec} {l : Label}

/-! ## The stores of a step -/

/-- The cursors of a word are as before, or it is the word the step stores to. -/
theorem cursors_of_localStep (h : c.localStep r w e l = some (w', e')) (x : Word) :
    (w'.writeProgress x = w.writeProgress x ∧ w'.consumeProgress x = w.consumeProgress x ∧
      ∀ id, w'.readerDone id x = w.readerDone id x) ∨ storedWord e l = some x := by
  rcases words_eq_or_run h with rfl | ⟨head, rest, htodo, hrun⟩
  · exact Or.inl ⟨rfl, rfl, fun _ => rfl⟩
  · cases l with
    | run r' =>
      simp only [storedWord, htodo]
      cases head with
      | setWriteProgress key value | advanceWriteProgress key value =>
        cases hrun
        by_cases hx : x = wordOf key
        · exact Or.inr (by rw [hx])
        · exact Or.inl ⟨Function.update_of_ne hx .., rfl, fun _ => rfl⟩
      | raiseConsumeProgress key value =>
        cases hrun
        by_cases hx : x = wordOf key
        · exact Or.inr (by rw [hx])
        · exact Or.inl ⟨rfl, Function.update_of_ne hx .., fun _ => rfl⟩
      | advanceReaderDone key id value =>
        simp only [Cluster.runOp] at hrun
        split at hrun <;> cases hrun
        · exact Or.inl ⟨rfl, rfl, fun _ => rfl⟩
        · rename_i hid
          by_cases hx : x = wordOf key
          · exact Or.inr (by simp only [if_neg hid, hx])
          · refine Or.inl ⟨rfl, rfl, fun i => ?_⟩
            simp only [SharedWords.raiseReaderDone]
            split
            · rename_i hi
              rw [Function.update_of_ne hx, hi]
            · rfl
      | setNumReaders key count => cases hrun; exact Or.inl ⟨rfl, rfl, fun _ => rfl⟩
      | publishUserReady => cases hrun; exact Or.inl ⟨rfl, rfl, fun _ => rfl⟩
      | _ =>
        have hw : w' = w := (congrArg Prod.fst hrun).symm
        exact Or.inl (hw ▸ ⟨rfl, rfl, fun _ => rfl⟩)
    | start _ =>
      obtain ⟨-, rfl, -⟩ := start_eq h
      exact Or.inl ⟨rfl, rfl, fun _ => rfl⟩
    | attempt _ _ =>
      obtain ⟨-, -, n, -, rfl, -⟩ := attempt_eq h
      exact Or.inl ⟨rfl, rfl, fun _ => rfl⟩
    | poll _ _ _ =>
      obtain ⟨-, -, entry, n, -, -, -, rfl, -⟩ := poll_eq h
      exact Or.inl ⟨rfl, rfl, fun _ => rfl⟩
    | work _ _ _ _ _ =>
      obtain ⟨entry, share, n, -, -, -, -, -, -, rfl, -⟩ := work_eq h
      exact Or.inl ⟨rfl, rfl, fun _ => rfl⟩
    | count _ _ _ _ =>
      obtain ⟨entry, share, -, -, -, rfl, -⟩ := count_eq h
      exact Or.inl ⟨rfl, rfl, fun _ => rfl⟩

/-- A rank stores to the words of its own active keys. -/
theorem storedWord_active (ho : ∀ op ∈ e.todo, Origin c r op) {x : Word}
    (h : storedWord e l = some x) : ∃ key ∈ (c.graph r).activeProgressKeys, wordOf key = x := by
  cases l with
  | run r' =>
    simp only [storedWord] at h
    split at h
    · rename_i key value rest htodo
      exact ⟨key, initial_active (ho (.setWriteProgress key value) (by simp [htodo])).1,
        Option.some.inj h⟩
    · rename_i key value rest htodo
      obtain ⟨⟨i, n, hn, rfl⟩, -⟩ := ho (.advanceWriteProgress key value) (by simp [htodo])
      exact ⟨n.output, output_active hn, Option.some.inj h⟩
    · rename_i key value rest htodo
      obtain ⟨i, id, n, hn, y, hy, rfl, -⟩ := ho (.raiseConsumeProgress key value) (by simp [htodo])
      exact ⟨y.key, input_active hn hy, Option.some.inj h⟩
    · rename_i key id value rest htodo
      split at h
      · cases h
      · obtain ⟨⟨i, n, hn, y, hy, rfl, -⟩, -⟩ :=
          ho (.advanceReaderDone key id value) (by simp [htodo])
        exact ⟨y.key, input_active hn hy, Option.some.inj h⟩
    · cases h
  | start _ | attempt _ _ | poll _ _ _ | work _ _ _ _ _ | count _ _ _ _ => cases h

/-! ## A thread by itself -/

variable (c r e) in
/-- What a thread's own steps keep, whatever the words are. -/
structure ThreadInv : Prop where
  tidy : Tidy c r e
  origin : ∀ op ∈ e.todo, Origin c r op
  orderly : Orderly c r e

theorem ThreadInv.init : ThreadInv c r {} :=
  ⟨Tidy.init, fun op hop => by simp at hop, fun _ => rfl, by simp, by simp⟩

theorem ThreadInv.of_localStep (h : ThreadInv c r e) (hlocal : c.localStep r w e l = some (w', e')) :
    ThreadInv c r e' := by
  refine ⟨h.tidy.of_localStep hlocal, fun op hop => ?_, h.orderly.of_localStep hlocal⟩
  rcases Fresh.of_mem_todo hlocal hop with hop | hf
  · exact h.origin op hop
  · exact .of_fresh h.tidy h.origin hf

variable (c) in
/-- The word of a key holds zero or a count of the plan. -/
def Counts (w : Word → ℕ) (key : ProgressKey) : Prop :=
  w (wordOf key) = 0 ∨ ∃ key', wordOf key' = wordOf key ∧ w (wordOf key) = c.plan.numReaders key'

/-- A rank stores only zero and the counts of the plan. -/
theorem Counts.of_stores (ho : ∀ op ∈ e.todo, Origin c r op) (hstores : Stores w w' e)
    {key : ProgressKey} (h : Counts c w.numReaders key) : Counts c w'.numReaders key := by
  rcases hstores.numReadersWord key with heq | ⟨k, v, hword, hhead, heq⟩
  · have heq' : w'.numReaders (wordOf key) = w.numReaders (wordOf key) := heq
    unfold Counts
    rw [heq']
    exact h
  · have heq' : w'.numReaders (wordOf key) = v := heq
    unfold Counts
    rw [heq']
    rcases ho _ (List.mem_of_mem_head? hhead) with ⟨-, rfl⟩ | ⟨-, rfl⟩
    · exact Or.inl rfl
    · exact Or.inr ⟨k, hword.symm, rfl⟩

/-- Once a rank has cleared the count of a key, the count is the collective's. -/
theorem counted_of_localStep (h : ThreadInv c r e) (hlocal : c.localStep r w e l = some (w', e'))
    {key : ProgressKey} (hkey : key ∈ (c.graph r).activeProgressKeys)
    (hstarted : e'.started = true)
    (hold : e.started = true → .setNumReaders key 0 ∈ e.todo ∨ Counts c w.numReaders key) :
    .setNumReaders key 0 ∈ e'.todo ∨ Counts c w'.numReaders key := by
  rcases started_of_localStep hlocal with ⟨heq, -⟩ | ⟨_, -, -, -, -, htodo⟩
  · rcases hold (heq ▸ hstarted) with hop | hcount
    · rcases h.orderly.kept hlocal hop nofun with hop | ⟨rest, -, hrun⟩
      · exact Or.inl hop
      · have hw : w' = w.setNumReaders key 0 := (congrArg Prod.fst hrun).symm
        right
        rw [hw]
        exact Or.inl (Function.update_self ..)
    · exact Or.inr (hcount.of_stores h.origin (Stores.of_localStep hlocal))
  · left
    rw [htodo]
    simp only [Cluster.startOps, List.mem_append, List.mem_map]
    exact Or.inl (Or.inl ⟨key, hkey, rfl⟩)

end

namespace Series

variable {S : Series} {st st' : SeriesState} {l : SeriesLabel} {r : ℕ}

/-! ## The invariant -/

/-- Which collective a rank can be in while `generation` collectives have passed their
barrier. -/
def Place (generation round : ℕ) : Phase → Prop
  | .idle | .resetting _ => round = generation
  | .running => round = generation + 1
  | .arrived g => (round = generation + 1 ∧ g = generation) ∨ (round = generation ∧ g < generation)

/-- The rank has arrived at the barrier that is filling. -/
def atBarrier (st : SeriesState) (r : ℕ) : Bool :=
  decide (st.phase r = .arrived st.barrierGeneration)

variable (S) in
/-- The keys rank `r` has still to reset after its last collective. -/
def unreset (st : SeriesState) (r : ℕ) : List ProgressKey :=
  match st.phase r with
  | .arrived _ => ((S.collective (st.round r)).graph r).activeProgressKeys
  | .resetting keys => keys
  | .idle | .running => []

variable (S) in
structure Inv (st : SeriesState) : Prop where
  outside : ∀ r, S.worldSize ≤ r → st.phase r = .idle
  place : ∀ r < S.worldSize, Place st.barrierGeneration (st.round r) (st.phase r)
  count : st.barrierCount = (List.range S.worldSize).countP (atBarrier st)
  sound : ∀ r, st.phase r = .running → ThreadInv (S.collective (st.round r)) r (st.execs r)
  /-- The cursors the present collective uses: what is not zero is its own. -/
  present : ∀ x, keyInBounds x.base = true →
    ¬ (st.epoch ((st.barrierGeneration + 1) % 2)).zeroAt x →
    st.storedBy ((st.barrierGeneration + 1) % 2) x = st.barrierGeneration + 1 ∧
    ∃ r < S.worldSize, st.round r = st.barrierGeneration + 1 ∧
      ∃ key ∈ ((S.collective (st.round r)).graph r).activeProgressKeys, wordOf key = x
  /-- The cursors of the collective before: what is not zero is still to be reset. -/
  past : ∀ x, keyInBounds x.base = true → ¬ (st.epoch (st.barrierGeneration % 2)).zeroAt x →
    ∃ r < S.worldSize, st.round r = st.barrierGeneration ∧ ∃ key ∈ S.unreset st r, wordOf key = x
  stored_le : ∀ p x, st.storedBy p x ≤ st.barrierGeneration + 1
  stored_past : ∀ x, st.storedBy (st.barrierGeneration % 2) x ≤ st.barrierGeneration
  /-- The reader counts of a rank's keys, once it has cleared them. -/
  counted : ∀ r, st.phase r = .running → (st.execs r).started = true →
    ∀ key ∈ ((S.collective (st.round r)).graph r).activeProgressKeys,
      .setNumReaders key 0 ∈ (st.execs r).todo ∨
      Counts (S.collective (st.round r)) st.numReaders key

theorem Inv.init (stale : Word → ℕ) : Inv S (start stale) where
  outside := fun _ _ => rfl
  place := fun _ _ => rfl
  count := (List.countP_eq_zero.2 fun _ _ => by simp [atBarrier, start]).symm
  sound := fun r h => by simp [start] at h
  present := fun x _ h => absurd ⟨rfl, rfl, fun _ => rfl⟩ h
  past := fun x _ h => absurd ⟨rfl, rfl, fun _ => rfl⟩ h
  stored_le := fun _ _ => Nat.zero_le _
  stored_past := fun _ => Nat.zero_le _
  counted := fun r h => by simp [start] at h

/-- Only ranks of the communicator do anything. -/
theorem Inv.rank_lt (h : Inv S st) {r : ℕ} (hr : st.phase r ≠ .idle) : r < S.worldSize :=
  Nat.lt_of_not_le fun hle => hr (h.outside r hle)

theorem Inv.place_of (h : Inv S st) {r : ℕ} {ph : Phase} (hr : st.phase r = ph)
    (hne : ph ≠ .idle) : Place st.barrierGeneration (st.round r) ph :=
  hr ▸ h.place r (h.rank_lt (hr ▸ hne))

/-- The two parities in use are different. -/
theorem parity_ne (g : ℕ) : g % 2 ≠ (g + 1) % 2 := by omega

/-! ## The steps -/

theorem Inv.take (h : Inv S st) (hstep : S.step st (.take r) = some st') : Inv S st' := by
  simp only [Series.step] at hstep
  split at hstep <;> cases hstep
  rename_i hr
  obtain ⟨hr, hidle⟩ := hr
  have hround : st.round r = st.barrierGeneration := by
    have hp := h.place r hr
    rw [hidle] at hp
    exact hp
  have hother : ∀ {q : ℕ}, st.round q = st.barrierGeneration + 1 → q ≠ r := by
    rintro q hq rfl
    omega
  refine ⟨fun q hq => ?_, fun q hq => ?_, ?_, fun q hq => ?_, fun x hx hne => ?_,
    fun x hx hne => ?_, h.stored_le, h.stored_past, fun q hq hst => ?_⟩
  · have hqr : q ≠ r := fun heq => absurd hr (heq ▸ Nat.not_lt.2 hq)
    simpa [hqr] using h.outside q hq
  · by_cases hqr : q = r
    · subst hqr
      simp only [Function.update_self]
      exact congrArg Nat.succ hround
    · simpa [hqr] using h.place q hq
  · rw [h.count]
    apply Theory.countP_range_congr
    intro q _
    by_cases hqr : q = r
    · subst hqr
      simp [atBarrier, hidle]
    · simp [atBarrier, hqr]
  · by_cases hqr : q = r
    · subst hqr
      simpa using ThreadInv.init
    · simpa [hqr] using h.sound q (by simpa [hqr] using hq)
  · obtain ⟨hby, q, hq, hqround, hkey⟩ := h.present x hx hne
    have hqr := hother hqround
    exact ⟨hby, q, hq, by simpa [hqr] using hqround, by simpa [hqr] using hkey⟩
  · obtain ⟨q, hq, hqround, key, hkey, hword⟩ := h.past x hx hne
    have hqr : q ≠ r := by
      rintro rfl
      simp [unreset, hidle] at hkey
    exact ⟨q, hq, by simpa [hqr] using hqround, key, by simpa [unreset, hqr] using hkey, hword⟩
  · by_cases hqr : q = r
    · subst hqr
      simp at hst
    · simpa [hqr] using h.counted q (by simpa [hqr] using hq) (by simpa [hqr] using hst)

theorem Inv.inner {i : Label} (h : Inv S st) (hstep : S.step st (.inner i) = some st') :
    Inv S st' := by
  simp only [Series.step] at hstep
  split at hstep
  swap
  · cases hstep
  rename_i hr
  obtain ⟨hr, hrun⟩ := hr
  obtain ⟨⟨w, e⟩, hlocal, rfl⟩ := Option.map_eq_some_iff.1 hstep
  have hround : st.round i.rank = st.barrierGeneration + 1 := h.place_of hrun nofun
  have hsound := h.sound i.rank hrun
  rw [hround] at hlocal hsound ⊢
  refine ⟨h.outside, h.place, h.count, fun q hq => ?_, fun x hx hne => ?_,
    fun x hx hne => ?_, fun p x => ?_, fun x => ?_, fun q hq hst key hkey => ?_⟩
  · by_cases hqr : q = i.rank
    · subst hqr
      simpa [put, hround] using hsound.of_localStep hlocal
    · simpa [put, hqr] using h.sound q hq
  · simp only [put, Function.update_self] at hne ⊢
    by_cases hx' : storedWord (st.execs i.rank) i = some x
    · rw [if_pos hx']
      have hactive := storedWord_active hsound.origin hx'
      rw [← hround] at hactive
      exact ⟨rfl, i.rank, hr, hround, hactive⟩
    · rw [if_neg hx']
      obtain ⟨hw, hc, hd⟩ := (cursors_of_localStep hlocal x).resolve_right hx'
      refine h.present x hx fun hzero => hne ?_
      exact ⟨hw.trans hzero.1, hc.trans hzero.2.1, fun id => (hd id).trans (hzero.2.2 id)⟩
  · simp only [put, Function.update_of_ne (parity_ne _)] at hne
    exact h.past x hx hne
  · simp only [put]
    by_cases hp : p = (st.barrierGeneration + 1) % 2
    · subst hp
      rw [Function.update_self]
      split
      · exact le_rfl
      · exact h.stored_le _ x
    · rw [Function.update_of_ne hp]
      exact h.stored_le p x
  · simp only [put, Function.update_of_ne (parity_ne _)]
    exact h.stored_past x
  · have hqround : st.round q = st.barrierGeneration + 1 := h.place_of hq nofun
    have hold := h.counted q hq
    simp only [put] at hst hkey ⊢
    rw [hqround] at hkey hold ⊢
    by_cases hqr : q = i.rank
    · subst hqr
      rw [Function.update_self] at hst ⊢
      exact counted_of_localStep hsound hlocal hkey hst fun hst' => hold hst' key hkey
    · rw [Function.update_of_ne hqr] at hst ⊢
      exact (hold hst key hkey).imp_right fun hc =>
        hc.of_stores hsound.origin (Stores.of_localStep hlocal)

/-- The last rank arrives: the words in use become those of the collective before, and the
words of the collective before are all reset. -/
theorem Inv.turn (h : Inv S st) (hfull : st.barrierCount = S.worldSize) :
    Inv S { st with barrierCount := 0, barrierGeneration := st.barrierGeneration + 1 } := by
  have hall : ∀ q < S.worldSize, st.phase q = .arrived st.barrierGeneration := by
    intro q hq
    simpa [atBarrier] using Theory.countP_range_eq.1 (h.count.symm.trans hfull) q hq
  have hround : ∀ q < S.worldSize, st.round q = st.barrierGeneration + 1 := by
    intro q hq
    rcases h.place_of (hall q hq) nofun with ⟨hq, -⟩ | ⟨-, hlt⟩
    · exact hq
    · exact absurd hlt (lt_irrefl _)
  have hrunning : ∀ q, st.phase q ≠ .running := by
    intro q hq
    have hlt : q < S.worldSize := h.rank_lt (by rw [hq]; nofun)
    rw [hall q hlt] at hq
    cases hq
  refine ⟨h.outside, fun q hq => ?_, ?_, fun q hq => absurd hq (hrunning q),
    fun x hx hne => ?_, fun x hx hne => ?_, fun p x => Nat.le_succ_of_le (h.stored_le p x),
    fun x => h.stored_le _ x, fun q hq => absurd hq (hrunning q)⟩
  · show Place _ _ (st.phase q)
    rw [hall q hq]
    exact Or.inr ⟨hround q hq, Nat.lt_succ_self _⟩
  · symm
    apply List.countP_eq_zero.2
    intro q hq
    simp [atBarrier, hall q (List.mem_range.1 hq)]
  · -- nobody is left who has anything to reset
    have hparity : (st.barrierGeneration + 1 + 1) % 2 = st.barrierGeneration % 2 := by omega
    simp only [hparity] at hne
    obtain ⟨q, hq, hqround, -⟩ := h.past x hx hne
    have := hround q hq
    omega
  · obtain ⟨-, q, hq, hqround, key, hkey, hword⟩ := h.present x hx hne
    refine ⟨q, hq, hqround, key, ?_, hword⟩
    simpa [unreset, hall q hq] using hkey

/-- A rank arrives at the barrier. -/
theorem Inv.wait (h : Inv S st) (hr : r < S.worldSize) (hrun : st.phase r = .running) :
    Inv S { st with
      phase := Function.update st.phase r (.arrived st.barrierGeneration)
      barrierCount := st.barrierCount + 1 } := by
  have hne : ∀ {q : ℕ}, Function.update st.phase r (.arrived st.barrierGeneration) q = .running →
      q ≠ r ∧ st.phase q = .running := by
    intro q hq
    by_cases hqr : q = r
    · subst hqr
      simp at hq
    · exact ⟨hqr, by simpa [hqr] using hq⟩
  refine ⟨fun q hq => ?_, fun q hq => ?_, ?_, fun q hq => h.sound q (hne hq).2,
    h.present, fun x hx hne => ?_, h.stored_le, h.stored_past, fun q hq => h.counted q (hne hq).2⟩
  · have hqr : q ≠ r := fun heq => absurd hr (heq ▸ Nat.not_lt.2 hq)
    simpa [hqr] using h.outside q hq
  · by_cases hqr : q = r
    · subst hqr
      simp only [Function.update_self]
      exact Or.inl ⟨h.place_of hrun nofun, rfl⟩
    · simpa [hqr] using h.place q hq
  · show st.barrierCount + 1 = _
    rw [h.count]
    symm
    apply Theory.countP_range_set hr
    · simp [atBarrier, hrun]
    · simp [atBarrier]
    · intro q hq
      simp [atBarrier, hq]
  · obtain ⟨q, hq, hqround, key, hkey, hword⟩ := h.past x hx hne
    have hqr : q ≠ r := by
      rintro rfl
      simp [unreset, hrun] at hkey
    exact ⟨q, hq, hqround, key, by simpa [unreset, hqr] using hkey, hword⟩

theorem Inv.arrive (h : Inv S st) (hstep : S.step st (.arrive r) = some st') : Inv S st' := by
  simp only [Series.step] at hstep
  split at hstep
  swap
  · cases hstep
  rename_i hr
  have hwait := h.wait hr.1 hr.2.1
  split at hstep <;> cases hstep
  · rename_i hlast
    exact hwait.turn hlast
  · exact hwait

/-- A rank that is through with its barrier goes on.  Of the keys it had to reset, each is
still on its list, has its word at zero, or has no word. -/
theorem Inv.clear (h : Inv S st) {ph : Phase} {epoch : EpochWords} {stored : Word → ℕ}
    (hr : r < S.worldSize) (hround : st.round r = st.barrierGeneration)
    (hphase : st.phase r ≠ .arrived st.barrierGeneration)
    (hph : ph = .idle ∨ ∃ keys, ph = .resetting keys)
    (hkeys : ∀ key ∈ S.unreset st r, (∃ keys, ph = .resetting keys ∧ key ∈ keys) ∨
      (keyInBounds key.base = true → epoch.zeroAt (wordOf key)))
    (hkept : ∀ x, ¬ epoch.zeroAt x → ¬ (st.epoch (st.barrierGeneration % 2)).zeroAt x)
    (hstored : ∀ x, stored x ≤ st.storedBy (st.barrierGeneration % 2) x) :
    Inv S { st with
      phase := Function.update st.phase r ph
      epoch := Function.update st.epoch (st.barrierGeneration % 2) epoch
      storedBy := Function.update st.storedBy (st.barrierGeneration % 2) stored } := by
  have hrunning : ∀ {q : ℕ}, Function.update st.phase r ph q = .running →
      st.phase q = .running := by
    intro q hq
    by_cases hqr : q = r
    · subst hqr
      rw [Function.update_self] at hq
      rcases hph with rfl | ⟨keys, rfl⟩ <;> cases hq
    · simpa [hqr] using hq
  refine ⟨fun q hq => ?_, fun q hq => ?_, ?_, fun q hq => h.sound q (hrunning hq),
    fun x hx hne => ?_, fun x hx hne => ?_, fun p x => ?_, fun x => ?_,
    fun q hq => h.counted q (hrunning hq)⟩
  · have hqr : q ≠ r := fun heq => absurd hr (heq ▸ Nat.not_lt.2 hq)
    simpa [hqr] using h.outside q hq
  · by_cases hqr : q = r
    · subst hqr
      simp only [Function.update_self]
      rcases hph with rfl | ⟨keys, rfl⟩
      · exact hround
      · exact hround
    · simpa [hqr] using h.place q hq
  · show st.barrierCount = _
    rw [h.count]
    apply Theory.countP_range_congr
    intro q _
    by_cases hqr : q = r
    · subst hqr
      rcases hph with rfl | ⟨keys, rfl⟩ <;> simp [atBarrier, hphase]
    · simp [atBarrier, hqr]
  · simp only [Function.update_of_ne (parity_ne _).symm] at hne ⊢
    exact h.present x hx hne
  · simp only [Function.update_self] at hne
    obtain ⟨q, hq, hqround, key, hkey, rfl⟩ := h.past x hx (hkept x hne)
    refine ⟨q, hq, hqround, key, ?_, rfl⟩
    by_cases hqr : q = r
    · subst hqr
      rcases hkeys key hkey with ⟨keys, rfl, hmem⟩ | hzero
      · simpa [unreset] using hmem
      · exact absurd (hzero hx) hne
    · simpa [unreset, hqr] using hkey
  · by_cases hp : p = st.barrierGeneration % 2
    · subst hp
      simp only [Function.update_self]
      exact (hstored x).trans (h.stored_le _ x)
    · simp only [Function.update_of_ne hp]
      exact h.stored_le p x
  · simp only [Function.update_self]
    exact (hstored x).trans (h.stored_past x)

/-- The same, without a store. -/
theorem Inv.pass (h : Inv S st) {ph : Phase} (hr : r < S.worldSize)
    (hround : st.round r = st.barrierGeneration)
    (hphase : st.phase r ≠ .arrived st.barrierGeneration)
    (hph : ph = .idle ∨ ∃ keys, ph = .resetting keys)
    (hkeys : ∀ key ∈ S.unreset st r, (∃ keys, ph = .resetting keys ∧ key ∈ keys) ∨
      keyInBounds key.base = false) :
    Inv S { st with phase := Function.update st.phase r ph } := by
  have hclear := h.clear hr hround hphase hph
    (fun key hkey => (hkeys key hkey).imp_right fun hout hin => by rw [hout] at hin; cases hin)
    (fun x (hne : ¬ (st.epoch (st.barrierGeneration % 2)).zeroAt x) => hne)
    fun x => le_refl (st.storedBy (st.barrierGeneration % 2) x)
  simpa using hclear

theorem Inv.leave (h : Inv S st) (hstep : S.step st (.leave r) = some st') : Inv S st' := by
  simp only [Series.step] at hstep
  split at hstep
  swap
  · cases hstep
  rename_i g hphase
  split at hstep <;> cases hstep
  rename_i hg
  have hround : st.round r = st.barrierGeneration := by
    rcases h.place_of hphase nofun with ⟨-, rfl⟩ | ⟨hround, -⟩
    · exact absurd hg (lt_irrefl _)
    · exact hround
  refine h.pass (h.rank_lt (by rw [hphase]; nofun)) hround ?_ (Or.inr ⟨_, rfl⟩) fun key hkey => ?_
  · rw [hphase]
    rintro ⟨⟩
    exact lt_irrefl _ hg
  · have hactive : key ∈ ((S.collective (st.round r)).graph r).activeProgressKeys := by
      simpa [unreset, hphase] using hkey
    exact Or.inl ⟨_, rfl, hactive⟩

theorem Inv.reset (h : Inv S st) (hstep : S.step st (.reset r) = some st') : Inv S st' := by
  simp only [Series.step] at hstep
  split at hstep
  · rename_i key keys hphase
    have hr : r < S.worldSize := h.rank_lt (by rw [hphase]; nofun)
    have hround : st.round r = st.barrierGeneration := h.place_of hphase nofun
    have hkeys : ∀ k ∈ S.unreset st r, k = key ∨ k ∈ keys := by
      intro k hk
      simpa [unreset, hphase] using hk
    split at hstep <;> cases hstep
    · rw [hround]
      refine h.clear hr hround (by rw [hphase]; nofun) (Or.inr ⟨keys, rfl⟩) (fun k hk => ?_)
        (fun x hne hzero => hne ?_) fun x => ?_
      · rcases hkeys k hk with rfl | hk
        · right
          intro _
          simp [EpochWords.zeroAt, EpochWords.reset]
        · exact Or.inl ⟨keys, rfl, hk⟩
      · obtain ⟨hw, hc, hd⟩ := hzero
        by_cases hx : x = wordOf key
        · subst hx
          simp [EpochWords.zeroAt, EpochWords.reset]
        · simp [EpochWords.zeroAt, EpochWords.reset, hx, hw, hc, hd]
      · by_cases hx : x = wordOf key
        · subst hx
          simp
        · simp [hx]
    · rename_i hbounds
      refine h.pass hr hround (by rw [hphase]; nofun) (Or.inr ⟨keys, rfl⟩) fun k hk => ?_
      rcases hkeys k hk with rfl | hk
      · exact Or.inr (by simpa using hbounds)
      · exact Or.inl ⟨keys, rfl, hk⟩
  · cases hstep
    rename_i hphase
    refine h.pass (h.rank_lt (by rw [hphase]; nofun)) (h.place_of hphase nofun)
      (by rw [hphase]; nofun) (Or.inl rfl) fun key hkey => ?_
    simp [unreset, hphase] at hkey
  · cases hstep

theorem Inv.step (h : Inv S st) (hstep : S.step st l = some st') : Inv S st' := by
  cases l with
  | take r => exact h.take hstep
  | inner i => exact h.inner hstep
  | arrive r => exact h.arrive hstep
  | leave r => exact h.leave hstep
  | reset r => exact h.reset hstep

theorem Inv.of_run {stale : Word → ℕ} {ls : List SeriesLabel}
    (hrun : S.machine.runFrom Theory.Machine.anyStep (start stale) ls = some st) : Inv S st :=
  S.machine.invariant (fun _ _ _ h _ hstep => h.step hstep) (Inv.init stale) hrun

end Series

/-- **The words of a parity are recycled.**  While a rank is in a collective, the cursors of
its parity are zero or stored for that very collective.  Once it has cleared the reader count
of one of its keys, the count is the collective's.  And whoever resets a word finds nothing
there that was stored for a later collective than the one it has finished. -/
theorem epochs_recycled (S : Series) {stale : Word → ℕ} {ls : List SeriesLabel}
    {st : SeriesState}
    (hrun : S.machine.runFrom Theory.Machine.anyStep (Series.start stale) ls = some st) :
    (∀ r, st.phase r = .running → ∀ x, keyInBounds x.base = true →
      (st.epoch (st.round r % 2)).zeroAt x ∨ st.storedBy (st.round r % 2) x = st.round r) ∧
    (∀ r, st.phase r = .running → (st.execs r).started = true →
      ∀ key ∈ ((S.collective (st.round r)).graph r).activeProgressKeys,
        .setNumReaders key 0 ∉ (st.execs r).todo →
        Counts (S.collective (st.round r)) st.numReaders key) ∧
    ∀ r keys, st.phase r = .resetting keys →
      ∀ x, st.storedBy (st.round r % 2) x ≤ st.round r := by
  have h := Series.Inv.of_run hrun
  refine ⟨fun r hr x hx => ?_, fun r hr hst key hkey hclear => ?_, fun r keys hr x => ?_⟩
  · have hround : st.round r = st.barrierGeneration + 1 := h.place_of hr nofun
    rw [hround]
    by_cases hzero : (st.epoch ((st.barrierGeneration + 1) % 2)).zeroAt x
    · exact Or.inl hzero
    · exact Or.inr (h.present x hx hzero).1
  · exact (h.counted r hr hst key hkey).resolve_left hclear
  · have hround : st.round r = st.barrierGeneration := h.place_of hr nofun
    rw [hround]
    exact h.stored_past x

/-! ### A reader count of two collectives ago -/

/-- A collective of two ranks with one element each. -/
def onTwo (instructions : List Instruction)
    (plan : Plan { legacyLayout := { segCount := 1 } } ⟨1, 1, instructions⟩ 2) : Cluster where
  env := {}
  graphOptions := { legacyLayout := { segCount := 1 } }
  program := ⟨1, 1, instructions⟩
  worldSize := 2
  plan := plan
  binding := fun _ => plainBinding
  h2hThreads := 1
  h2hThreads_pos := Nat.one_pos

/-- A rank copies its input to its output. -/
def copyOut (r : ℤ) : Instruction := { op := .d2d, rank := r, src := ⟨0, 0⟩, dst := ⟨0, 0⟩ }

/-- A rank brings its input to the host. -/
def bringIn (r : ℤ) : Instruction := { op := .d2h, rank := r, src := ⟨0, 0⟩, dst := ⟨0, 0⟩ }

/-- In the first collective rank 0 fetches what it brought to the host; in the third
rank 1 brings its input there, and nobody fetches it. -/
def threeCollectives : Series where
  worldSize := 2
  worldSize_pos := Nat.two_pos
  queueDepth := 8
  collective := fun k =>
    if k = 1 then
      onTwo [bringIn 0, { op := .h2d, rank := 0, src := ⟨0, 0⟩, dst := ⟨0, 0⟩ }, copyOut 1]
        ((plan? _ _ _).get (by decide))
    else if k = 2 then onTwo [copyOut 0, copyOut 1] ((plan? _ _ _).get (by decide))
    else onTwo [copyOut 0, bringIn 1, copyOut 1] ((plan? _ _ _).get (by decide))
  worldSize_eq := fun k => by
    split
    · rfl
    · split <;> rfl

/-- Node `i` of rank `r` submits its only slice, which then is through. -/
def oneSlice (r i : ℕ) (q : Queue) : List Label :=
  .attempt r i :: runs r 4 ++ [.work r q 0 0 4, .count r q 0 0, .poll r q 0] ++ runs r 6

/-- Both ranks go through a collective, one after the other. -/
def bothRanks (first second : List Label) (keys₀ keys₁ : ℕ) : List SeriesLabel :=
  .take 0 :: first.map .inner ++ .arrive 0 :: .take 1 :: second.map .inner ++
  .arrive 1 :: .leave 1 :: List.replicate keys₁ (.reset 1) ++
  .leave 0 :: List.replicate keys₀ (.reset 0)

/-- Two collectives, and the start of rank 0 in the third. -/
def intoTheThird : List SeriesLabel :=
  bothRanks (.start 0 :: runs 0 10 ++ oneSlice 0 0 .d2h ++ oneSlice 0 1 .h2d)
    (.start 1 :: runs 1 8 ++ oneSlice 1 0 .d2dLocal) 6 4 ++
  bothRanks (.start 0 :: runs 0 7 ++ oneSlice 0 0 .d2dLocal)
    (.start 1 :: runs 1 7 ++ oneSlice 1 0 .d2dLocal) 4 4 ++
  .take 0 :: (.start 0 :: runs 0 7).map .inner

/-- When rank 0 has started the third collective, the host chunk's words of its parity, used
in the first collective, are zero again. -/
theorem epochs_recycled_third :
    ∃ st, threeCollectives.machine.runFrom Theory.Machine.anyStep (Series.start fun _ => 0)
        intoTheThird = some st ∧ st.round 0 = 3 ∧
      ((st.epoch 1).zeroAt (wordOf ⟨hostKey 0 0, 1⟩) ∨
        st.storedBy 1 (wordOf ⟨hostKey 0 0, 1⟩) = 3) := by
  have hobs : ((threeCollectives.machine.runFrom Theory.Machine.anyStep
      (Series.start fun _ => 0) intoTheThird).map fun st => (st.round 0, st.phase 0)) =
      some (3, .running) := by decide +kernel
  obtain ⟨st, hrun, hobs⟩ := Option.map_eq_some_iff.1 hobs
  simp only [Prod.mk.injEq] at hobs
  refine ⟨st, hrun, hobs.1, ?_⟩
  have hcursors := (epochs_recycled threeCollectives hrun).1 0 hobs.2 (wordOf ⟨hostKey 0 0, 1⟩)
    (by decide)
  rwa [hobs.1] at hcursors

/-- Rank 0 has started the third collective, in which nobody fetches the host chunk, and the
reader count of the first is still there. -/
theorem stale_count :
    ∃ st, threeCollectives.machine.runFrom Theory.Machine.anyStep (Series.start fun _ => 0)
        intoTheThird = some st ∧
      st.round 0 = 3 ∧ st.phase 0 = .running ∧ (st.execs 0).started = true ∧
      (st.execs 0).todo = [] ∧
      ⟨hostKey 0 0, 1⟩ ∈ ((threeCollectives.collective 3).graph 1).activeProgressKeys ∧
      (threeCollectives.collective 1).plan.numReaders ⟨hostKey 0 0, 1⟩ = 1 ∧
      (threeCollectives.collective 3).plan.numReaders ⟨hostKey 0 0, 1⟩ = 0 ∧
      st.numReaders (wordOf ⟨hostKey 0 0, 1⟩) = 1 := by
  have hobs : ((threeCollectives.machine.runFrom Theory.Machine.anyStep
      (Series.start fun _ => 0) intoTheThird).map fun st =>
        (st.round 0, st.phase 0, (st.execs 0).started, (st.execs 0).todo,
          st.numReaders (wordOf ⟨hostKey 0 0, 1⟩))) =
      some (3, .running, true, [], 1) := by decide +kernel
  obtain ⟨st, hrun, hobs⟩ := Option.map_eq_some_iff.1 hobs
  simp only [Prod.mk.injEq] at hobs
  exact ⟨st, hrun, hobs.1, hobs.2.1, hobs.2.2.1, hobs.2.2.2.1, by decide +kernel,
    by decide +kernel, by decide +kernel, hobs.2.2.2.2⟩

end Executor
end HyLink
