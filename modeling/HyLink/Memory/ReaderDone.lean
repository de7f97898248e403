import HyLink.Theory.Machine
import Mathlib.Data.List.MinMax
import Mathlib.Logic.Function.Basic

/-!
# The readers' cursors and the consume cursor

`advanceReaderDone`, one atomic access a step: a call raises the cursor of its reader, takes the
minimum over the cursors of all readers, and raises the consume cursor to it.  Both cursors are
raised by a weak compare-exchange in a loop, which can fail without a cause.

* `step` — a step of one of the calls under way.
* `Reaches` — a call under way will raise the consume cursor to the present minimum.
* `consume_exact` — the consume cursor never passes the minimum, never falls, and is the minimum
  where no call is under way.
-/

namespace HyLink
namespace Memory
namespace ReaderDone

open Theory

/-- `MAX_PROGRESS_READERS` -/
def maxProgressReaders : ℕ := 32

/-- The readers of a key. -/
structure Config where
  numReaders : ℕ
  le : numReaders ≤ maxProgressReaders

/-- The next access of a call. -/
inductive Stage
  /-- `rd.load()` -/
  | loadOwn
  /-- The loop at `rd`, with `old_rd`. -/
  | raiseOwn (old : ℕ)
  /-- The cursor of reader `i`, with `min_rd`. -/
  | scan (i min : ℕ)
  /-- `cp.load()` -/
  | loadConsume (min : ℕ)
  /-- The loop at `cp`, with `old_cp`. -/
  | raiseConsume (min old : ℕ)
  deriving DecidableEq, Repr

structure Call where
  reader : ℕ
  newVal : ℕ
  stage : Stage
  deriving DecidableEq, Repr

structure State where
  readerDone : ℕ → ℕ
  consume : ℕ
  /-- The call of a thread. -/
  call : ℕ → Option Call

/-- After `resetEpochKeys`. -/
def State.initial : State := ⟨fun _ => 0, 0, fun _ => none⟩

/-- `compare_exchange_weak` of `expected` with `desired`: the word after it, and what it expects
next if it failed. -/
def compareExchange (spurious : Bool) (word expected desired : ℕ) : ℕ × Option ℕ :=
  if word = expected ∧ spurious = false then (desired, none) else (word, some word)

/-- The next access of a call; a call that is over has none. -/
def advance (n : ℕ) (spurious : Bool) (s : State) (c : Call) : State × Option Call :=
  match c.stage with
  | .loadOwn => (s, some { c with stage := .raiseOwn (s.readerDone c.reader) })
  | .raiseOwn old =>
    if old < c.newVal then
      match compareExchange spurious (s.readerDone c.reader) old c.newVal with
      | (word, some old) =>
        ({ s with readerDone := Function.update s.readerDone c.reader word },
          some { c with stage := .raiseOwn old })
      | (word, none) =>
        ({ s with readerDone := Function.update s.readerDone c.reader word },
          some { c with stage := .scan 0 c.newVal })
    else (s, some { c with stage := .scan 0 c.newVal })
  | .scan i min =>
    if i < n then
      let v := s.readerDone i
      (s, some { c with stage := .scan (i + 1) (if v < min then v else min) })
    else (s, some { c with stage := .loadConsume min })
  | .loadConsume min => (s, some { c with stage := .raiseConsume min s.consume })
  | .raiseConsume min old =>
    if old < min then
      match compareExchange spurious s.consume old min with
      | (word, some old) =>
        ({ s with consume := word }, some { c with stage := .raiseConsume min old })
      | (word, none) => ({ s with consume := word }, none)
    else (s, none)

inductive Label
  /-- A thread calls `advanceReaderDone` for a reader of the key. -/
  | call (thread reader newVal : ℕ)
  | advance (thread : ℕ) (spurious : Bool)

def step (cfg : Config) (s : State) : Label → Option State
  | .call t reader newVal =>
    if reader < cfg.numReaders ∧ (s.call t).isNone then
      some { s with call := Function.update s.call t (some ⟨reader, newVal, .loadOwn⟩) }
    else none
  | .advance t spurious =>
    (s.call t).map fun c =>
      let (s', c') := advance cfg.numReaders spurious s c
      { s' with call := Function.update s.call t c' }

def machine (cfg : Config) : Machine State Label := ⟨step cfg⟩

/-- The minimum of the cursors of the readers. -/
def minDone (n : ℕ) (readerDone : ℕ → ℕ) : ℕ := ((List.range n).map readerDone).min?.getD 0

variable {n : ℕ} {f g : ℕ → ℕ}

theorem minDone_le {i : ℕ} (hi : i < n) : minDone n f ≤ f i := by
  unfold minDone
  cases hmin : ((List.range n).map f).min? with
  | none => exact Nat.zero_le _
  | some m =>
    have hle := (List.min?_eq_some_iff.1 hmin).2
    exact hle (f i) (List.mem_map.2 ⟨i, List.mem_range.2 hi, rfl⟩)

theorem le_minDone (hn : 0 < n) {m : ℕ} (h : ∀ i < n, m ≤ f i) : m ≤ minDone n f := by
  unfold minDone
  cases hmin : ((List.range n).map f).min? with
  | none =>
    rw [List.min?_eq_none_iff, List.map_eq_nil_iff, List.range_eq_nil] at hmin
    omega
  | some k =>
    obtain ⟨i, hi, rfl⟩ := List.mem_map.1 (List.min?_eq_some_iff.1 hmin).1
    exact h i (List.mem_range.1 hi)

/-! ## What a call has seen -/

/-- What the minimum of a call bounds. -/
def Call.Below (n : ℕ) (s : State) (c : Call) : Prop :=
  match c.stage with
  | .loadOwn | .raiseOwn _ => True
  | .scan i min => ∀ k < i, k < n → min ≤ s.readerDone k
  | .loadConsume min => ∀ k < n, min ≤ s.readerDone k
  | .raiseConsume min old => (∀ k < n, min ≤ s.readerDone k) ∧ old ≤ s.consume

/-- The call will raise the consume cursor to the minimum of the cursors. -/
def Call.Reaches (n : ℕ) (s : State) (c : Call) : Prop :=
  match c.stage with
  | .loadOwn | .raiseOwn _ => False
  | .scan _ min | .loadConsume min | .raiseConsume min _ => minDone n s.readerDone ≤ min

structure Inv (n : ℕ) (s : State) : Prop where
  reader : ∀ t c, s.call t = some c → c.reader < n
  unread : n = 0 → s.consume = 0
  le : ∀ i < n, s.consume ≤ s.readerDone i
  below : ∀ t c, s.call t = some c → c.Below n s
  /-- The minimum is published, or a call under way will publish it. -/
  reaches : minDone n s.readerDone ≤ s.consume ∨ ∃ t c, s.call t = some c ∧ c.Reaches n s

variable {s s' : State} {c : Call}

theorem Inv.initial (n : ℕ) : Inv n State.initial where
  reader := fun _ _ h => nomatch h
  unread := fun _ => rfl
  le := fun _ _ => le_refl 0
  below := fun _ _ h => nomatch h
  reaches := by
    left
    rcases Nat.eq_zero_or_pos n with rfl | hn
    · exact le_refl 0
    · exact minDone_le hn

/-- What a call bounds is still bounded when the cursors grow. -/
theorem Call.Below.mono (h : c.Below n s) (hdone : ∀ i, s.readerDone i ≤ s'.readerDone i)
    (hconsume : s.consume ≤ s'.consume) : c.Below n s' := by
  unfold Call.Below at h ⊢
  cases hstage : c.stage with
  | loadOwn | raiseOwn old => trivial
  | scan i min =>
    rw [hstage] at h
    exact fun k hk hkn => (h k hk hkn).trans (hdone k)
  | loadConsume min =>
    rw [hstage] at h
    exact fun k hk => (h k hk).trans (hdone k)
  | raiseConsume min old =>
    rw [hstage] at h
    exact ⟨fun k hk => (h.1 k hk).trans (hdone k), h.2.trans hconsume⟩

/-- **A step of one call**, seen by the invariant: the cursors do not fall, the minimum is still
bounded, and the minimum is published or still to be published by this call or by another. -/
theorem Inv.change (h : Inv n s) {t : ℕ} {c' : Option Call} (hcall : s.call t = some c)
    (hs : s'.call = Function.update s.call t c') (hdone : ∀ i, s.readerDone i ≤ s'.readerDone i)
    (hconsume : s.consume ≤ s'.consume) (hle : ∀ i < n, s'.consume ≤ s'.readerDone i)
    (hreader : ∀ x, c' = some x → x.reader = c.reader)
    (hbelow : ∀ x, c' = some x → x.Below n s')
    (hsame : (∃ x, c' = some x ∧ x.Reaches n s') ∨ minDone n s'.readerDone ≤ s'.consume ∨
      s'.readerDone = s.readerDone ∧ ¬c.Reaches n s) : Inv n s' := by
  have hother (u : ℕ) (hu : u ≠ t) : s'.call u = s.call u := by
    rw [hs, Function.update_of_ne hu]
  have hself : s'.call t = c' := by rw [hs, Function.update_self]
  refine ⟨?_, ?_, hle, ?_, ?_⟩
  · intro u x hx
    by_cases hu : u = t
    · subst hu
      rw [hreader x (hself ▸ hx)]
      exact h.reader u c hcall
    · exact h.reader u x (hother u hu ▸ hx)
  · rintro rfl
    exact absurd (h.reader t c hcall) (Nat.not_lt_zero _)
  · intro u x hx
    by_cases hu : u = t
    · subst hu
      exact hbelow x (hself ▸ hx)
    · exact (h.below u x (hother u hu ▸ hx)).mono hdone hconsume
  · rcases hsame with ⟨x, hx, hr⟩ | hpub | ⟨heq, hnot⟩
    · exact .inr ⟨t, x, hself.trans hx, hr⟩
    · exact .inl hpub
    · rcases h.reaches with hpub | ⟨u, x, hx, hr⟩
      · left
        rw [heq]
        exact hpub.trans hconsume
      · -- the witness is another call, and it looks at the same cursors
        have hu : u ≠ t := by
          rintro rfl
          rw [hcall] at hx
          cases hx
          exact hnot hr
        refine .inr ⟨u, x, (hother u hu).trans hx, ?_⟩
        unfold Call.Reaches at hr ⊢
        rw [heq]
        exact hr

/-- The cursor of its own reader that a call has raised is the minimum it starts from. -/
theorem minDone_update_le {j v : ℕ} (hj : j < n) : minDone n (Function.update f j v) ≤ v :=
  (minDone_le hj).trans (Function.update_self j v f).le

theorem Inv.advance (h : Inv n s) {t : ℕ} {spurious : Bool} (hcall : s.call t = some c)
    (hs : s' = { (ReaderDone.advance n spurious s c).1 with
      call := Function.update s.call t (ReaderDone.advance n spurious s c).2 }) :
    Inv n s' ∧ s.consume ≤ s'.consume := by
  have hj := h.reader t c hcall
  have hbelow := h.below t c hcall
  obtain ⟨j, v, stage⟩ := c
  subst hs
  cases stage with
  | loadOwn =>
    refine ⟨h.change hcall rfl (fun _ => le_refl _) (le_refl _) h.le ?_ ?_ ?_, le_refl _⟩
    · rintro x ⟨⟩
      rfl
    · rintro x ⟨⟩
      trivial
    · exact .inr (.inr ⟨rfl, fun hr => hr⟩)
  | raiseOwn old =>
    simp only [ReaderDone.advance, compareExchange]
    by_cases hlt : old < v
    · rw [if_pos hlt]
      by_cases hcas : s.readerDone j = old ∧ spurious = false
      · -- the cursor is raised: from now on this call sees the minimum
        rw [if_pos hcas]
        have hdone (i : ℕ) : s.readerDone i ≤ Function.update s.readerDone j v i := by
          by_cases hi : i = j
          · subst hi
            rw [Function.update_self, hcas.1]
            exact hlt.le
          · rw [Function.update_of_ne hi]
        refine ⟨h.change hcall rfl hdone (le_refl _) (fun i hi => (h.le i hi).trans (hdone i))
          ?_ ?_ ?_, le_refl _⟩
        · rintro x ⟨⟩
          rfl
        · rintro x ⟨⟩ k hk
          exact absurd hk (Nat.not_lt_zero k)
        · exact .inl ⟨_, rfl, minDone_update_le hj⟩
      · rw [if_neg hcas]
        have heq : Function.update s.readerDone j (s.readerDone j) = s.readerDone :=
          Function.update_eq_self j _
        refine ⟨h.change hcall rfl (fun i => (congrFun heq i).ge) (le_refl _)
          (fun i hi => (h.le i hi).trans (congrFun heq i).ge) ?_ ?_ ?_, le_refl _⟩
        · rintro x ⟨⟩
          rfl
        · rintro x ⟨⟩
          trivial
        · exact .inr (.inr ⟨heq, fun hr => hr⟩)
    · rw [if_neg hlt]
      refine ⟨h.change hcall rfl (fun _ => le_refl _) (le_refl _) h.le ?_ ?_ ?_, le_refl _⟩
      · rintro x ⟨⟩
        rfl
      · rintro x ⟨⟩ k hk
        exact absurd hk (Nat.not_lt_zero k)
      · exact .inr (.inr ⟨rfl, fun hr => hr⟩)
  | scan i min =>
    simp only [ReaderDone.advance]
    by_cases hi : i < n
    · rw [if_pos hi]
      have hmin : (if s.readerDone i < min then s.readerDone i else min) ≤ min ∧
          (if s.readerDone i < min then s.readerDone i else min) ≤ s.readerDone i := by
        split <;> constructor <;> omega
      refine ⟨h.change hcall rfl (fun _ => le_refl _) (le_refl _) h.le ?_ ?_ ?_, le_refl _⟩
      · rintro x ⟨⟩
        rfl
      · rintro x ⟨⟩ k hk hkn
        rcases Nat.lt_succ_iff_lt_or_eq.1 hk with hk | rfl
        · exact hmin.1.trans (hbelow k hk hkn)
        · exact hmin.2
      · by_cases hr : minDone n s.readerDone ≤ min
        · refine .inl ⟨_, rfl, ?_⟩
          show minDone n s.readerDone ≤ if s.readerDone i < min then s.readerDone i else min
          split
          · exact minDone_le hi
          · exact hr
        · exact .inr (.inr ⟨rfl, hr⟩)
    · rw [if_neg hi]
      refine ⟨h.change hcall rfl (fun _ => le_refl _) (le_refl _) h.le ?_ ?_ ?_, le_refl _⟩
      · rintro x ⟨⟩
        rfl
      · rintro x ⟨⟩ k hk
        exact hbelow k (by omega) hk
      · by_cases hr : minDone n s.readerDone ≤ min
        · exact .inl ⟨_, rfl, hr⟩
        · exact .inr (.inr ⟨rfl, hr⟩)
  | loadConsume min =>
    refine ⟨h.change hcall rfl (fun _ => le_refl _) (le_refl _) h.le ?_ ?_ ?_, le_refl _⟩
    · rintro x ⟨⟩
      rfl
    · rintro x ⟨⟩
      exact ⟨hbelow, le_refl _⟩
    · by_cases hr : minDone n s.readerDone ≤ min
      · exact .inl ⟨_, rfl, hr⟩
      · exact .inr (.inr ⟨rfl, hr⟩)
  | raiseConsume min old =>
    simp only [ReaderDone.advance, compareExchange]
    by_cases hlt : old < min
    · rw [if_pos hlt]
      by_cases hcas : s.consume = old ∧ spurious = false
      · rw [if_pos hcas]
        have hle : s.consume ≤ min := hcas.1.le.trans hlt.le
        refine ⟨h.change hcall rfl (fun _ => le_refl _) hle hbelow.1 ?_ ?_ ?_, hle⟩
        · rintro x ⟨⟩
        · rintro x ⟨⟩
        · by_cases hr : minDone n s.readerDone ≤ min
          · exact .inr (.inl hr)
          · exact .inr (.inr ⟨rfl, hr⟩)
      · rw [if_neg hcas]
        refine ⟨h.change hcall rfl (fun _ => le_refl _) (le_refl _) h.le ?_ ?_ ?_, le_refl _⟩
        · rintro x ⟨⟩
          rfl
        · rintro x ⟨⟩
          exact ⟨hbelow.1, le_refl _⟩
        · by_cases hr : minDone n s.readerDone ≤ min
          · exact .inl ⟨_, rfl, hr⟩
          · exact .inr (.inr ⟨rfl, hr⟩)
    · -- another call has published as much
      rw [if_neg hlt]
      refine ⟨h.change hcall rfl (fun _ => le_refl _) (le_refl _) h.le ?_ ?_ ?_, le_refl _⟩
      · rintro x ⟨⟩
      · rintro x ⟨⟩
      · by_cases hr : minDone n s.readerDone ≤ min
        · have hold := hbelow.2
          exact .inr (.inl (hr.trans ((Nat.le_of_not_lt hlt).trans hold)))
        · exact .inr (.inr ⟨rfl, hr⟩)

variable {cfg : Config}

theorem Inv.step {l : Label} (h : Inv cfg.numReaders s) (hstep : step cfg s l = some s') :
    Inv cfg.numReaders s' ∧ s.consume ≤ s'.consume := by
  cases l with
  | call t reader newVal =>
    obtain ⟨⟨hreader, hnone⟩, hs⟩ := Option.ite_none_right_eq_some.1 hstep
    cases hs
    have hcall : s.call t = none := Option.isNone_iff_eq_none.1 hnone
    have hnew (u : ℕ) (x : Call)
        (hx : Function.update s.call t (some ⟨reader, newVal, .loadOwn⟩) u = some x) :
        x = ⟨reader, newVal, .loadOwn⟩ ∨ s.call u = some x := by
      by_cases hu : u = t
      · subst hu
        rw [Function.update_self] at hx
        exact .inl (Option.some.inj hx).symm
      · rw [Function.update_of_ne hu] at hx
        exact .inr hx
    refine ⟨⟨?_, h.unread, h.le, ?_, ?_⟩, le_refl _⟩
    · intro u x hx
      rcases hnew u x hx with rfl | hx
      · exact hreader
      · exact h.reader u x hx
    · intro u x hx
      rcases hnew u x hx with rfl | hx
      · trivial
      · exact (h.below u x hx).mono (fun _ => le_refl _) (le_refl _)
    · refine h.reaches.imp_right ?_
      rintro ⟨u, x, hx, hr⟩
      have hu : u ≠ t := by
        rintro rfl
        rw [hcall] at hx
        cases hx
      exact ⟨u, x, (Function.update_of_ne hu _ _).trans hx, hr⟩
  | advance t spurious =>
    obtain ⟨c, hc, rfl⟩ := Option.map_eq_some_iff.1 hstep
    exact h.advance hc rfl

theorem Inv.le_minDone (h : Inv n s) : s.consume ≤ minDone n s.readerDone := by
  rcases Nat.eq_zero_or_pos n with hn | hn
  · rw [h.unread hn]
    exact Nat.zero_le _
  · exact ReaderDone.le_minDone hn h.le

/-- Where no call is under way, nobody else has to publish the minimum. -/
theorem Inv.eq_minDone (h : Inv n s) (hidle : ∀ t, s.call t = none) :
    s.consume = minDone n s.readerDone := by
  refine le_antisymm h.le_minDone (h.reaches.resolve_right ?_)
  rintro ⟨t, c, hc, -⟩
  rw [hidle t] at hc
  cases hc

theorem Inv.run {ls : List Label} (h : Inv cfg.numReaders s)
    (hrun : (machine cfg).runFrom Machine.anyStep s ls = some s') :
    Inv cfg.numReaders s' ∧ s.consume ≤ s'.consume := by
  refine (machine cfg).invariant (I := fun t => Inv cfg.numReaders t ∧ s.consume ≤ t.consume) ?_
    ⟨h, le_refl _⟩ hrun
  rintro t l t' ⟨ht, hle⟩ - hstep
  obtain ⟨ht', hle'⟩ := ht.step hstep
  exact ⟨ht', hle.trans hle'⟩

/-- **The consume cursor.**  For any number of readers and in any order of the accesses of their
calls, it never passes the minimum of the readers' cursors, never falls, and is the minimum
whenever all calls have returned. -/
theorem consume_exact (cfg : Config) (ls more : List Label) (s s' : State)
    (hrun : (machine cfg).runFrom Machine.anyStep State.initial ls = some s)
    (hmore : (machine cfg).runFrom Machine.anyStep s more = some s') :
    s'.consume ≤ minDone cfg.numReaders s'.readerDone ∧ s.consume ≤ s'.consume ∧
      ((∀ t, s'.call t = none) → s'.consume = minDone cfg.numReaders s'.readerDone) := by
  obtain ⟨hI, -⟩ := (Inv.initial cfg.numReaders).run hrun
  obtain ⟨hI', hle⟩ := hI.run hmore
  exact ⟨hI'.le_minDone, hle, hI'.eq_minDone⟩

/-- Two readers whose calls overlap: the first one scans before the second one has raised its
cursor, and the second one publishes for both. -/
def overlapping : List Label :=
  [.call 0 0 3, .call 1 1 2] ++ List.replicate 6 (.advance 0 false) ++
    [.advance 1 false, .advance 1 true] ++ List.replicate 6 (.advance 1 false)

theorem consume_exact_overlapping :
    ∃ s, (machine ⟨2, by decide⟩).runFrom Machine.anyStep State.initial overlapping = some s ∧
      s.consume = 2 ∧ s.consume ≤ minDone 2 s.readerDone := by
  have hobs : ((machine ⟨2, by decide⟩).runFrom Machine.anyStep State.initial
      overlapping).map State.consume = some 2 := by
    decide +kernel
  obtain ⟨s, hrun, hs⟩ := Option.map_eq_some_iff.1 hobs
  exact ⟨s, hrun, hs, (consume_exact ⟨2, by decide⟩ overlapping [] s s hrun rfl).1⟩

end ReaderDone
end Memory
end HyLink
