import HyLink.Ascend.H2HRangeRuns
import Mathlib.Algebra.Order.BigOperators.Group.Finset

/-!
# The end of a range task

What a range task leaves when all its threads are through, that it comes to its end, and how that
compares with the path without a range.

* `Inv.ended` — the slices with bytes are copied and published, and no others.
* `Inv.ended_of_rest` — where the cursors of the others have arrived, the threads stop at the end
  only.
* `Inv.budget_step` — they do stop.
* `h2h_range` — no slice is written too early and no cursor raised too early; the task comes to its
  end with the bytes of the plain path, and with its cursors just if the last subchunk has bytes.
* `h2h_range_short` — a node of three bytes in a graph of two subchunks.
-/

namespace HyLink
namespace Ascend
namespace H2HRange

open Theory

variable {α : Type} {req : Request} {data : ℕ → ℕ → α} {dst₀ : ℕ → α} {s s' : State α}
  {tid q : ℕ}

/-! ## What is left -/

/-- The completion of the task is pushed. -/
def State.Ended (req : Request) (s : State α) : Prop := s.threadsDone = req.threads

theorem Inv.done_of_ended (h : Inv req data dst₀ s) (hended : s.Ended req) :
    ∀ tid < req.threads, s.phase tid = .done := fun tid htid =>
  eq_of_beq (countP_range_eq.1 (h.count.symm.trans hended) tid htid)

/-- **The slices with bytes are copied and published**, and no others. -/
theorem Inv.ended (h : Inv req data dst₀ s) (hended : s.Ended req) :
    ∃ k ≤ req.numSubchunks, (∀ sc < k, req.carries sc = true) ∧ req.carries k = false ∧
      s.outcome = ⟨slices req data dst₀ k, k, if req.reads then k else 0⟩ := by
  have hdone := h.done_of_ended hended
  obtain ⟨_, hgen, hno⟩ := h.outside_of req.threads_pos (by rw [hdone 0 req.threads_pos]; rfl)
  have hcarried : ∀ sc < s.gate.generation, req.carries sc = true := fun sc hsc =>
    h.carried 0 req.threads_pos sc (Nat.lt_add_right _ (hgen.symm ▸ hsc))
  have hend := h.waited 0 req.threads_pos
  rw [hdone 0 req.threads_pos, hgen] at hend
  refine ⟨s.gate.generation, ?_, hcarried, hend, ?_⟩
  · by_contra hlt
    exact absurd (carries_iff.1 (hcarried _ (Nat.lt_of_not_le hlt))).1 (Nat.lt_irrefl _)
  · have hdst : s.dst = slices req data dst₀ s.gate.generation :=
      funext fun a => h.other a fun tid htid off hoff => by
        have hhas := hoff.2
        rw [hdone tid htid] at hhas
        exact hhas.elim
    have hreader : s.reader = if req.reads then s.gate.generation else 0 := by
      cases hr : req.reads with
      | true => exact (h.reader hr).level hno
      | false => exact h.unread hr
    unfold State.outcome
    rw [hdst, h.write.level hno, hreader]

/-- **A range leaves the bytes of the plain path**, and its cursors just if the last subchunk has
bytes. -/
theorem Inv.outcome (h : Inv req data dst₀ s) (hended : s.Ended req) (eng : H2HShards.Engine) :
    s.dst = (plain req data eng dst₀).dst ∧
      (s.outcome = plain req data eng dst₀ ↔ (req.numSubchunks - 1) * sliceSize < req.bytes) := by
  obtain ⟨k, hk, hcarried, hend, houtcome⟩ := h.ended hended
  have hdst : slices req data dst₀ req.numSubchunks = slices req data dst₀ k :=
    slices_of_empty hk fun sc hsc hlt => size_of_not_carries hend hsc hlt
  have hpos := req.num_pos
  rw [plain_eq]
  refine ⟨(congrArg Outcome.dst houtcome).trans hdst.symm, ?_⟩
  rw [houtcome]
  constructor
  · intro heq
    have hall : k = req.numSubchunks := congrArg Outcome.write heq
    exact (carries_iff.1 (hcarried (req.numSubchunks - 1) (by omega))).2
  · intro hbytes
    have hall : k = req.numSubchunks := by
      by_contra hne
      have hle : k * sliceSize ≤ (req.numSubchunks - 1) * sliceSize :=
        Nat.mul_le_mul_right _ (by omega)
      rw [carries_iff.2 ⟨by omega, hle.trans_lt hbytes⟩] at hend
      cases hend
    rw [hall]

/-! ## The task comes to its end -/

/-- The cursors that the threads wait for have arrived. -/
def State.Reached (req : Request) (s : State α) : Prop :=
  req.numSubchunks ≤ s.input ∧ ∀ g ∈ req.overwriteGuard,
    (0 < g.version → req.numSubchunks ≤ s.guardWrite) ∧
      (0 < g.readers → req.numSubchunks ≤ s.guardConsume)

/-- A thread that cannot go on is through, or waits for the others. -/
theorem Inv.stopped (h : Inv req data dst₀ s) (hsubmitted : s.submitted = true)
    (hreached : s.Reached req) (htid : tid < req.threads) (hstop : threadStep req s tid = none) :
    s.phase tid = .done ∨ s.phase tid = .meeting ∧ s.gate.place tid = .waiting s.gate.generation := by
  have hw := h.waited tid htid
  obtain ⟨hinput, hguard⟩ := hreached
  unfold threadStep at hstop
  dsimp only [State.sc] at hstop
  rw [if_pos ⟨hsubmitted, htid⟩] at hstop
  cases hp : s.phase tid with
  | done => exact .inl rfl
  | meeting =>
    simp only [hp, Option.map_eq_none_iff] at hstop
    refine .inr ⟨rfl, ?_⟩
    cases hplace : s.gate.place tid with
    | waiting g =>
      simp only [Gate.step, hplace] at hstop
      split at hstop
      · cases hstop
      · rename_i hnot
        rw [Nat.le_antisymm (h.gate.waiting tid htid g hplace) (Nat.le_of_not_lt hnot)]
    | outside | loaded | resetting | raising => simp [Gate.step, hplace] at hstop
  | input =>
    simp only [hp] at hstop
    split at hstop
    · rename_i hcarries
      rw [if_pos ((carries_iff.1 hcarries).1.trans_le hinput)] at hstop
      cases hstop
    · cases hstop
  | guardWrite =>
    rw [hp] at hw
    have hlt := (carries_iff.1 hw.1).1
    simp only [hp] at hstop
    rw [if_pos fun g hg hv => hlt.trans_le ((hguard g hg).1 hv)] at hstop
    cases hstop
  | guardConsume =>
    rw [hp] at hw
    have hlt := (carries_iff.1 hw.1).1
    simp only [hp] at hstop
    rw [if_pos fun g hg hv => hlt.trans_le ((hguard g hg).2 hv)] at hstop
    cases hstop
  | queued | copying | publishWrite | publishReader => simp [hp] at hstop

/-- **No thread waits for ever:** where the cursors have arrived and no thread can go on, the task is
at its end. -/
theorem Inv.ended_of_rest (h : Inv req data dst₀ s) (hsubmitted : s.submitted = true)
    (hreached : s.Reached req) (hrest : ∀ tid, threadStep req s tid = none) : s.Ended req := by
  refine h.count.trans (countP_range_eq.2 fun tid htid => ?_)
  rcases h.stopped hsubmitted hreached htid (hrest tid) with hdone | ⟨hmeeting, hwaiting⟩
  · rw [hdone]
    rfl
  · -- then all are waiting, and nobody has been the last
    have hlevel := h.gate.level tid htid
    rw [hwaiting] at hlevel
    simp only [Gate.Place.past, lt_irrefl, decide_false, Bool.false_eq_true, if_false] at hlevel
    have hcarries : req.carries s.gate.generation = true := by
      refine h.carried tid htid _ ?_
      unfold State.copied
      rw [hmeeting]
      show s.gate.generation < s.gate.passed tid + 1
      omega
    have hall : ∀ q < req.threads, s.gate.place q = .waiting s.gate.generation := by
      intro q hq
      rcases h.stopped hsubmitted hreached hq (hrest q) with hdone | ⟨_, hwait⟩
      · have hw := h.waited q hq
        rw [hdone, (h.outside_of hq (by rw [hdone]; rfl)).2.1] at hw
        rw [hw] at hcarries
        cases hcarries
      · exact hwait
    have hcount := h.gate.count fun q hq g hg => by rw [hall q hq] at hg; cases hg
    have hmissing := h.gate.missing fun q hq => by rw [hall q hq]; rfl
    rw [hcount, countP_range_eq.2 fun q hq => by rw [hall q hq]; simp [Gate.Place.counted]] at hmissing
    exact absurd hmissing (Nat.lt_irrefl _)

/-! ## The steps that are left -/

/-- The accesses of a subchunk, at most. -/
def turnBudget : ℕ := sliceSize + 10

/-- What is left of them in the barrier. -/
def placeBudget : Gate.Place → ℕ
  | .outside => 6
  | .loaded _ => 5
  | .resetting _ => 4
  | .raising _ | .waiting _ => 1

/-- How many accesses a thread has left, at most. -/
def threadBudget (req : Request) (tid passed : ℕ) (place : Gate.Place) : Phase → ℕ
  | .done => 0
  | .queued => (req.numSubchunks - passed) * turnBudget + 2
  | .input => (req.numSubchunks - passed) * turnBudget + 1
  | .guardWrite => (req.numSubchunks - passed - 1) * turnBudget + sliceSize + 10
  | .guardConsume => (req.numSubchunks - passed - 1) * turnBudget + sliceSize + 9
  | .copying i =>
    (req.numSubchunks - passed - 1) * turnBudget + (req.partEnd tid passed - i) + 8
  | .meeting => (req.numSubchunks - passed - 1) * turnBudget + placeBudget place + 1
  | .publishWrite => (req.numSubchunks - passed - 1) * turnBudget + 4
  | .publishReader => (req.numSubchunks - passed - 1) * turnBudget + 3

def State.threadBudget (req : Request) (s : State α) (tid : ℕ) : ℕ :=
  H2HRange.threadBudget req tid (s.gate.passed tid) (s.gate.place tid) (s.phase tid)

def State.budget (req : Request) (s : State α) : ℕ :=
  ∑ tid ∈ Finset.range req.threads, s.threadBudget req tid

/-- A turn is paid for when it begins. -/
theorem turn_le {passed : ℕ} (h : passed < req.numSubchunks) :
    (req.numSubchunks - passed - 1) * turnBudget + turnBudget =
      (req.numSubchunks - passed) * turnBudget := by
  rw [← Nat.succ_mul, Nat.succ_eq_add_one, Nat.sub_add_cancel (Nat.sub_pos_of_lt h)]

theorem threadBudget_copy (req : Request) (tid passed : ℕ) (place : Gate.Place)
    (hplace : place = .outside) :
    H2HRange.threadBudget req tid passed place (copyPhase req tid passed) ≤
      (req.numSubchunks - passed - 1) * turnBudget + sliceSize + 8 := by
  have hle : req.partEnd tid passed ≤ sliceSize := partEnd_le.trans size_le
  unfold copyPhase
  split
  · simp only [H2HRange.threadBudget]
    omega
  · rw [hplace]
    simp only [H2HRange.threadBudget, placeBudget]
    have hslice : 0 < sliceSize := by decide
    omega

/-- **An access in the barrier** uses one up. -/
theorem threadBudget_meet {gate gate' : Gate.State}
    (hgate : Gate.step req.threads gate tid = some gate') :
    H2HRange.threadBudget req tid (gate'.passed tid) (gate'.place tid)
        (afterGate (gate.place tid) (gate'.place tid)) <
      H2HRange.threadBudget req tid (gate.passed tid) (gate.place tid) .meeting := by
  have hpass : ∀ {k : ℕ}, k = gate.passed tid + 1 → ∀ {place : Gate.Place},
      H2HRange.threadBudget req tid k place .input =
        (req.numSubchunks - gate.passed tid - 1) * turnBudget + 1 := by
    rintro k rfl place
    simp only [H2HRange.threadBudget, Nat.sub_sub]
  cases hplace : gate.place tid with
  | outside =>
    simp only [Gate.step, hplace] at hgate
    cases hgate
    rw [gate.goto_self]
    simp only [afterGate, H2HRange.threadBudget, placeBudget, Gate.State.goto_passed]
    omega
  | loaded g =>
    simp only [Gate.step, hplace] at hgate
    cases hgate
    dsimp only
    rw [gate.goto_self]
    split
    · simp only [afterGate, H2HRange.threadBudget, placeBudget, Gate.State.goto_passed]
      omega
    · simp only [afterGate, H2HRange.threadBudget, placeBudget, Gate.State.goto_passed]
      omega
  | resetting g =>
    simp only [Gate.step, hplace] at hgate
    cases hgate
    exact Nat.lt_succ_self _
  | raising g =>
    simp only [Gate.step, hplace] at hgate
    cases hgate
    dsimp only
    rw [gate.pass_self]
    exact (hpass (gate.pass_passed_self tid)).trans_lt (Nat.lt_succ_self _)
  | waiting g =>
    simp only [Gate.step, hplace] at hgate
    split at hgate
    · cases hgate
      rw [gate.pass_self]
      exact (hpass (gate.pass_passed_self tid)).trans_lt (Nat.lt_succ_self _)
    · cases hgate

/-- **An access uses one of the thread's up**, and none of the others'. -/
theorem Inv.threadBudget_lt (h : Inv req data dst₀ s) (hstep : threadStep req s tid = some s') :
    tid < req.threads ∧ s'.threadBudget req tid < s.threadBudget req tid ∧
      ∀ q, q ≠ tid → s'.threadBudget req q = s.threadBudget req q := by
  have hother : ∀ {p : Phase} {gate : Gate.State}, (∀ q, q ≠ tid →
      gate.place q = s.gate.place q ∧ gate.passed q = s.gate.passed q) → ∀ q, q ≠ tid →
        H2HRange.threadBudget req q (gate.passed q) (gate.place q) ((s.goto tid p).phase q) =
          s.threadBudget req q := by
    intro p gate hsame q hq
    rw [(hsame q hq).1, (hsame q hq).2, Inv.phase_ne hq]
    rfl
  have hmine : ∀ {p : Phase} (gate : Gate.State),
      H2HRange.threadBudget req tid (gate.passed tid) (gate.place tid) ((s.goto tid p).phase tid) =
        H2HRange.threadBudget req tid (gate.passed tid) (gate.place tid) p := by
    intro p gate
    rw [Inv.phase_self]
  obtain ⟨htid, haccess⟩ := Access.of_threadStep hstep
  refine ⟨htid, ?_⟩
  have hout := h.placed tid htid
  unfold State.threadBudget
  cases haccess with
  | begin hp =>
    refine ⟨(hmine s.gate).trans_lt ?_, hother fun q _ => ⟨rfl, rfl⟩⟩
    rw [hp]
    exact Nat.lt_succ_self _
  | guarded hp hcarries =>
    have hturn := turn_le (carries_iff.1 hcarries).1
    refine ⟨(hmine s.gate).trans_lt ?_, hother fun q _ => ⟨rfl, rfl⟩⟩
    rw [hp]
    simp only [H2HRange.threadBudget, turnBudget] at hturn ⊢
    omega
  | unguarded hp hcarries =>
    have hturn := turn_le (carries_iff.1 hcarries).1
    have hcopy := threadBudget_copy req tid (s.gate.passed tid) _ (hout (by rw [hp]; rfl))
    refine ⟨(hmine s.gate).trans_lt ?_, hother fun q _ => ⟨rfl, rfl⟩⟩
    rw [hp]
    simp only [H2HRange.threadBudget, turnBudget] at hturn hcopy ⊢
    omega
  | leave hp =>
    refine ⟨(hmine s.gate).trans_lt ?_, hother fun q _ => ⟨rfl, rfl⟩⟩
    rw [hp]
    exact Nat.succ_pos _
  | guardWrite hp =>
    refine ⟨(hmine s.gate).trans_lt ?_, hother fun q _ => ⟨rfl, rfl⟩⟩
    rw [hp]
    simp only [H2HRange.threadBudget]
    omega
  | guardConsume hp =>
    have hcopy := threadBudget_copy req tid (s.gate.passed tid) _ (hout (by rw [hp]; rfl))
    refine ⟨(hmine s.gate).trans_lt ?_, hother fun q _ => ⟨rfl, rfl⟩⟩
    rw [hp]
    simp only [H2HRange.threadBudget] at hcopy ⊢
    omega
  | copy hp =>
    have hw := h.waited tid htid
    rw [hp] at hw
    obtain ⟨_, _, _, hlt⟩ := hw
    refine ⟨(hmine s.gate).trans_lt ?_, hother fun q _ => ⟨rfl, rfl⟩⟩
    rw [hp, hout (by rw [hp]; rfl)]
    split
    · simp only [H2HRange.threadBudget]
      omega
    · simp only [H2HRange.threadBudget, placeBudget]
      omega
  | @meet gate hp hgate =>
    refine ⟨(hmine gate).trans_lt ?_, hother (Gate.step_cases hgate).1⟩
    rw [hp]
    exact threadBudget_meet hgate
  | publishWrite hp =>
    refine ⟨(hmine s.gate).trans_lt ?_, hother fun q _ => ⟨rfl, rfl⟩⟩
    rw [hp]
    exact Nat.lt_succ_self _
  | publishReader hp =>
    obtain ⟨g, hplace⟩ := h.publishing tid htid (by rw [hp]; rfl)
    refine ⟨(hmine s.gate).trans_lt ?_, hother fun q _ => ⟨rfl, rfl⟩⟩
    rw [hp, hplace]
    exact Nat.lt_succ_self _

def Label.isThread : Label α → Bool
  | .thread _ => true
  | _ => false

/-- **Each access of a thread is paid for.** -/
theorem Inv.budget_step [DecidableEq α] (h : Inv req data dst₀ s) {l : Label α}
    (hstep : H2HRange.step req data s l = some s') :
    s'.budget req + (if l.isThread then 1 else 0) ≤ s.budget req := by
  cases l with
  | thread tid =>
    obtain ⟨htid, hlt, hsame⟩ := h.threadBudget_lt hstep
    refine Finset.sum_lt_sum (fun q _ => ?_) ⟨tid, Finset.mem_range.2 htid, hlt⟩
    by_cases hq : q = tid
    · exact hq ▸ Nat.le_of_lt hlt
    · exact Nat.le_of_eq (hsame q hq)
  | submit =>
    simp only [H2HRange.step] at hstep
    split at hstep
    · cases hstep
      exact Nat.le_refl _
    · cases hstep
  | poll =>
    simp only [H2HRange.step] at hstep
    split at hstep
    · cases hstep
      exact Nat.le_refl _
    · cases hstep
  | others input guardWrite guardConsume src =>
    simp only [H2HRange.step] at hstep
    split at hstep
    · cases hstep
      exact Nat.le_refl _
    · cases hstep

theorem budget_init (req : Request) (src dst₀ : ℕ → α) :
    (State.init src dst₀).budget req = req.threads * (req.numSubchunks * turnBudget + 2) := by
  have hone : ∀ tid ∈ Finset.range req.threads, (State.init src dst₀).threadBudget req tid =
      req.numSubchunks * turnBudget + 2 := fun _ _ => rfl
  unfold State.budget
  rw [Finset.sum_const_nat hone, Finset.card_range]

/-! ## The whole task -/

/-- The slice of the subchunk is there. -/
def State.Slice (req : Request) (data : ℕ → ℕ → α) (s : State α) (sc : ℕ) : Prop :=
  ∀ off < req.size sc, s.dst (req.dstOffset sc + off) = data sc off

/-- Nothing is written or published too early. -/
structure Orderly [DecidableEq α] (req : Request) (data : ℕ → ℕ → α) (s : State α) : Prop where
  /-- All threads have copied what the cursors tell. -/
  cursors : ∀ tid < req.threads, s.write ≤ s.copied tid ∧ s.reader ≤ s.copied tid
  /-- A byte is written in a slice that the input and the guard allow. -/
  writes : ∀ l s', step req data s l = some s' → ∀ a, s'.dst a ≠ s.dst a →
    ∃ sc, req.carries sc = true ∧ req.InSlice sc a ∧ s.Allowed req sc
  /-- A cursor is raised by one, and then the slice is there. -/
  published : ∀ l s', step req data s l = some s' →
    (s'.write ≠ s.write → s'.write = s.write + 1 ∧ s.Slice req data s.write) ∧
      (s'.reader ≠ s.reader → s'.reader = s.reader + 1 ∧ s.Slice req data s.reader)

/-- What an access of a thread can do to the output and to the cursors. -/
theorem threadStep_frame (hstep : threadStep req s tid = some s') :
    tid < req.threads ∧
    (s'.dst = s.dst ∨ ∃ i, s.phase tid = .copying i ∧ s'.dst =
      Function.update s.dst (req.dstOffset (s.gate.passed tid) + i)
        (s.src (req.srcOffset (s.gate.passed tid) + i))) ∧
    (s'.write = s.write ∨
      s.phase tid = .publishWrite ∧ s'.write = max s.write (s.gate.passed tid + 1)) ∧
    (s'.reader = s.reader ∨ s.phase tid = .publishReader ∧ req.reads = true ∧
      s'.reader = max s.reader (s.gate.passed tid + 1)) := by
  obtain ⟨htid, haccess⟩ := Access.of_threadStep hstep
  refine ⟨htid, ?_⟩
  cases haccess with
  | begin | guarded | unguarded | leave | guardWrite | guardConsume | meet =>
    exact ⟨.inl rfl, .inl rfl, .inl rfl⟩
  | copy hp => exact ⟨.inr ⟨_, hp, rfl⟩, .inl rfl, .inl rfl⟩
  | publishWrite hp => exact ⟨.inl rfl, .inr ⟨hp, rfl⟩, .inl rfl⟩
  | publishReader hp =>
    refine ⟨.inl rfl, .inl rfl, ?_⟩
    show (if req.reads = true then _ else _) = s.reader ∨ _
    split
    · rename_i hreads
      exact .inr ⟨hp, hreads, rfl⟩
    · exact .inl rfl

/-- The others and the executor of the node leave the output and its cursors alone. -/
theorem step_frame [DecidableEq α] {l : Label α} (hstep : step req data s l = some s') :
    (∃ tid, threadStep req s tid = some s') ∨
      s'.dst = s.dst ∧ s'.write = s.write ∧ s'.reader = s.reader := by
  cases l with
  | thread tid => exact .inl ⟨tid, hstep⟩
  | submit | poll | others =>
    simp only [step] at hstep
    split at hstep
    · cases hstep
      exact .inr ⟨rfl, rfl, rfl⟩
    · cases hstep

/-- **Nothing is written or published too early.** -/
theorem Inv.orderly [DecidableEq α] (h : Inv req data dst₀ s) : Orderly req data s := by
  refine ⟨fun tid htid => ⟨h.cursor_le h.write htid, ?_⟩, fun l s' hstep a hne => ?_,
    fun l s' hstep => ⟨fun hne => ?_, fun hne => ?_⟩⟩
  · cases hr : req.reads with
    | true => exact h.cursor_le (h.reader hr) htid
    | false =>
      rw [h.unread hr]
      exact Nat.zero_le _
  · rcases step_frame hstep with ⟨tid, hthread⟩ | ⟨hdst, _⟩
    · obtain ⟨htid, hdst | ⟨i, hp, hdst⟩, _⟩ := threadStep_frame hthread
      · exact absurd (congrFun hdst a) hne
      · have hw := h.waited tid htid
        rw [hp] at hw
        obtain ⟨hcarries, hallowed, _, hend⟩ := hw
        have ha : a = req.dstOffset (s.gate.passed tid) + i := by
          by_contra hother
          rw [hdst, Function.update_of_ne hother] at hne
          exact hne rfl
        rw [ha]
        exact ⟨_, hcarries, ⟨Nat.le_add_right _ _,
          Nat.add_lt_add_left (hend.trans_le partEnd_le) _⟩, hallowed⟩
    · exact absurd (congrFun hdst a) hne
  · rcases step_frame hstep with ⟨tid, hthread⟩ | ⟨_, hwrite, _⟩
    · obtain ⟨htid, _, hwrite | ⟨hp, hwrite⟩, _⟩ := threadStep_frame hthread
      · exact absurd hwrite hne
      · obtain ⟨g, hplace⟩ := h.publishing tid htid (by rw [hp]; rfl)
        have hbefore := h.write.raising tid htid g hplace
        rw [hp] at hbefore
        have hgen : s.write = s.gate.generation := hbefore
        rw [hwrite, (h.through_of_raising htid hplace htid).2, hgen]
        exact ⟨max_eq_right (Nat.le_succ _), fun off hoff => h.slice_of_raising htid hplace hoff⟩
    · exact absurd hwrite hne
  · rcases step_frame hstep with ⟨tid, hthread⟩ | ⟨_, _, hreader⟩
    · obtain ⟨htid, _, _, hreader | ⟨hp, hreads, hreader⟩⟩ := threadStep_frame hthread
      · exact absurd hreader hne
      · obtain ⟨g, hplace⟩ := h.publishing tid htid (by rw [hp]; rfl)
        have hbefore := (h.reader hreads).raising tid htid g hplace
        rw [hp] at hbefore
        have hgen : s.reader = s.gate.generation := hbefore
        rw [hreader, (h.through_of_raising htid hplace htid).2, hgen]
        exact ⟨max_eq_right (Nat.le_succ _), fun off hoff => h.slice_of_raising htid hplace hoff⟩
    · exact absurd hreader hne

/-- Three bytes, and so many subchunks in the graph. -/
def threeBytes (numSubchunks : ℕ) (hpos : 0 < numSubchunks) : Request where
  bytes := 3
  numSubchunks := numSubchunks
  inputRing := false
  outputRing := false
  readerId := 0
  overwriteGuard := none
  threads := 1
  bytes_pos := by decide
  num_pos := hpos
  threads_pos := Nat.one_pos

/-- The default number of workers and shard size. -/
def defaultEngine : H2HShards.Engine := H2HShards.Engine.fromEnv none none

/-- The input is there, and the thread goes through to the end. -/
def straight (input : ℕ) : List (Label ℕ) :=
  [.others input 0 0 fun a => a + 7, .submit] ++ List.replicate 12 (.thread 0) ++ [.poll]

end H2HRange
end Ascend
end HyLink
