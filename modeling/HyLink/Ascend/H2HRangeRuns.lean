import HyLink.Ascend.H2HRange
import HyLink.Theory.Machine

/-!
# The threads of a range task

What holds at every moment of a range task.

* `Follows` — a cursor follows the generation of the barrier.
* `Inv` — where the threads are, what they have waited for, and which bytes are there.
* `Inv.cursor_le`, `Inv.slice_of_raising` — when a subchunk is published all threads have copied it,
  and its slice is there.
* `Inv.step` — every step keeps it.
-/

namespace HyLink
namespace Ascend
namespace H2HRange

open Theory

variable {α : Type} {req : Request} {data : ℕ → ℕ → α} {dst₀ : ℕ → α} {s s' : State α}
  {tid q cursor off : ℕ} {p p' : Phase}

/-! ## The barrier and the cursors -/

theorem raising_unique {parties start r : ℕ} {gate : Gate.State}
    (h : Gate.Sound parties start gate) (hr : r < parties) (hcloses : (gate.place r).closes = true)
    (hq : q < parties) {g : ℕ} (hraising : gate.place q = .raising g) : q = r := by
  by_contra hne
  have hwaiting := h.last r hr hcloses q hq hne
  rw [hraising] at hwaiting
  cases hwaiting

/-- Where a party does not wait and is not the last one, nobody is about to open the gate. -/
theorem no_raising {parties start r : ℕ} {gate : Gate.State} (h : Gate.Sound parties start gate)
    (hr : r < parties) (hw : gate.place r ≠ .waiting gate.generation)
    (hself : ∀ g, gate.place r ≠ .raising g) (hq : q < parties) (g : ℕ) :
    gate.place q ≠ .raising g := by
  intro hraising
  have hcloses : (gate.place q).closes = true := by rw [hraising]; rfl
  by_cases hqr : r = q
  · exact hself g (hqr ▸ hraising)
  · exact hw (h.last q hq hcloses r hr hqr)

/-- A cursor that is raised by the last thread follows the generation; `behind` tells in which phase
it is still to be raised. -/
structure Follows (req : Request) (s : State α) (behind : Phase → Bool) (cursor : ℕ) : Prop where
  raising : ∀ tid < req.threads, ∀ g, s.gate.place tid = .raising g →
    cursor = s.gate.generation + if behind (s.phase tid) then 0 else 1
  level : (∀ tid < req.threads, ∀ g, s.gate.place tid ≠ .raising g) → cursor = s.gate.generation

def beforeWrite : Phase → Bool
  | .publishWrite => true
  | _ => false

def beforeReader : Phase → Bool
  | .publishWrite | .publishReader => true
  | _ => false

theorem isThrough_of_beforeReader (h : beforeReader p = true) : p.isThrough = true := by
  cases p with
  | publishWrite | publishReader => rfl
  | queued | input | guardWrite | guardConsume | copying | meeting | done => cases h

/-- How many subchunks a thread has copied, as far as they are its own. -/
def State.copied (s : State α) (tid : ℕ) : ℕ :=
  s.gate.passed tid + if (s.phase tid).isThrough then 1 else 0

/-- What a thread has copied of a subchunk. -/
def Phase.Has (req : Request) (tid sc off : ℕ) : Phase → Prop
  | .copying i => req.partStart tid sc ≤ off ∧ off < i
  | .meeting | .publishWrite | .publishReader =>
    req.partStart tid sc ≤ off ∧ off < req.partEnd tid sc
  | _ => False

/-- The thread has copied the byte of the current subchunk. -/
def State.Has (req : Request) (s : State α) (tid off : ℕ) : Prop :=
  s.gate.passed tid = s.gate.generation ∧ (s.phase tid).Has req tid s.gate.generation off

/-- What a thread has waited for. -/
def State.Waited (req : Request) (s : State α) (tid sc : ℕ) : Phase → Prop
  | .guardWrite => req.carries sc = true ∧ sc < s.input
  | .guardConsume => req.carries sc = true ∧ sc < s.input ∧
    ∀ g ∈ req.overwriteGuard, 0 < g.version → sc < s.guardWrite
  | .copying i => req.carries sc = true ∧ s.Allowed req sc ∧
    req.partStart tid sc ≤ i ∧ i < req.partEnd tid sc
  | .done => req.carries sc = false
  | _ => True

structure Inv (req : Request) (data : ℕ → ℕ → α) (dst₀ : ℕ → α) (s : State α) : Prop where
  gate : Gate.Sound req.threads 0 s.gate
  placed : ∀ tid < req.threads, (s.phase tid).isThrough = false → s.gate.place tid = .outside
  publishing : ∀ tid < req.threads, beforeReader (s.phase tid) = true →
    ∃ g, s.gate.place tid = .raising g
  carried : ∀ tid < req.threads, ∀ sc < s.copied tid, req.carries sc = true
  waited : ∀ tid < req.threads, s.Waited req tid (s.gate.passed tid) (s.phase tid)
  write : Follows req s beforeWrite s.write
  reader : req.reads = true → Follows req s beforeReader s.reader
  unread : req.reads = false → s.reader = 0
  /-- What is copied is there, and the rest is as the slices before have left it. -/
  has : ∀ tid < req.threads, ∀ off, s.Has req tid off →
    s.dst (req.dstOffset s.gate.generation + off) = data s.gate.generation off
  other : ∀ a, (∀ tid < req.threads, ∀ off, s.Has req tid off →
    a ≠ req.dstOffset s.gate.generation + off) →
      s.dst a = slices req data dst₀ s.gate.generation a
  kept : State.Kept req data s.input s.reader s.src
  count : s.threadsDone = (List.range req.threads).countP fun tid => s.phase tid == .done

theorem Inv.init (req : Request) (data : ℕ → ℕ → α) (src dst₀ : ℕ → α) :
    Inv req data dst₀ (State.init src dst₀) := by
  refine ⟨Gate.Sound.init req.threads_pos 0, fun _ _ _ => rfl, fun _ _ h => (by cases h),
    fun _ _ sc hsc => absurd hsc (Nat.not_lt_zero sc), fun _ _ => trivial,
    ⟨fun _ _ _ h => (by cases h), fun _ => rfl⟩, fun _ => ⟨fun _ _ _ h => (by cases h), fun _ => rfl⟩,
    fun _ => rfl, fun _ _ _ h => h.2.elim, fun _ _ => rfl, fun sc hsc => ?_, ?_⟩
  · have hzero := lt_of_lt_of_le hsc (min_le_left _ _)
    exact absurd hzero (Nat.not_lt_zero sc)
  · exact (List.countP_eq_zero.2 fun _ _ h => by cases h).symm

namespace Inv

/-! ## What the invariant gives -/

theorem outside_of (h : Inv req data dst₀ s) (htid : tid < req.threads)
    (hp : (s.phase tid).isThrough = false) : s.gate.place tid = .outside ∧
      s.gate.passed tid = s.gate.generation ∧
      ∀ q < req.threads, ∀ g, s.gate.place q ≠ .raising g := by
  have hout := h.placed tid htid hp
  refine ⟨hout, ?_, fun q hq => no_raising h.gate htid (by rw [hout]; nofun)
    (fun g => by rw [hout]; nofun) hq⟩
  have hlevel := h.gate.level_outside htid hout
  omega

/-- While the last thread publishes, all threads have copied the subchunk. -/
theorem through_of_raising (h : Inv req data dst₀ s) (htid : tid < req.threads) {g : ℕ}
    (hraising : s.gate.place tid = .raising g) (hq : q < req.threads) :
    (s.phase q).isThrough = true ∧ s.gate.passed q = s.gate.generation := by
  have hplace : s.gate.place q = .raising g ∨ s.gate.place q = .waiting s.gate.generation := by
    by_cases hqt : q = tid
    · exact .inl (hqt ▸ hraising)
    · exact .inr (h.gate.last tid htid (by rw [hraising]; rfl) q hq hqt)
  constructor
  · by_contra hno
    have hout := h.placed q hq (by simpa using hno)
    rcases hplace with hplace | hplace <;> rw [hout] at hplace <;> cases hplace
  · have hlevel := h.gate.level q hq
    have hnot : (s.gate.place q).past s.gate.generation = false := by
      rcases hplace with hplace | hplace <;> rw [hplace]
      · rfl
      · exact decide_eq_false (Nat.lt_irrefl _)
    rw [hnot] at hlevel
    simpa using hlevel

/-- **No cursor is ahead of what a thread has copied.** -/
theorem cursor_le (h : Inv req data dst₀ s) {behind : Phase → Bool}
    (hf : Follows req s behind cursor) (htid : tid < req.threads) : cursor ≤ s.copied tid := by
  unfold State.copied
  by_cases hraising : ∃ q < req.threads, ∃ g, s.gate.place q = .raising g
  · obtain ⟨q, hq, g, hplace⟩ := hraising
    obtain ⟨hthrough, hpassed⟩ := h.through_of_raising hq hplace htid
    rw [hf.raising q hq g hplace, hpassed, if_pos hthrough]
    split <;> omega
  · rw [hf.level fun q hq g hplace => hraising ⟨q, hq, g, hplace⟩]
    by_cases hthrough : (s.phase tid).isThrough = true
    · rw [if_pos hthrough]
      have hlevel := h.gate.level tid htid
      split at hlevel <;> omega
    · rw [if_neg hthrough, (h.outside_of htid (by simpa using hthrough)).2.1]
      exact Nat.le_refl _

/-- **While the last thread publishes, the slice is there.** -/
theorem slice_of_raising (h : Inv req data dst₀ s) (htid : tid < req.threads) {g : ℕ}
    (hraising : s.gate.place tid = .raising g) (hoff : off < req.size s.gate.generation) :
    s.dst (req.dstOffset s.gate.generation + off) = data s.gate.generation off := by
  obtain ⟨q, hq, hstart, hend⟩ := exists_part hoff
  obtain ⟨hthrough, hpassed⟩ := h.through_of_raising htid hraising hq
  refine h.has q hq off ⟨hpassed, ?_⟩
  cases hp : s.phase q with
  | meeting | publishWrite | publishReader => exact ⟨hstart, hend⟩
  | queued | input | guardWrite | guardConsume | copying | done =>
    rw [hp] at hthrough
    cases hthrough

/-! ## A thread that is not in the barrier -/

@[simp] theorem phase_self : (s.goto tid p).phase tid = p := Function.update_self _ _ _

theorem phase_ne (h : q ≠ tid) : (s.goto tid p).phase q = s.phase q := Function.update_of_ne h _ _

theorem count_same (hp : (s.phase tid == .done) = (p == .done)) :
    (List.range req.threads).countP (fun q => (s.goto tid p).phase q == .done) =
      (List.range req.threads).countP fun q => s.phase q == .done := by
  apply countP_range_congr
  intro q _
  by_cases hq : q = tid
  · subst hq
    rw [phase_self, hp]
  · rw [phase_ne hq]

/-- **A thread outside the barrier goes on**, and may write the output. -/
theorem change (h : Inv req data dst₀ s) (htid : tid < req.threads)
    (hp : (s.phase tid).isThrough = false) {d : ℕ → α} {n : ℕ} {c : Bool}
    (hp' : p.isThrough = false ∨ p = .meeting ∧ req.carries (s.gate.passed tid) = true)
    (hwaited : s.Waited req tid (s.gate.passed tid) p)
    (has : ∀ q < req.threads, ∀ off, (s.goto tid p).Has req q off →
      d (req.dstOffset s.gate.generation + off) = data s.gate.generation off)
    (other : ∀ a, (∀ q < req.threads, ∀ off, (s.goto tid p).Has req q off →
      a ≠ req.dstOffset s.gate.generation + off) →
        d a = slices req data dst₀ s.gate.generation a)
    (count : n = (List.range req.threads).countP fun q => (s.goto tid p).phase q == .done) :
    Inv req data dst₀ { s.goto tid p with dst := d, threadsDone := n, completion := c } := by
  obtain ⟨hout, _, hno⟩ := h.outside_of htid hp
  have hfollows : ∀ {behind : Phase → Bool} {cursor : ℕ}, Follows req s behind cursor →
      Follows req { s.goto tid p with dst := d, threadsDone := n, completion := c } behind
        cursor :=
    fun hf => ⟨fun q hq g hg => absurd hg (hno q hq g), hf.level⟩
  refine ⟨h.gate, fun q hq hthrough => ?_, fun q hq hbefore => ?_, fun q hq sc hsc => ?_,
    fun q hq => ?_, hfollows h.write, fun hr => hfollows (h.reader hr), h.unread, has, other, h.kept,
    count⟩
  · by_cases hqt : q = tid
    · exact hqt ▸ hout
    · exact h.placed q hq ((congrArg Phase.isThrough (phase_ne hqt)).symm.trans hthrough)
  · by_cases hqt : q = tid
    · subst hqt
      have hbefore' : beforeReader p = true := by
        have hphase : (s.goto q p).phase q = p := phase_self
        rw [← hphase]
        exact hbefore
      rcases hp' with hthrough | ⟨rfl, _⟩
      · rw [isThrough_of_beforeReader hbefore'] at hthrough
        cases hthrough
      · cases hbefore'
    · exact h.publishing q hq ((congrArg beforeReader (phase_ne hqt)).symm.trans hbefore)
  · have hsc' : sc < s.gate.passed q + if ((s.goto tid p).phase q).isThrough then 1 else 0 := hsc
    by_cases hqt : q = tid
    · subst hqt
      rw [phase_self] at hsc'
      by_cases hlt : sc < s.gate.passed q
      · exact h.carried q hq sc (Nat.lt_add_right _ hlt)
      · rcases hp' with hthrough | ⟨rfl, hcarries⟩
        · rw [hthrough] at hsc'
          exact absurd hsc' hlt
        · have heq : sc = s.gate.passed q :=
            Nat.le_antisymm (Nat.lt_succ_iff.1 hsc') (Nat.le_of_not_lt hlt)
          rw [heq]
          exact hcarries
    · rw [phase_ne hqt] at hsc'
      exact h.carried q hq sc hsc'
  · show s.Waited req q (s.gate.passed q) ((s.goto tid p).phase q)
    by_cases hqt : q = tid
    · subst hqt
      rw [phase_self]
      exact hwaited
    · rw [phase_ne hqt]
      exact h.waited q hq

/-- A thread goes on, and has copied no more than before. -/
theorem goto (h : Inv req data dst₀ s) (htid : tid < req.threads)
    (hp : (s.phase tid).isThrough = false)
    (hp' : p.isThrough = false ∨ p = .meeting ∧ req.carries (s.gate.passed tid) = true)
    (hwaited : s.Waited req tid (s.gate.passed tid) p)
    (hhas : ∀ off, p.Has req tid (s.gate.passed tid) off ↔
      (s.phase tid).Has req tid (s.gate.passed tid) off)
    (hdone : (s.phase tid == .done) = (p == .done)) : Inv req data dst₀ (s.goto tid p) := by
  have hsame : ∀ q off, (s.goto tid p).Has req q off ↔ s.Has req q off := by
    intro q off
    refine and_congr_right fun (hgen : s.gate.passed q = s.gate.generation) => ?_
    show ((s.goto tid p).phase q).Has req q s.gate.generation off ↔ _
    by_cases hqt : q = tid
    · subst hqt
      rw [phase_self, ← hgen]
      exact hhas off
    · rw [phase_ne hqt]
  refine h.change (d := s.dst) (n := s.threadsDone) (c := s.completion) htid hp hp' hwaited
    (fun q hq off hoff => h.has q hq off ((hsame q off).1 hoff))
    (fun a ha => h.other a fun q hq off hoff => ha q hq off ((hsame q off).2 hoff)) ?_
  rw [h.count]
  exact (count_same hdone).symm

/-- Where a thread begins to copy it has no byte yet; an empty part is through at once. -/
theorem goto_copy (h : Inv req data dst₀ s) (htid : tid < req.threads)
    (hp : (s.phase tid).isThrough = false)
    (hnone : ∀ off, ¬ (s.phase tid).Has req tid (s.gate.passed tid) off)
    (hdone : (s.phase tid == .done) = false)
    (hcarries : req.carries (s.gate.passed tid) = true)
    (hallowed : s.Allowed req (s.gate.passed tid)) :
    Inv req data dst₀ (s.goto tid (copyPhase req tid (s.gate.passed tid))) := by
  unfold copyPhase
  split
  · rename_i hpart
    refine h.goto htid hp (.inl rfl) ⟨hcarries, hallowed, Nat.le_refl _, hpart⟩ (fun off => ?_) hdone
    exact iff_of_false (fun hoff => Nat.not_lt.2 hoff.1 hoff.2) (hnone off)
  · rename_i hpart
    refine h.goto htid hp (.inr ⟨rfl, hcarries⟩) trivial (fun off => ?_) hdone
    exact iff_of_false (fun hoff => hpart (lt_of_le_of_lt hoff.1 hoff.2)) (hnone off)

/-- **A thread copies a byte.** -/
theorem copy (h : Inv req data dst₀ s) (htid : tid < req.threads) {i : ℕ}
    (hp : s.phase tid = .copying i) :
    Inv req data dst₀ { s.goto tid
        (if i + 1 < req.partEnd tid (s.gate.passed tid) then .copying (i + 1) else .meeting) with
      dst := Function.update s.dst (req.dstOffset (s.gate.passed tid) + i)
        (s.src (req.srcOffset (s.gate.passed tid) + i)) } := by
  have hthrough : (s.phase tid).isThrough = false := by rw [hp]; rfl
  obtain ⟨_, hgen, hno⟩ := h.outside_of htid hthrough
  have hw := h.waited tid htid
  rw [hp] at hw
  obtain ⟨hcarries, hallowed, hstart, hend⟩ := hw
  -- the byte is the one that the input's producer has put there
  have hvalue : s.src (req.srcOffset (s.gate.passed tid) + i) = data (s.gate.passed tid) i := by
    refine h.kept _ (lt_min hallowed.1 (carries_iff.1 hcarries).1) (fun hr => ?_) i
      (lt_of_lt_of_le hend partEnd_le)
    rw [(h.reader hr).level hno, hgen]
  generalize hnext : (if i + 1 < req.partEnd tid (s.gate.passed tid) then Phase.copying (i + 1)
    else .meeting) = p
  have hhas : ∀ off, p.Has req tid (s.gate.passed tid) off ↔
      (s.phase tid).Has req tid (s.gate.passed tid) off ∨ off = i := by
    intro off
    rw [hp, ← hnext]
    split
    · simp only [Phase.Has]
      omega
    · simp only [Phase.Has]
      omega
  have hcases : p.isThrough = false ∧ s.Waited req tid (s.gate.passed tid) p ∨ p = .meeting := by
    rw [← hnext]
    split
    · rename_i hlt
      exact .inl ⟨rfl, hcarries, hallowed, Nat.le_succ_of_le hstart, hlt⟩
    · exact .inr rfl
  have hsame : ∀ q off, (s.goto tid p).Has req q off ↔
      s.Has req q off ∨ q = tid ∧ off = i := by
    intro q off
    by_cases hqt : q = tid
    · subst hqt
      have hq := hhas off
      rw [hgen] at hq
      unfold State.Has
      rw [phase_self]
      show s.gate.passed q = s.gate.generation ∧ p.Has req q s.gate.generation off ↔ _
      rw [hq]
      simp [hgen]
    · unfold State.Has
      rw [phase_ne hqt]
      exact (or_iff_left fun h => hqt h.1).symm
  refine h.change (n := s.threadsDone) (c := s.completion) htid hthrough ?_ ?_ (fun q hq off hoff => ?_)
    (fun a ha => ?_) ?_
  · rcases hcases with ⟨hthrough, _⟩ | hmeeting
    · exact .inl hthrough
    · exact .inr ⟨hmeeting, hcarries⟩
  · rcases hcases with ⟨_, hwaited⟩ | rfl
    · exact hwaited
    · trivial
  · by_cases hoi : off = i
    · rw [hoi, ← hgen, Function.update_self]
      exact hvalue
    · rw [Function.update_of_ne (by rw [hgen]; omega)]
      exact h.has q hq off (((hsame q off).1 hoff).resolve_right fun h => hoi h.2)
  · have hne := ha tid htid i ((hsame tid i).2 (.inr ⟨rfl, rfl⟩))
    rw [Function.update_of_ne (by rw [hgen]; exact hne)]
    exact h.other a fun q hq off hoff => ha q hq off ((hsame q off).2 (.inl hoff))
  · rw [h.count]
    refine (count_same ?_).symm
    rw [hp, ← hnext]
    split <;> rfl

/-- **A thread leaves the loop.** -/
theorem leave (h : Inv req data dst₀ s) (htid : tid < req.threads) (hp : s.phase tid = .input)
    (hcarries : req.carries (s.gate.passed tid) = false) (c : Bool) :
    Inv req data dst₀ { s.goto tid .done with
      threadsDone := s.threadsDone + 1, completion := c } := by
  have hthrough : (s.phase tid).isThrough = false := by rw [hp]; rfl
  have hsame : ∀ q off, (s.goto tid .done).Has req q off ↔ s.Has req q off := by
    intro q off
    refine and_congr_right fun _ => ?_
    show ((s.goto tid .done).phase q).Has req q s.gate.generation off ↔ _
    by_cases hqt : q = tid
    · subst hqt
      rw [phase_self, hp]
      exact Iff.rfl
    · rw [phase_ne hqt]
  refine h.change (d := s.dst) htid hthrough (.inl rfl) hcarries
    (fun q hq off hoff => h.has q hq off ((hsame q off).1 hoff))
    (fun a ha => h.other a fun q hq off hoff => ha q hq off ((hsame q off).2 hoff)) ?_
  rw [h.count]
  refine (countP_range_set (f := fun q => s.phase q == .done) htid (by rw [hp]; rfl) ?_
    fun q hq => ?_).symm
  · rw [phase_self]
    rfl
  · rw [phase_ne hq]

/-! ## A thread in the barrier -/

/-- **A thread goes on in the barrier**, and does not open it. -/
theorem regate (h : Inv req data dst₀ s) (htid : tid < req.threads) (hp : s.phase tid = .meeting)
    {gate : Gate.State} (hsound : Gate.Sound req.threads 0 gate)
    (hgen : gate.generation = s.gate.generation)
    (hothers : ∀ q, q ≠ tid → gate.place q = s.gate.place q ∧ gate.passed q = s.gate.passed q)
    (hno : ∀ q < req.threads, ∀ g, s.gate.place q ≠ .raising g)
    (hraising : ∀ g, gate.place tid = .raising g → p = .publishWrite)
    (hp' : p = .meeting ∧ gate.passed tid = s.gate.passed tid ∨
      p = .publishWrite ∧ gate.passed tid = s.gate.passed tid ∧ (∃ g, gate.place tid = .raising g) ∨
      p = .input ∧ gate.passed tid = s.gate.passed tid + 1 ∧ gate.place tid = .outside ∧
        s.gate.passed tid ≠ s.gate.generation) :
    Inv req data dst₀ { s.goto tid p with gate := gate } := by
  have hfollows : ∀ {behind : Phase → Bool} {cursor : ℕ}, behind .publishWrite = true →
      Follows req s behind cursor →
        Follows req { s.goto tid p with gate := gate } behind cursor := by
    intro behind cursor hb hf
    have hlevel := hf.level hno
    refine ⟨fun q hq g hg => ?_, fun _ => hlevel.trans hgen.symm⟩
    by_cases hqt : q = tid
    · subst hqt
      show cursor = gate.generation + if behind ((s.goto q p).phase q) then 0 else 1
      rw [phase_self, hraising g hg, hb, hgen]
      exact hlevel
    · exact absurd ((hothers q hqt).1.symm.trans hg) (hno q hq g)
  have hsame : ∀ q off, State.Has req { s.goto tid p with gate := gate } q off ↔
      s.Has req q off := by
    intro q off
    show gate.passed q = gate.generation ∧ ((s.goto tid p).phase q).Has req q gate.generation off ↔ _
    rw [hgen]
    by_cases hqt : q = tid
    · subst hqt
      unfold State.Has
      rw [phase_self, hp]
      rcases hp' with ⟨rfl, hpassed⟩ | ⟨rfl, hpassed, _⟩ | ⟨rfl, _, _, hne⟩
      · rw [hpassed]
      · rw [hpassed]
        exact Iff.rfl
      · exact iff_of_false (fun hoff => hoff.2) fun hoff => hne hoff.1
    · rw [phase_ne hqt, (hothers q hqt).2]
      exact Iff.rfl
  refine ⟨hsound, fun q hq hthrough => ?_, fun q hq hbefore => ?_, fun q hq sc hsc => ?_,
    fun q hq => ?_, hfollows rfl h.write, fun hr => hfollows rfl (h.reader hr), h.unread,
    fun q hq off hoff => ?_, fun a ha => ?_, h.kept, ?_⟩
  · show gate.place q = .outside
    have hthrough' : ((s.goto tid p).phase q).isThrough = false := hthrough
    by_cases hqt : q = tid
    · subst hqt
      rw [phase_self] at hthrough'
      rcases hp' with ⟨rfl, _⟩ | ⟨rfl, _⟩ | ⟨_, _, hout, _⟩
      · cases hthrough'
      · cases hthrough'
      · exact hout
    · rw [phase_ne hqt] at hthrough'
      rw [(hothers q hqt).1]
      exact h.placed q hq hthrough'
  · show ∃ g, gate.place q = .raising g
    have hbefore' : beforeReader ((s.goto tid p).phase q) = true := hbefore
    by_cases hqt : q = tid
    · subst hqt
      rw [phase_self] at hbefore'
      rcases hp' with ⟨rfl, _⟩ | ⟨_, _, hg⟩ | ⟨rfl, _⟩
      · cases hbefore'
      · exact hg
      · cases hbefore'
    · rw [phase_ne hqt] at hbefore'
      rw [(hothers q hqt).1]
      exact h.publishing q hq hbefore'
  · refine h.carried q hq sc ?_
    have hsc' : sc < gate.passed q + if ((s.goto tid p).phase q).isThrough then 1 else 0 := hsc
    unfold State.copied
    by_cases hqt : q = tid
    · subst hqt
      rw [phase_self] at hsc'
      rw [hp]
      rcases hp' with ⟨rfl, hpassed⟩ | ⟨rfl, hpassed, _⟩ | ⟨rfl, hpassed, _⟩ <;> rw [hpassed] at hsc'
      · exact hsc'
      · exact hsc'
      · exact hsc'
    · rw [phase_ne hqt, (hothers q hqt).2] at hsc'
      exact hsc'
  · show s.Waited req q (gate.passed q) ((s.goto tid p).phase q)
    by_cases hqt : q = tid
    · subst hqt
      rw [phase_self]
      rcases hp' with ⟨rfl, _⟩ | ⟨rfl, _⟩ | ⟨rfl, _⟩ <;> trivial
    · rw [phase_ne hqt, (hothers q hqt).2]
      exact h.waited q hq
  · show s.dst (req.dstOffset gate.generation + off) = data gate.generation off
    rw [hgen]
    exact h.has q hq off ((hsame q off).1 hoff)
  · show s.dst a = slices req data dst₀ gate.generation a
    rw [hgen]
    refine h.other a fun q hq off hoff => ?_
    rw [← hgen]
    exact ha q hq off ((hsame q off).2 hoff)
  · refine h.count.trans (count_same ?_).symm
    rw [hp]
    rcases hp' with ⟨rfl, _⟩ | ⟨rfl, _⟩ | ⟨rfl, _⟩ <;> rfl

/-- **The last thread opens the barrier**, when it has published: the next slice begins. -/
theorem opens (h : Inv req data dst₀ s) (htid : tid < req.threads) (hp : s.phase tid = .meeting)
    {g : ℕ} (hplace : s.gate.place tid = .raising g) :
    Inv req data dst₀ { s.goto tid .input with
      gate := { s.gate.pass tid with generation := g + 1 } } := by
  obtain rfl : g = s.gate.generation := h.gate.own tid htid g (.inr (.inr hplace))
  have hcloses : (s.gate.place tid).closes = true := by rw [hplace]; rfl
  have hunique : ∀ q < req.threads, q ≠ tid → ∀ g, s.gate.place q ≠ .raising g :=
    fun q hq hqt g hg => hqt (raising_unique h.gate htid hcloses hq hg)
  have hpassed : ∀ q < req.threads, s.gate.passed q = s.gate.generation :=
    fun q hq => (h.through_of_raising htid hplace hq).2
  have hfollows : ∀ {behind : Phase → Bool} {cursor : ℕ}, behind .meeting = false →
      Follows req s behind cursor →
        Follows req { s.goto tid .input with
          gate := { s.gate.pass tid with generation := s.gate.generation + 1 } } behind cursor := by
    intro behind cursor hb hf
    have hraising := hf.raising tid htid _ hplace
    rw [hp, hb] at hraising
    refine ⟨fun q hq g hg => ?_, fun _ => hraising⟩
    have hg' : (s.gate.pass tid).place q = .raising g := hg
    by_cases hqt : q = tid
    · rw [hqt, s.gate.pass_self] at hg'
      cases hg'
    · rw [s.gate.pass_ne hqt] at hg'
      exact absurd hg' (hunique q hq hqt g)
  -- nobody has copied a byte of the next subchunk
  have hnone : ∀ q < req.threads, ∀ off, ¬ State.Has req { s.goto tid .input with
      gate := { s.gate.pass tid with generation := s.gate.generation + 1 } } q off := by
    rintro q hq off ⟨hlevel, hhas⟩
    have hlevel' : (s.gate.pass tid).passed q = s.gate.generation + 1 := hlevel
    have hhas' : ((s.goto tid .input).phase q).Has req q (s.gate.generation + 1) off := hhas
    by_cases hqt : q = tid
    · subst hqt
      rw [phase_self] at hhas'
      exact hhas'
    · rw [s.gate.pass_passed_ne hqt, hpassed q hq] at hlevel'
      omega
  refine ⟨h.gate.raise htid hplace, fun q hq hthrough => ?_, fun q hq hbefore => ?_,
    fun q hq sc hsc => ?_, fun q hq => ?_, hfollows rfl h.write, fun hr => hfollows rfl (h.reader hr),
    h.unread, fun q hq off hoff => absurd hoff (hnone q hq off), fun a _ => ?_, h.kept, ?_⟩
  · show (s.gate.pass tid).place q = .outside
    by_cases hqt : q = tid
    · rw [hqt, s.gate.pass_self]
    · rw [s.gate.pass_ne hqt]
      exact h.placed q hq ((congrArg Phase.isThrough (phase_ne hqt)).symm.trans hthrough)
  · have hbefore' : beforeReader ((s.goto tid .input).phase q) = true := hbefore
    by_cases hqt : q = tid
    · rw [hqt, phase_self] at hbefore'
      cases hbefore'
    · rw [phase_ne hqt] at hbefore'
      obtain ⟨g, hg⟩ := h.publishing q hq hbefore'
      exact absurd hg (hunique q hq hqt g)
  · refine h.carried q hq sc ?_
    have hsc' : sc < (s.gate.pass tid).passed q +
      if ((s.goto tid .input).phase q).isThrough then 1 else 0 := hsc
    unfold State.copied
    by_cases hqt : q = tid
    · subst hqt
      rw [phase_self, s.gate.pass_passed_self] at hsc'
      rw [hp]
      exact hsc'
    · rw [phase_ne hqt, s.gate.pass_passed_ne hqt] at hsc'
      exact hsc'
  · show s.Waited req q ((s.gate.pass tid).passed q) ((s.goto tid .input).phase q)
    by_cases hqt : q = tid
    · subst hqt
      rw [phase_self]
      trivial
    · rw [phase_ne hqt, s.gate.pass_passed_ne hqt]
      exact h.waited q hq
  · show s.dst a = if req.InSlice s.gate.generation a then _ else _
    split
    · rename_i hin
      obtain ⟨off, rfl⟩ := Nat.exists_eq_add_of_le hin.1
      rw [Nat.add_sub_cancel_left]
      exact h.slice_of_raising htid hplace (Nat.lt_of_add_lt_add_left hin.2)
    · rename_i hnot
      refine h.other a fun q hq off hoff heq => hnot ?_
      have hlt : off < req.size s.gate.generation := by
        cases hpq : s.phase q with
        | meeting | publishWrite | publishReader =>
          have hhas := hoff.2
          rw [hpq] at hhas
          exact lt_of_lt_of_le hhas.2 partEnd_le
        | queued | input | guardWrite | guardConsume | copying | done =>
          have hthrough := (h.through_of_raising htid hplace hq).1
          rw [hpq] at hthrough
          cases hthrough
      rw [heq]
      exact ⟨Nat.le_add_right _ _, Nat.add_lt_add_left hlt _⟩
  · refine h.count.trans (count_same ?_).symm
    rw [hp]
    rfl

theorem meet (h : Inv req data dst₀ s) (htid : tid < req.threads) (hp : s.phase tid = .meeting)
    {gate : Gate.State} (hstep : Gate.step req.threads s.gate tid = some gate) :
    Inv req data dst₀ { s.goto tid (afterGate (s.gate.place tid) (gate.place tid)) with
      gate := gate } := by
  have hsound := h.gate.step htid hstep
  have hothers := (Gate.step_cases hstep).1
  cases hplace : s.gate.place tid with
  | outside =>
    have hno := fun q hq => no_raising (q := q) h.gate htid (by rw [hplace]; nofun)
      (fun g => by rw [hplace]; nofun) hq
    simp only [Gate.step, hplace] at hstep
    cases hstep
    have hafter : (s.gate.goto tid (.loaded s.gate.generation)).place tid =
      .loaded s.gate.generation := s.gate.goto_self _ _
    rw [hafter]
    exact h.regate htid hp hsound rfl hothers hno (fun g hg => by rw [hafter] at hg; cases hg)
      (.inl ⟨rfl, rfl⟩)
  | loaded g =>
    have hno := fun q hq => no_raising (q := q) h.gate htid (by rw [hplace]; nofun)
      (fun g => by rw [hplace]; nofun) hq
    simp only [Gate.step, hplace] at hstep
    cases hstep
    have hafter : ∀ x : Gate.Place, (s.gate.goto tid x).place tid = x :=
      fun x => s.gate.goto_self _ _
    dsimp only
    rw [hafter]
    have hmeeting : afterGate (.loaded g)
        (if s.gate.count + 1 = req.threads then .resetting g else .waiting g) = .meeting := by
      split <;> rfl
    rw [hmeeting]
    refine h.regate htid hp hsound rfl hothers hno (fun g' hg => ?_) (.inl ⟨rfl, rfl⟩)
    have hg' := (hafter _).symm.trans hg
    split at hg' <;> cases hg'
  | resetting g =>
    have hno := fun q hq => no_raising (q := q) h.gate htid (by rw [hplace]; nofun)
      (fun g => by rw [hplace]; nofun) hq
    simp only [Gate.step, hplace] at hstep
    cases hstep
    exact h.regate htid hp hsound rfl hothers hno (fun _ _ => rfl)
      (.inr (.inl ⟨rfl, rfl, g, s.gate.goto_self _ _⟩))
  | raising g =>
    simp only [Gate.step, hplace] at hstep
    cases hstep
    dsimp only
    rw [s.gate.pass_self]
    exact h.opens htid hp hplace
  | waiting g =>
    simp only [Gate.step, hplace] at hstep
    split at hstep
    · rename_i hopen
      cases hstep
      rw [s.gate.pass_self]
      have hno := fun q hq => no_raising (q := q) h.gate htid
        (by rw [hplace]; intro heq; cases heq; exact Nat.lt_irrefl _ hopen)
        (fun g => by rw [hplace]; nofun) hq
      have hlevel := h.gate.level tid htid
      rw [hplace, Gate.Place.past, decide_eq_true hopen, if_pos rfl] at hlevel
      refine h.regate htid hp hsound rfl hothers hno (fun g hg => ?_)
        (.inr (.inr ⟨rfl, s.gate.pass_passed_self tid, s.gate.pass_self tid, by omega⟩))
      rw [s.gate.pass_self] at hg
      cases hg
    · cases hstep

/-- **The last thread publishes.** -/
theorem publish (h : Inv req data dst₀ s) (htid : tid < req.threads) {g w r : ℕ}
    (hplace : s.gate.place tid = .raising g) (hp : p.isThrough = true)
    (hw : w = s.gate.generation + if beforeWrite p then 0 else 1)
    (hr : req.reads = true → r = s.gate.generation + if beforeReader p then 0 else 1)
    (hunread : req.reads = false → r = 0) (hle : s.reader ≤ r) :
    Inv req data dst₀ { s.goto tid p with write := w, reader := r } := by
  have hthrough := (h.through_of_raising htid hplace htid).1
  have hunique := fun q hq g hg =>
    raising_unique (q := q) (g := g) h.gate htid (by rw [hplace]; rfl) hq hg
  have hfollows : ∀ {behind : Phase → Bool} {cursor : ℕ},
      cursor = s.gate.generation + (if behind p then 0 else 1) →
        Follows req { s.goto tid p with write := w, reader := r } behind cursor := by
    intro behind cursor hcursor
    refine ⟨fun q hq g hg => ?_, fun hno => absurd hplace (hno tid htid g)⟩
    cases hunique q hq g hg
    show cursor = s.gate.generation + if behind ((s.goto tid p).phase tid) then 0 else 1
    rw [phase_self]
    exact hcursor
  have hsame : ∀ q off, State.Has req { s.goto tid p with write := w, reader := r } q off ↔
      s.Has req q off := by
    intro q off
    refine and_congr_right fun _ => ?_
    show ((s.goto tid p).phase q).Has req q s.gate.generation off ↔ _
    by_cases hqt : q = tid
    · subst hqt
      rw [phase_self]
      cases p with
      | meeting | publishWrite | publishReader =>
        cases hq : s.phase q with
        | meeting | publishWrite | publishReader => exact Iff.rfl
        | queued | input | guardWrite | guardConsume | copying | done =>
          rw [hq] at hthrough
          cases hthrough
      | queued | input | guardWrite | guardConsume | copying | done => cases hp
    · rw [phase_ne hqt]
  refine ⟨h.gate, fun q hq hnot => ?_, fun q hq hbefore => ?_, fun q hq sc hsc => ?_,
    fun q hq => ?_, hfollows hw, fun hreads => hfollows (hr hreads), hunread,
    fun q hq off hoff => h.has q hq off ((hsame q off).1 hoff),
    fun a ha => h.other a fun q hq off hoff => ha q hq off ((hsame q off).2 hoff), ?_, ?_⟩
  · have hnot' : ((s.goto tid p).phase q).isThrough = false := hnot
    by_cases hqt : q = tid
    · subst hqt
      rw [phase_self, hp] at hnot'
      cases hnot'
    · rw [phase_ne hqt] at hnot'
      exact h.placed q hq hnot'
  · have hbefore' : beforeReader ((s.goto tid p).phase q) = true := hbefore
    by_cases hqt : q = tid
    · exact ⟨g, hqt ▸ hplace⟩
    · rw [phase_ne hqt] at hbefore'
      exact h.publishing q hq hbefore'
  · refine h.carried q hq sc ?_
    have hsc' : sc < s.gate.passed q + if ((s.goto tid p).phase q).isThrough then 1 else 0 := hsc
    unfold State.copied
    by_cases hqt : q = tid
    · subst hqt
      rw [phase_self, hp] at hsc'
      rw [hthrough]
      exact hsc'
    · rw [phase_ne hqt] at hsc'
      exact hsc'
  · show s.Waited req q (s.gate.passed q) ((s.goto tid p).phase q)
    by_cases hqt : q = tid
    · subst hqt
      rw [phase_self]
      cases p with
      | meeting | publishWrite | publishReader => trivial
      | queued | input | guardWrite | guardConsume | copying | done => cases hp
    · rw [phase_ne hqt]
      exact h.waited q hq
  · exact fun sc hsc hreads => h.kept sc hsc fun hr => hle.trans (hreads hr)
  · refine h.count.trans (count_same ?_).symm
    cases hq : s.phase tid with
    | meeting | publishWrite | publishReader =>
      cases p with
      | meeting | publishWrite | publishReader => rfl
      | queued | input | guardWrite | guardConsume | copying | done => cases hp
    | queued | input | guardWrite | guardConsume | copying | done =>
      rw [hq] at hthrough
      cases hthrough

/-! ## Every step keeps it -/

/-- **A thread takes its next access.** -/
theorem thread (h : Inv req data dst₀ s) (hstep : threadStep req s tid = some s') :
    Inv req data dst₀ s' := by
  obtain ⟨htid, haccess⟩ := Access.of_threadStep hstep
  have hw := h.waited tid htid
  cases haccess with
  | begin hp =>
    exact h.goto htid (by rw [hp]; rfl) (.inl rfl) trivial
      (fun off => by rw [hp]; exact Iff.rfl) (by rw [hp]; rfl)
  | guarded hp hcarries hinput =>
    exact h.goto htid (by rw [hp]; rfl) (.inl rfl) ⟨hcarries, hinput⟩
      (fun off => by rw [hp]; exact Iff.rfl) (by rw [hp]; rfl)
  | unguarded hp hcarries hinput hguard =>
    refine h.goto_copy htid (by rw [hp]; rfl) (fun off => by rw [hp]; exact id) (by rw [hp]; rfl)
      hcarries ⟨hinput, fun g hg => ?_⟩
    rw [hguard] at hg
    cases hg
  | leave hp hcarries => exact h.leave htid hp hcarries _
  | guardWrite hp hguard =>
    rw [hp] at hw
    exact h.goto htid (by rw [hp]; rfl) (.inl rfl) ⟨hw.1, hw.2, hguard⟩
      (fun off => by rw [hp]; exact Iff.rfl) (by rw [hp]; rfl)
  | guardConsume hp hguard =>
    rw [hp] at hw
    exact h.goto_copy htid (by rw [hp]; rfl) (fun off => by rw [hp]; exact id) (by rw [hp]; rfl)
      hw.1 ⟨hw.2.1, fun g hg => ⟨hw.2.2 g hg, hguard g hg⟩⟩
  | copy hp => exact h.copy htid hp
  | meet hp hgate => exact h.meet htid hp hgate
  | publishWrite hp =>
    obtain ⟨g, hplace⟩ := h.publishing tid htid (by rw [hp]; rfl)
    have hpassed := (h.through_of_raising htid hplace htid).2
    have hwrite := h.write.raising tid htid g hplace
    rw [hp] at hwrite
    refine h.publish (w := max s.write (s.gate.passed tid + 1)) (r := s.reader) htid hplace rfl ?_
      (fun hreads => ?_) h.unread (Nat.le_refl _)
    · have hzero : s.write = s.gate.generation := hwrite
      rw [hzero, hpassed]
      exact max_eq_right (Nat.le_succ _)
    · have hreader := (h.reader hreads).raising tid htid g hplace
      rw [hp] at hreader
      exact hreader
  | publishReader hp =>
    obtain ⟨g, hplace⟩ := h.publishing tid htid (by rw [hp]; rfl)
    have hpassed := (h.through_of_raising htid hplace htid).2
    have hwrite := h.write.raising tid htid g hplace
    rw [hp] at hwrite
    refine h.publish (w := s.write)
      (r := if req.reads then max s.reader (s.gate.passed tid + 1) else s.reader) htid hplace rfl
      hwrite (fun hreads => ?_) (fun hno => ?_) ?_
    · have hreader := (h.reader hreads).raising tid htid g hplace
      rw [hp] at hreader
      have hzero : s.reader = s.gate.generation := hreader
      rw [if_pos hreads, hzero, hpassed]
      exact max_eq_right (Nat.le_succ _)
    · rw [if_neg (by rw [hno]; decide)]
      exact h.unread hno
    · split
      · exact le_max_left _ _
      · exact Nat.le_refl _

/-- The other executors raise cursors; what a thread has waited for stays so. -/
theorem others (h : Inv req data dst₀ s) {input guardWrite guardConsume : ℕ} {src : ℕ → α}
    (hinput : s.input ≤ input) (hwrite : s.guardWrite ≤ guardWrite)
    (hconsume : s.guardConsume ≤ guardConsume)
    (hkept : State.Kept req data input s.reader src) :
    Inv req data dst₀ { s with
      input := input, guardWrite := guardWrite, guardConsume := guardConsume, src := src } := by
  refine ⟨h.gate, h.placed, h.publishing, h.carried, fun q hq => ?_, ⟨h.write.raising, h.write.level⟩,
    fun hr => ⟨(h.reader hr).raising, (h.reader hr).level⟩, h.unread, h.has, h.other, hkept, h.count⟩
  have hw := h.waited q hq
  show State.Waited req _ q (s.gate.passed q) (s.phase q)
  cases hp : s.phase q with
  | guardWrite =>
    rw [hp] at hw
    exact ⟨hw.1, hw.2.trans_le hinput⟩
  | guardConsume =>
    rw [hp] at hw
    exact ⟨hw.1, hw.2.1.trans_le hinput, fun g hg hv => (hw.2.2 g hg hv).trans_le hwrite⟩
  | copying i =>
    rw [hp] at hw
    obtain ⟨hcarries, ⟨hin, hguard⟩, hpart⟩ := hw
    exact ⟨hcarries, ⟨hin.trans hinput, fun g hg => ⟨fun hv => ((hguard g hg).1 hv).trans hwrite,
      fun hr => ((hguard g hg).2 hr).trans hconsume⟩⟩, hpart⟩
  | done =>
    rw [hp] at hw
    exact hw
  | queued | input | meeting | publishWrite | publishReader => trivial

theorem step [DecidableEq α] (h : Inv req data dst₀ s) {l : Label α}
    (hstep : step req data s l = some s') : Inv req data dst₀ s' := by
  have hkeep : ∀ {submitted completion : Bool} {next completed : ℕ}, Inv req data dst₀ { s with
      submitted := submitted, next := next, completed := completed, completion := completion } :=
    ⟨h.gate, h.placed, h.publishing, h.carried, h.waited, ⟨h.write.raising, h.write.level⟩,
      fun hr => ⟨(h.reader hr).raising, (h.reader hr).level⟩, h.unread, h.has, h.other, h.kept,
      h.count⟩
  cases l with
  | submit =>
    simp only [H2HRange.step] at hstep
    split at hstep
    · cases hstep
      exact hkeep
    · cases hstep
  | thread tid => exact h.thread hstep
  | poll =>
    simp only [H2HRange.step] at hstep
    split at hstep
    · cases hstep
      exact hkeep
    · cases hstep
  | others input guardWrite guardConsume src =>
    simp only [H2HRange.step] at hstep
    split at hstep
    · rename_i hcond
      cases hstep
      exact h.others hcond.1 hcond.2.1 hcond.2.2.1 hcond.2.2.2
    · cases hstep

end Inv

end H2HRange
end Ascend
end HyLink
