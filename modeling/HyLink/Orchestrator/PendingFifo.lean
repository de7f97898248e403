import Mathlib.Data.List.Nodup
import Mathlib.Logic.Function.Basic
import HyLink.Theory.Machine

/-!
# The records of pending collectives

A thread that has issued a collective on a stream registers a record of it, attaches the timers to
the last record of the stream, and launches the host function that will take the first one.  Each
of the three is a critical section of its own, and a launch that fails is only logged.

* `PendingFifo.step` — a critical section of a thread, or the host function a stream runs next.
* `Paired` — what a collective's callback is to find: its own record with its own timers.
* `inStep` — the steps that keep a stream's records and callbacks in step.
* `pending_fifo` — the states of a run are all paired just if its steps are all in step.
-/

namespace HyLink
namespace Orchestrator
namespace PendingFifo

open Theory

/-! ## The machine -/

/-- `PendingCollective`: the collective it was registered for, and the one whose timers it has. -/
structure Record where
  call : ℕ
  timers : Option ℕ
  deriving DecidableEq, Repr

/-- How far a thread is with the collective it has issued. -/
inductive Stage
  | registered
  | attached
  deriving DecidableEq, Repr

/-- The collective a thread is submitting. -/
structure Submission where
  call : ℕ
  stream : ℕ
  stage : Stage
  deriving DecidableEq, Repr

/-- What a host function has taken: its stream, the collective it was launched for, the record. -/
structure Taken where
  stream : ℕ
  call : ℕ
  record : Option Record
  deriving DecidableEq, Repr

structure State where
  /-- `stream_to_pending_` -/
  pending : ℕ → List Record
  /-- The host functions a stream has not run yet, by the collectives they were launched for. -/
  launched : ℕ → List ℕ
  submission : ℕ → Option Submission
  /-- The streams of the collectives registered so far (history). -/
  submitted : List ℕ
  taken : List Taken

def start : State := ⟨fun _ => [], fun _ => [], fun _ => none, [], []⟩

inductive Label
  /-- The thread registers a collective on the stream; the null stream is 0. -/
  | register (t s : ℕ)
  | attach (t : ℕ)
  /-- `EnqueueCollectiveCompletionCallback`; the launch may fail. -/
  | launch (t : ℕ) (ok : Bool)
  /-- The stream runs its next host function. -/
  | callback (s : ℕ)
  deriving DecidableEq, Repr

/-- `AttachTimersToLastStreamPending`, with the timers of this collective. -/
def attachTimersToLast (k : ℕ) : List Record → List Record
  | [] => []
  | [r] => [{ r with timers := some k }]
  | r :: r' :: rest => r :: attachTimersToLast k (r' :: rest)

namespace State

variable (st : State)

/-- `RegisterStreamPending` -/
def register (t s : ℕ) : State :=
  { st with
    pending := Function.update st.pending s (st.pending s ++ [⟨st.submitted.length, none⟩])
    submission := Function.update st.submission t (some ⟨st.submitted.length, s, .registered⟩)
    submitted := st.submitted ++ [s] }

def attach (t : ℕ) (sub : Submission) : State :=
  { st with
    pending := Function.update st.pending sub.stream
      (attachTimersToLast sub.call (st.pending sub.stream))
    submission := Function.update st.submission t (some { sub with stage := .attached }) }

def launch (t : ℕ) (sub : Submission) (ok : Bool) : State :=
  { st with
    -- nothing is launched on the null stream
    launched :=
      if sub.stream ≠ 0 ∧ ok = true then
        Function.update st.launched sub.stream (st.launched sub.stream ++ [sub.call])
      else st.launched
    submission := Function.update st.submission t none }

/-- `TakeStreamPending`, from the host function of the collective. -/
def take (s k : ℕ) (rest : List ℕ) : State :=
  { st with
    pending := Function.update st.pending s (st.pending s).tail
    launched := Function.update st.launched s rest
    taken := st.taken ++ [⟨s, k, (st.pending s).head?⟩] }

end State

def step (st : State) : Label → Option State
  | .register t s => if st.submission t = none then some (st.register t s) else none
  | .attach t =>
    (st.submission t).bind fun sub =>
      if sub.stage = .registered then some (st.attach t sub) else none
  | .launch t ok =>
    (st.submission t).bind fun sub =>
      if sub.stage = .attached then some (st.launch t sub ok) else none
  | .callback s =>
    match st.launched s with
    | [] => none
    | k :: rest => some (st.take s k rest)

def machine : Machine State Label := ⟨step⟩

/-! ## What a callback is to find -/

/-- **Each callback has its own record**, with the timers of its own collective.  Nothing is asked
of the null stream, on which no callbacks run. -/
structure Paired (st : State) : Prop where
  /-- What was taken was the callback's own. -/
  own : ∀ e ∈ st.taken, e.record = some ⟨e.call, some e.call⟩
  /-- No record is taken twice. -/
  once : (st.taken.map Taken.record).Nodup
  /-- The callbacks that wait stand where their records do. -/
  waiting : ∀ s, s ≠ 0 → st.launched s <+: (st.pending s).map Record.call
  /-- A record has its own timers, unless its thread has still to attach them. -/
  timed : ∀ s, s ≠ 0 → ∀ r ∈ st.pending s, r.timers = some r.call ∨
    ∃ t, st.submission t = some ⟨r.call, s, .registered⟩
  /-- No record is skipped: its thread is to launch the callback, or the callback waits, or has
  taken it. -/
  kept : ∀ k s, st.submitted[k]? = some s → s ≠ 0 →
    (∃ t stage, st.submission t = some ⟨k, s, stage⟩) ∨ k ∈ st.launched s ∨
      ⟨s, k, some ⟨k, some k⟩⟩ ∈ st.taken

/-- The timers go to the thread's own record; the launch succeeds, and as many records are in front
of its own as there are callbacks on the stream. -/
def inStep (st : State) : Label → Bool
  | .attach t =>
    match st.submission t with
    | none => true
    | some sub =>
      decide (sub.stream = 0 ∨
        (st.pending sub.stream).getLast?.map Record.call = some sub.call)
  | .launch t ok =>
    match st.submission t with
    | none => true
    | some sub =>
      decide (sub.stream = 0 ∨ ok = true ∧
        (st.pending sub.stream)[(st.launched sub.stream).length]?.map Record.call = some sub.call)
  | .register .. | .callback _ => true

/-! ## Timers on the last record -/

variable {st st' : State} {t s k : ℕ} {l : List Record} {r : Record}

theorem attachTimersToLast_eq (k : ℕ) (l : List Record) :
    attachTimersToLast k l =
      l.dropLast ++ (l.getLast?.map fun r => { r with timers := some k }).toList := by
  induction l with
  | nil => rfl
  | cons r rest ih =>
    cases rest with
    | nil => rfl
    | cons r' rest =>
      rw [attachTimersToLast, ih]
      simp

@[simp] theorem map_call_attachTimersToLast (k : ℕ) (l : List Record) :
    (attachTimersToLast k l).map Record.call = l.map Record.call := by
  induction l with
  | nil => rfl
  | cons r rest ih =>
    cases rest with
    | nil => rfl
    | cons r' rest =>
      rw [attachTimersToLast, List.map_cons, ih]
      rfl

/-- A record that is not the last is left as it is. -/
theorem mem_attachTimersToLast (hr : r ∈ l)
    (hlast : l.getLast?.map Record.call ≠ some r.call) : r ∈ attachTimersToLast k l := by
  have hne : l ≠ [] := List.ne_nil_of_mem hr
  rw [← List.dropLast_append_getLast hne, List.mem_append, List.mem_singleton] at hr
  rw [attachTimersToLast_eq]
  rcases hr with hr | rfl
  · exact List.mem_append_left _ hr
  · rw [List.getLast?_eq_getLast_of_ne_nil hne] at hlast
    exact absurd rfl hlast

/-- Where the last record is of this collective, it is the only one that changes. -/
theorem of_mem_attachTimersToLast (hnodup : (l.map Record.call).Nodup)
    (hlast : l.getLast?.map Record.call = some k) (hr : r ∈ attachTimersToLast k l) :
    r = ⟨k, some k⟩ ∨ r ∈ l ∧ r.call ≠ k := by
  rw [attachTimersToLast_eq, List.mem_append] at hr
  obtain ⟨last, hget, rfl⟩ := Option.map_eq_some_iff.1 hlast
  rcases hr with hr | hr
  · refine .inr ⟨List.mem_of_mem_dropLast hr, fun heq => ?_⟩
    have hsplit := List.dropLast_append_getLast? last hget
    rw [← hsplit, List.map_append, List.nodup_append] at hnodup
    exact hnodup.2.2 _ (List.mem_map_of_mem hr) _ (List.mem_singleton_self _) heq
  · rw [hget] at hr
    exact .inl (Option.mem_toList.1 hr |> Option.some.inj |> Eq.symm)

/-! ## What holds in every run whose steps are in step -/

structure Inv (st : State) : Prop where
  paired : Paired st
  null : st.launched 0 = []
  /-- A record is of a collective of its stream. -/
  streams : ∀ s, ∀ r ∈ st.pending s, st.submitted[r.call]? = some s
  nodup : ∀ s, ((st.pending s).map Record.call).Nodup
  /-- What a thread submits is registered, and its callback is not launched. -/
  submission : ∀ t sub, st.submission t = some sub → st.submitted[sub.call]? = some sub.stream ∧
    sub.call ∈ (st.pending sub.stream).map Record.call ∧ sub.call ∉ st.launched sub.stream
  distinct : ∀ t t' sub sub', st.submission t = some sub → st.submission t' = some sub' →
    sub.call = sub'.call → t = t'
  /-- No other thread attaches to the record of a thread that has still to attach. -/
  untimed : ∀ t sub, st.submission t = some sub → sub.stage = .registered → sub.stream ≠ 0 →
    ∀ r ∈ st.pending sub.stream, r.call = sub.call → r.timers = none
  /-- What was taken is not pending any more. -/
  gone : ∀ e ∈ st.taken, st.submitted[e.call]? = some e.stream ∧
    e.call ∉ (st.pending e.stream).map Record.call

theorem Inv.start : Inv start where
  paired := ⟨nofun, List.nodup_nil, fun _ _ => List.prefix_rfl, fun _ _ => nofun, nofun⟩
  null := rfl
  streams _ := nofun
  nodup _ := List.nodup_nil
  submission := nofun
  distinct := nofun
  untimed := nofun
  gone := nofun

theorem submitted_lt (h : st.submitted[k]? = some s) : k < st.submitted.length :=
  (List.getElem?_eq_some_iff.1 h).1

theorem submitted_append {s' : ℕ} (h : st.submitted[k]? = some s) :
    (st.submitted ++ [s'])[k]? = some s := by
  rw [List.getElem?_append_left (submitted_lt h)]
  exact h

/-- The collective a thread registers is one no record is of. -/
theorem Inv.fresh (h : Inv st) (s : ℕ) :
    st.submitted.length ∉ (st.pending s).map Record.call := by
  intro hmem
  obtain ⟨r, hr, hcall⟩ := List.mem_map.1 hmem
  exact absurd (submitted_lt (h.streams s r hr)) (by omega)

/-- After the submission of one thread is set, a thread has that or what it had. -/
theorem submission_update {f : ℕ → Option Submission} {x : Option Submission} {t' : ℕ}
    {sub : Submission} (h : Function.update f t x t' = some sub) :
    t' = t ∧ x = some sub ∨ t' ≠ t ∧ f t' = some sub := by
  by_cases ht : t' = t
  · subst ht
    rw [Function.update_self] at h
    exact .inl ⟨rfl, h⟩
  · rw [Function.update_of_ne ht] at h
    exact .inr ⟨ht, h⟩

theorem mem_register_pending {s' : ℕ} : r ∈ (st.register t s).pending s' ↔
    r ∈ st.pending s' ∨ s' = s ∧ r = ⟨st.submitted.length, none⟩ := by
  change r ∈ Function.update st.pending s _ s' ↔ _
  by_cases hs : s' = s
  · subst hs
    simp
  · simp [hs]

theorem calls_register (s' : ℕ) : ((st.register t s).pending s').map Record.call =
    (st.pending s').map Record.call ++ if s' = s then [st.submitted.length] else [] := by
  change (Function.update st.pending s _ s').map Record.call = _
  by_cases hs : s' = s
  · subst hs
    simp
  · simp [hs]

theorem Inv.notMem_launched (h : Inv st) (s : ℕ) : st.submitted.length ∉ st.launched s := by
  intro hk
  by_cases hs : s = 0
  · subst hs
    rw [h.null] at hk
    cases hk
  · exact h.fresh s ((h.paired.waiting s hs).subset hk)

theorem Paired.register (h : Paired st) (hfree : st.submission t = none) :
    Paired (st.register t s) := by
  have hkeep : ∀ t' sub, st.submission t' = some sub →
      (st.register t s).submission t' = some sub := by
    intro t' sub hsub
    have ht : t' ≠ t := by
      rintro rfl
      exact absurd (hfree.symm.trans hsub) nofun
    exact (Function.update_of_ne ht ..).trans hsub
  refine ⟨h.own, h.once, fun s' hs' => ?_, fun s' hs' r hr => ?_, fun k s' hk hs' => ?_⟩
  · rw [calls_register]
    exact (h.waiting s' hs').trans (List.prefix_append ..)
  · rcases mem_register_pending.1 hr with hr | ⟨rfl, rfl⟩
    · exact (h.timed s' hs' r hr).imp_right fun ⟨t', hsub⟩ => ⟨t', hkeep t' _ hsub⟩
    · exact .inr ⟨t, Function.update_self ..⟩
  · by_cases hlt : k < st.submitted.length
    · rw [show (st.register t s).submitted[k]? = st.submitted[k]? from
        List.getElem?_append_left hlt] at hk
      exact (h.kept k s' hk hs').imp_left fun ⟨t', stage, hsub⟩ => ⟨t', stage, hkeep t' _ hsub⟩
    · -- the collective just registered
      obtain ⟨hlen, hget⟩ := List.getElem?_eq_some_iff.1 hk
      have heq : k = st.submitted.length := by
        have hlen' : k < (st.submitted ++ [s]).length := hlen
        rw [List.length_append, List.length_singleton] at hlen'
        omega
      subst heq
      obtain rfl : s = s' := by simpa [State.register] using hget
      exact .inl ⟨t, .registered, Function.update_self ..⟩

theorem Inv.register (h : Inv st) (hfree : st.submission t = none) : Inv (st.register t s) := by
  have hlast : (st.register t s).submitted[st.submitted.length]? = some s :=
    List.getElem?_concat_length
  refine ⟨h.paired.register hfree, h.null, fun s' r hr => ?_, fun s' => ?_, fun t' sub hsub => ?_,
    fun t₁ t₂ sub₁ sub₂ h₁ h₂ hcall => ?_, fun t' sub hsub hstage hs' r hr hcall => ?_,
    fun e he => ⟨submitted_append (h.gone e he).1, fun hmem => ?_⟩⟩
  · rcases mem_register_pending.1 hr with hr | ⟨rfl, rfl⟩
    · exact submitted_append (h.streams s' r hr)
    · exact hlast
  · rw [calls_register, List.nodup_append]
    refine ⟨h.nodup s', by split <;> simp, fun k hk k' hk' => ?_⟩
    split at hk'
    · rintro rfl
      rw [List.mem_singleton.1 hk'] at hk
      exact h.fresh s' hk
    · cases hk'
  · rcases submission_update hsub with ⟨rfl, heq⟩ | ⟨-, hsub⟩
    · obtain rfl := Option.some.inj heq
      refine ⟨hlast, ?_, h.notMem_launched s⟩
      rw [calls_register]
      simp
    · obtain ⟨hget, hmem, hnot⟩ := h.submission t' sub hsub
      refine ⟨submitted_append hget, ?_, hnot⟩
      rw [calls_register]
      exact List.mem_append_left _ hmem
  · rcases submission_update h₁ with ⟨heq, heq₁⟩ | ⟨-, h₁⟩ <;>
      rcases submission_update h₂ with ⟨heq', heq₂⟩ | ⟨-, h₂⟩
    · rw [heq, heq']
    · obtain rfl := Option.some.inj heq₁
      exact absurd (hcall ▸ submitted_lt (h.submission _ _ h₂).1) (lt_irrefl _)
    · obtain rfl := Option.some.inj heq₂
      exact absurd (hcall ▸ submitted_lt (h.submission _ _ h₁).1) (lt_irrefl _)
    · exact h.distinct _ _ _ _ h₁ h₂ hcall
  · rcases mem_register_pending.1 hr with hold | ⟨-, rfl⟩
    · rcases submission_update hsub with ⟨rfl, heq⟩ | ⟨-, hsub⟩
      · obtain rfl := Option.some.inj heq
        exact absurd (List.mem_map.2 ⟨r, hold, hcall⟩) (h.fresh s)
      · exact h.untimed t' sub hsub hstage hs' r hold hcall
    · rfl
  · rw [calls_register, List.mem_append] at hmem
    rcases hmem with hmem | hmem
    · exact (h.gone e he).2 hmem
    · split at hmem
      · rw [List.mem_singleton] at hmem
        exact absurd (hmem ▸ submitted_lt (h.gone e he).1) (lt_irrefl _)
      · cases hmem

/-! ### The timers -/

section Attach

variable {sub : Submission}

theorem calls_attach (s' : ℕ) :
    ((st.attach t sub).pending s').map Record.call = (st.pending s').map Record.call := by
  change (Function.update st.pending sub.stream _ s').map Record.call = _
  by_cases hs : s' = sub.stream
  · subst hs
    simp
  · simp [hs]

/-- A record is the thread's own with its timers, or was there before and is not its own. -/
theorem Inv.mem_attach_pending (h : Inv st) {s' : ℕ}
    (hlast : (st.pending sub.stream).getLast?.map Record.call = some sub.call)
    (hr : r ∈ (st.attach t sub).pending s') :
    s' = sub.stream ∧ r = ⟨sub.call, some sub.call⟩ ∨
      r ∈ st.pending s' ∧ (s' = sub.stream → r.call ≠ sub.call) := by
  change r ∈ Function.update st.pending sub.stream _ s' at hr
  by_cases hs : s' = sub.stream
  · subst hs
    rw [Function.update_self] at hr
    rcases of_mem_attachTimersToLast (h.nodup _) hlast hr with heq | ⟨hmem, hne⟩
    · exact .inl ⟨rfl, heq⟩
    · exact .inr ⟨hmem, fun _ => hne⟩
  · rw [Function.update_of_ne hs] at hr
    exact .inr ⟨hr, fun heq => absurd heq hs⟩

/-- The records of the other streams stay. -/
theorem mem_attach_pending_of_ne {s' : ℕ} (hs : s' ≠ sub.stream) :
    r ∈ (st.attach t sub).pending s' ↔ r ∈ st.pending s' := by
  change r ∈ Function.update st.pending sub.stream _ s' ↔ _
  rw [Function.update_of_ne hs]

theorem Inv.attach_paired (h : Inv st) (hsub : st.submission t = some sub)
    (hguard : sub.stream = 0 ∨
      (st.pending sub.stream).getLast?.map Record.call = some sub.call) :
    Paired (st.attach t sub) := by
  refine ⟨h.paired.own, h.paired.once, fun s' hs' => ?_, fun s' hs' r hr => ?_,
    fun k s' hk hs' => ?_⟩
  · rw [calls_attach]
    exact h.paired.waiting s' hs'
  · have hold : s' = sub.stream ∧ r = ⟨sub.call, some sub.call⟩ ∨
        r ∈ st.pending s' ∧ (s' = sub.stream → r.call ≠ sub.call) := by
      rcases hguard with h0 | hlast
      · have hne : s' ≠ sub.stream := fun heq => hs' (heq.trans h0)
        exact .inr ⟨(mem_attach_pending_of_ne hne).1 hr, fun heq => absurd heq hne⟩
      · exact h.mem_attach_pending hlast hr
    rcases hold with ⟨-, rfl⟩ | ⟨hmem, hne⟩
    · exact .inl rfl
    · refine (h.paired.timed s' hs' r hmem).imp_right fun ⟨t', hsub'⟩ => ⟨t', ?_⟩
      have ht : t' ≠ t := by
        rintro rfl
        obtain rfl := Option.some.inj (hsub.symm.trans hsub')
        exact hne rfl rfl
      exact (Function.update_of_ne ht ..).trans hsub'
  · refine (h.paired.kept k s' hk hs').imp_left fun ⟨t', stage, hsub'⟩ => ?_
    by_cases ht : t' = t
    · subst ht
      obtain rfl := Option.some.inj (hsub.symm.trans hsub')
      exact ⟨t', .attached, Function.update_self ..⟩
    · exact ⟨t', stage, (Function.update_of_ne ht ..).trans hsub'⟩

theorem Inv.attach (h : Inv st) (hsub : st.submission t = some sub)
    (hguard : sub.stream = 0 ∨
      (st.pending sub.stream).getLast?.map Record.call = some sub.call) :
    Inv (st.attach t sub) := by
  have hcall : ∀ s' r, r ∈ (st.attach t sub).pending s' →
      r.call ∈ (st.pending s').map Record.call :=
    fun s' r hr => calls_attach (t := t) s' ▸ List.mem_map_of_mem hr
  have hsubmission : ∀ t' sub', (st.attach t sub).submission t' = some sub' →
      ∃ old, st.submission t' = some old ∧ sub'.call = old.call ∧ sub'.stream = old.stream ∧
        (sub'.stage = .registered → t' ≠ t ∧ old = sub') := by
    intro t' sub' hsub'
    rcases submission_update hsub' with ⟨rfl, heq⟩ | ⟨ht, hsub'⟩
    · obtain rfl := Option.some.inj heq
      exact ⟨sub, hsub, rfl, rfl, nofun⟩
    · exact ⟨sub', hsub', rfl, rfl, fun _ => ⟨ht, rfl⟩⟩
  refine ⟨h.attach_paired hsub hguard, h.null, fun s' r hr => ?_, fun s' => ?_,
    fun t' sub' hsub' => ?_, fun t₁ t₂ sub₁ sub₂ h₁ h₂ heq => ?_,
    fun t' sub' hsub' hstage hs' r hr hr' => ?_, fun e he => ?_⟩
  · obtain ⟨r', hr', heq⟩ := List.mem_map.1 (hcall s' r hr)
    exact heq ▸ h.streams s' r' hr'
  · rw [calls_attach]
    exact h.nodup s'
  · obtain ⟨old, hold, hk, hs, -⟩ := hsubmission t' sub' hsub'
    rw [calls_attach, hk, hs]
    exact h.submission t' old hold
  · obtain ⟨old₁, hold₁, hk₁, -, -⟩ := hsubmission t₁ sub₁ h₁
    obtain ⟨old₂, hold₂, hk₂, -, -⟩ := hsubmission t₂ sub₂ h₂
    exact h.distinct _ _ _ _ hold₁ hold₂ (hk₁.symm.trans (heq.trans hk₂))
  · obtain ⟨old, hold, -, -, hreg⟩ := hsubmission t' sub' hsub'
    obtain ⟨ht, rfl⟩ := hreg hstage
    refine h.untimed t' old hold hstage hs' r ?_ hr'
    rcases hguard with h0 | hlast
    · exact (mem_attach_pending_of_ne fun heq => hs' (heq.trans h0)).1 hr
    · rcases h.mem_attach_pending hlast hr with ⟨-, rfl⟩ | ⟨hmem, -⟩
      · exact absurd (h.distinct _ _ _ _ hold hsub hr'.symm) ht
      · exact hmem
  · rw [calls_attach]
    exact h.gone e he

/-- Timers that go to another record leave the thread's own without. -/
theorem Inv.attach_inStep (h : Inv st) (hsub : st.submission t = some sub)
    (hstage : sub.stage = .registered) (hgood : Paired (st.attach t sub)) :
    sub.stream = 0 ∨ (st.pending sub.stream).getLast?.map Record.call = some sub.call := by
  by_contra! hguard
  obtain ⟨hs, hlast⟩ := hguard
  obtain ⟨-, hmem, -⟩ := h.submission t sub hsub
  obtain ⟨r, hr, hcall⟩ := List.mem_map.1 hmem
  have hnone := h.untimed t sub hsub hstage hs r hr hcall
  have hr' : r ∈ (st.attach t sub).pending sub.stream := by
    change r ∈ Function.update st.pending sub.stream _ sub.stream
    rw [Function.update_self]
    exact mem_attachTimersToLast hr (hcall ▸ hlast)
  rcases hgood.timed sub.stream hs r hr' with htimers | ⟨t', hsub'⟩
  · rw [hnone] at htimers
    cases htimers
  · rcases submission_update hsub' with ⟨-, heq⟩ | ⟨ht, hsub'⟩
    · exact absurd (congrArg Submission.stage (Option.some.inj heq)) nofun
    · exact ht (h.distinct _ _ _ _ hsub' hsub hcall)

end Attach

/-! ### The callbacks -/

section Launch

variable {sub : Submission} {ok : Bool}

theorem launch_launched (hs : sub.stream ≠ 0) (s' : ℕ) :
    (st.launch t sub true).launched s' =
      st.launched s' ++ if s' = sub.stream then [sub.call] else [] := by
  simp only [State.launch, hs, ne_eq, not_false_eq_true, and_self, if_true]
  by_cases hs' : s' = sub.stream
  · subst hs'
    simp
  · simp [hs']

theorem launch_launched_null (hs : sub.stream = 0) : (st.launch t sub ok).launched = st.launched :=
  if_neg fun h => h.1 hs

/-- A launch that succeeds and is in step puts the callback where its record is. -/
theorem Inv.launch_prefix (h : Inv st) {s' : ℕ} (hs' : s' ≠ 0)
    (hguard : sub.stream = 0 ∨ ok = true ∧
      (st.pending sub.stream)[(st.launched sub.stream).length]?.map Record.call =
        some sub.call) :
    (st.launch t sub ok).launched s' <+: (st.pending s').map Record.call := by
  have hold := h.paired.waiting s' hs'
  rcases hguard with h0 | ⟨rfl, hnext⟩
  · rw [launch_launched_null h0]
    exact hold
  · by_cases hs : sub.stream = 0
    · rw [launch_launched_null hs]
      exact hold
    · rw [launch_launched hs]
      split
      · rename_i heq
        subst heq
        obtain ⟨rest, hrest⟩ := hold
        rw [← List.getElem?_map, ← hrest, List.getElem?_append_right le_rfl, Nat.sub_self,
          ← List.head?_eq_getElem?] at hnext
        obtain ⟨rest', rfl⟩ := List.head?_eq_some_iff.1 hnext
        exact ⟨rest', by rw [← hrest]; simp⟩
      · rw [List.append_nil]
        exact hold

theorem Inv.launch_paired (h : Inv st) (hsub : st.submission t = some sub)
    (hstage : sub.stage = .attached)
    (hguard : sub.stream = 0 ∨ ok = true ∧
      (st.pending sub.stream)[(st.launched sub.stream).length]?.map Record.call =
        some sub.call) :
    Paired (st.launch t sub ok) := by
  have hkeep : ∀ t' sub', st.submission t' = some sub' → t' ≠ t →
      (st.launch t sub ok).submission t' = some sub' :=
    fun t' sub' hsub' ht => (Function.update_of_ne ht ..).trans hsub'
  refine ⟨h.paired.own, h.paired.once, fun s' hs' => h.launch_prefix hs' hguard,
    fun s' hs' r hr => ?_, fun k s' hk hs' => ?_⟩
  · refine (h.paired.timed s' hs' r hr).imp_right fun ⟨t', hsub'⟩ => ⟨t', hkeep t' _ hsub' ?_⟩
    rintro rfl
    obtain rfl := Option.some.inj (hsub.symm.trans hsub')
    cases hstage
  · rcases h.paired.kept k s' hk hs' with ⟨t', stage, hsub'⟩ | hmem | htaken
    · by_cases ht : t' = t
      · -- the thread itself: its callback waits now
        subst ht
        obtain rfl := Option.some.inj (hsub.symm.trans hsub')
        rcases hguard with h0 | ⟨rfl, -⟩
        · exact absurd h0 hs'
        · refine .inr (.inl ?_)
          rw [launch_launched hs']
          simp
      · exact .inl ⟨t', stage, hkeep t' _ hsub' ht⟩
    · refine .inr (.inl ?_)
      rcases hguard with h0 | ⟨rfl, -⟩
      · rw [launch_launched_null h0]
        exact hmem
      · by_cases hs : sub.stream = 0
        · rw [launch_launched_null hs]
          exact hmem
        · rw [launch_launched hs]
          exact List.mem_append_left _ hmem
    · exact .inr (.inr htaken)

theorem Inv.launch (h : Inv st) (hsub : st.submission t = some sub)
    (hstage : sub.stage = .attached)
    (hguard : sub.stream = 0 ∨ ok = true ∧
      (st.pending sub.stream)[(st.launched sub.stream).length]?.map Record.call =
        some sub.call) :
    Inv (st.launch t sub ok) := by
  have hold : ∀ t' sub', (st.launch t sub ok).submission t' = some sub' →
      t' ≠ t ∧ st.submission t' = some sub' := by
    intro t' sub' hsub'
    rcases submission_update hsub' with ⟨-, heq⟩ | h'
    · cases heq
    · exact h'
  refine ⟨h.launch_paired hsub hstage hguard, ?_, h.streams, h.nodup, fun t' sub' hsub' => ?_,
    fun t₁ t₂ sub₁ sub₂ h₁ h₂ => h.distinct _ _ _ _ (hold _ _ h₁).2 (hold _ _ h₂).2,
    fun t' sub' hsub' => h.untimed t' sub' (hold t' sub' hsub').2, h.gone⟩
  · by_cases hs : sub.stream = 0
    · rw [launch_launched_null hs]
      exact h.null
    · rcases hguard with h0 | ⟨rfl, -⟩
      · exact absurd h0 hs
      · rw [launch_launched hs, h.null, if_neg (Ne.symm hs)]
        rfl
  · obtain ⟨ht, hwas⟩ := hold t' sub' hsub'
    obtain ⟨hget, hmem, hnot⟩ := h.submission t' sub' hwas
    refine ⟨hget, hmem, ?_⟩
    by_cases hs : sub.stream = 0
    · rw [launch_launched_null hs]
      exact hnot
    · rcases hguard with h0 | ⟨rfl, -⟩
      · exact absurd h0 hs
      · rw [launch_launched hs, List.mem_append]
        rintro (hmem | hmem)
        · exact hnot hmem
        · split at hmem
          · exact ht (h.distinct _ _ _ _ hwas hsub (List.mem_singleton.1 hmem))
          · cases hmem

/-- A launch that fails leaves the record without a callback, and one out of step puts the callback
where another record is. -/
theorem Inv.launch_inStep (h : Inv st) (hsub : st.submission t = some sub)
    (hgood : Paired (st.launch t sub ok)) :
    sub.stream = 0 ∨ ok = true ∧
      (st.pending sub.stream)[(st.launched sub.stream).length]?.map Record.call =
        some sub.call := by
  by_cases hs : sub.stream = 0
  · exact .inl hs
  obtain ⟨hget, hmem, hnot⟩ := h.submission t sub hsub
  cases ok with
  | false =>
    rcases hgood.kept sub.call sub.stream hget hs with ⟨t', stage, hsub'⟩ | hmem' | htaken
    · rcases submission_update hsub' with ⟨-, heq⟩ | ⟨ht, hsub'⟩
      · cases heq
      · exact absurd (h.distinct _ _ _ _ hsub' hsub rfl) ht
    · exact absurd ((if_neg (by simp) : (st.launch t sub false).launched = _) ▸ hmem') hnot
    · exact absurd hmem (h.gone _ htaken).2
  | true =>
    refine .inr ⟨rfl, ?_⟩
    obtain ⟨rest, hrest⟩ := hgood.waiting sub.stream hs
    rw [launch_launched hs, if_pos rfl] at hrest
    have hcalls : (st.pending sub.stream).map Record.call =
        st.launched sub.stream ++ [sub.call] ++ rest := hrest.symm
    rw [← List.getElem?_map, hcalls]
    simp

end Launch

/-- **The first record of a stream is the callback's own**, with its timers. -/
theorem Inv.head (h : Inv st) {rest : List ℕ} (hlaunched : st.launched s = k :: rest) :
    ∃ l, st.pending s = ⟨k, some k⟩ :: l ∧ rest <+: l.map Record.call := by
  have hs : s ≠ 0 := by
    rintro rfl
    rw [h.null] at hlaunched
    cases hlaunched
  have hwaiting := h.paired.waiting s hs
  rw [hlaunched] at hwaiting
  cases hpending : st.pending s with
  | nil =>
    rw [hpending] at hwaiting
    exact absurd (List.prefix_nil.1 hwaiting) (List.cons_ne_nil _ _)
  | cons r l =>
    rw [hpending, List.map_cons, List.cons_prefix_cons] at hwaiting
    obtain ⟨rfl, hrest⟩ := hwaiting
    refine ⟨l, ?_, hrest⟩
    rcases h.paired.timed s hs r (hpending ▸ List.mem_cons_self ..) with htimers | ⟨t, hsub⟩
    · rw [← htimers]
    · -- the callback of a thread that has still to attach is not launched
      exact absurd (hlaunched ▸ List.mem_cons_self ..) (h.submission t _ hsub).2.2

theorem mem_take_pending {s' : ℕ} {rest : List ℕ} (hr : r ∈ (st.take s k rest).pending s') :
    r ∈ st.pending s' := by
  change r ∈ Function.update st.pending s _ s' at hr
  by_cases hs : s' = s
  · subst hs
    rw [Function.update_self] at hr
    exact List.mem_of_mem_tail hr
  · rwa [Function.update_of_ne hs] at hr

theorem calls_take (s' : ℕ) (rest : List ℕ) : ((st.take s k rest).pending s').map Record.call =
    if s' = s then ((st.pending s').map Record.call).tail else (st.pending s').map Record.call := by
  change (Function.update st.pending s _ s').map Record.call = _
  by_cases hs : s' = s
  · subst hs
    simp
  · simp [hs]

theorem take_launched (s' : ℕ) (rest : List ℕ) :
    (st.take s k rest).launched s' = if s' = s then rest else st.launched s' := by
  change Function.update st.launched s _ s' = _
  by_cases hs : s' = s
  · subst hs
    simp
  · simp [hs]

/-- What the callback takes is its own, and nobody's any more. -/
theorem Inv.take (h : Inv st) {rest : List ℕ} (hlaunched : st.launched s = k :: rest) :
    Inv (st.take s k rest) := by
  obtain ⟨l, hpending, hrest⟩ := h.head hlaunched
  have hnodup := h.nodup s
  rw [hpending, List.map_cons, List.nodup_cons] at hnodup
  have htaken : (st.take s k rest).taken = st.taken ++ [⟨s, k, some ⟨k, some k⟩⟩] := by
    simp [State.take, hpending]
  have hget : st.submitted[k]? = some s :=
    h.streams s ⟨k, some k⟩ (hpending ▸ List.mem_cons_self ..)
  have hgone : ∀ e ∈ st.taken ++ [⟨s, k, some ⟨k, some k⟩⟩], st.submitted[e.call]? = some e.stream ∧
      e.call ∉ ((st.take s k rest).pending e.stream).map Record.call := by
    intro e he
    rw [List.mem_append, List.mem_singleton] at he
    rcases he with he | rfl
    · obtain ⟨hget, hnot⟩ := h.gone e he
      refine ⟨hget, fun hmem => hnot ?_⟩
      obtain ⟨r, hr, hcall⟩ := List.mem_map.1 hmem
      exact List.mem_map.2 ⟨r, mem_take_pending hr, hcall⟩
    · refine ⟨hget, ?_⟩
      rw [calls_take, if_pos rfl, hpending]
      exact hnodup.1
  refine ⟨⟨?_, ?_, fun s' hs' => ?_, fun s' hs' r hr => ?_, fun k' s' hk' hs' => ?_⟩, ?_,
    fun s' r hr => h.streams s' r (mem_take_pending hr), fun s' => ?_, fun t sub hsub => ?_,
    h.distinct, fun t sub hsub hstage hs' r hr => h.untimed t sub hsub hstage hs' r
      (mem_take_pending hr), htaken ▸ hgone⟩
  · rw [htaken]
    intro e he
    rw [List.mem_append, List.mem_singleton] at he
    rcases he with he | rfl
    · exact h.paired.own e he
    · rfl
  · rw [htaken, List.map_append, List.nodup_append]
    refine ⟨h.paired.once, List.nodup_singleton _, fun x hx y hy => ?_⟩
    obtain ⟨e, he, rfl⟩ := List.mem_map.1 hx
    rintro heq
    rw [List.map_singleton, List.mem_singleton] at hy
    have hcall : e.call = k := by
      have hrecord := (h.paired.own e he).symm.trans (heq.trans hy)
      exact congrArg Record.call (Option.some.inj hrecord)
    obtain ⟨hget', hnot⟩ := h.gone e he
    rw [hcall, hget] at hget'
    obtain rfl := Option.some.inj hget'
    rw [hcall, hpending] at hnot
    exact hnot (List.mem_cons_self ..)
  · rw [take_launched, calls_take]
    split
    · rename_i heq
      subst heq
      rw [hpending]
      exact hrest
    · exact h.paired.waiting s' hs'
  · exact h.paired.timed s' hs' r (mem_take_pending hr)
  · rw [htaken, take_launched]
    rcases h.paired.kept k' s' hk' hs' with hsub | hmem | hmem
    · exact .inl hsub
    · split
      · rename_i heq
        subst heq
        rw [hlaunched, List.mem_cons] at hmem
        rcases hmem with rfl | hmem
        · exact .inr (.inr (List.mem_append_right _ (List.mem_singleton_self _)))
        · exact .inr (.inl hmem)
      · exact .inr (.inl hmem)
    · exact .inr (.inr (List.mem_append_left _ hmem))
  · rw [take_launched]
    split
    · rename_i heq
      rw [← heq, h.null] at hlaunched
      cases hlaunched
    · exact h.null
  · rw [calls_take]
    split
    · exact (h.nodup s').tail
    · exact h.nodup s'
  · obtain ⟨hget', hmem, hnot⟩ := h.submission t sub hsub
    refine ⟨hget', ?_, ?_⟩
    · rw [calls_take]
      split
      · rename_i heq
        rw [heq] at hmem hnot ⊢
        rw [hpending, List.map_cons, List.mem_cons] at hmem
        rcases hmem with hcall | hmem
        · exact absurd (hcall ▸ hlaunched ▸ List.mem_cons_self ..) hnot
        · rw [hpending]
          exact hmem
      · exact hmem
    · rw [take_launched]
      split
      · rename_i heq
        rw [heq, hlaunched] at hnot
        exact fun hmem => hnot (List.mem_cons_of_mem _ hmem)
      · exact hnot

/-! ## Every run -/

theorem Inv.step {l : Label} (h : Inv st) (hguard : inStep st l = true)
    (hst : step st l = some st') : Inv st' := by
  cases l with
  | register t s =>
    simp only [PendingFifo.step] at hst
    split at hst <;> cases hst
    exact h.register ‹_›
  | attach t =>
    obtain ⟨sub, hsub, hst⟩ := Option.bind_eq_some_iff.1 hst
    split at hst <;> cases hst
    simp only [inStep, hsub, decide_eq_true_eq] at hguard
    exact h.attach hsub hguard
  | launch t ok =>
    obtain ⟨sub, hsub, hst⟩ := Option.bind_eq_some_iff.1 hst
    split at hst <;> cases hst
    simp only [inStep, hsub, decide_eq_true_eq] at hguard
    exact h.launch hsub ‹_› hguard
  | callback s =>
    simp only [PendingFifo.step] at hst
    split at hst <;> cases hst
    exact h.take ‹_›

/-- A step that is not in step ends where a callback is not paired. -/
theorem Inv.inStep_of_paired {l : Label} (h : Inv st) (hst : PendingFifo.step st l = some st')
    (hgood : Paired st') : inStep st l = true := by
  cases l with
  | register t s => rfl
  | attach t =>
    obtain ⟨sub, hsub, hst⟩ := Option.bind_eq_some_iff.1 hst
    split at hst <;> cases hst
    simp only [inStep, hsub, decide_eq_true_eq]
    exact h.attach_inStep hsub ‹_› hgood
  | launch t ok =>
    obtain ⟨sub, hsub, hst⟩ := Option.bind_eq_some_iff.1 hst
    split at hst <;> cases hst
    simp only [inStep, hsub, decide_eq_true_eq]
    exact h.launch_inStep hsub hgood
  | callback s => rfl

/-- Two threads submit to two streams, and their calls interleave. -/
def twoStreams : List Label :=
  [.register 0 1, .register 1 2, .attach 0, .attach 1, .launch 1 true, .callback 2, .launch 0 true,
    .callback 1]

/-- Both threads register before either attaches its timers. -/
def twoThreads : List Label :=
  [.register 0 1, .register 1 1, .attach 0, .attach 1, .launch 0 true, .launch 1 true, .callback 1]

/-- The launch of the first collective fails; the second one's callback takes its record. -/
def failedLaunch : List Label :=
  [.register 0 1, .attach 0, .launch 0 false, .register 0 1, .attach 0, .launch 0 true, .callback 1]

end PendingFifo
end Orchestrator
end HyLink
