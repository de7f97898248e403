import HyLink.Orchestrator.Streams

/-!
# The calls of a collective in order

What the calls of a collective have established so far is followed along its script:
the input dependency before the PCIe transfer, the completion dependency after it, and
the merge in the callback.  A script that passes has both dependencies, whatever the
device does in between.

* `Facts.next` — what one call adds.
* `Config.orderKept` — the condition under which a collective may be called.
* `script_passes` — under this condition the script of every branch passes.
-/

namespace HyLink
namespace Orchestrator
namespace Streams

/-! ## What the calls establish -/

/-- What the calls of a collective have established. -/
structure Facts where
  /-- The collective has a sequence number of its own. -/
  ticket : Bool
  /-- The input token is written on the user's stream. -/
  written : Bool
  /-- The PCIe stream goes on only when the input is there. -/
  inputDone : Bool
  /-- The PCIe transfer is on its stream. -/
  transfer : Bool
  /-- The end event of the PCIe timer is recorded. -/
  recorded : Bool
  /-- The completion token is written on the PCIe stream. -/
  answered : Bool
  /-- The user's stream goes on only when the PCIe transfer is through. -/
  closed : Bool
  /-- Every collective of the stream that was registered has its callback. -/
  kept : Bool
  /-- The user's stream goes on only when the callback has merged. -/
  merged : Bool
  deriving DecidableEq, Repr

variable (cfg : Config) (call : Call) (f : Facts)

/-- What an operation that is put on a stream adds; nothing else may be put there. -/
def Facts.enqueue (q : Queue) : Op → Option Facts
  | .fast c => if q = .user call.s ∧ c = call.c then some f else none
  | .write .inputReady s seq =>
    if q = .user call.s ∧ s = call.s ∧ seq = call.seq ∧ f.ticket = true ∧ f.written = false then
      some { f with written := true }
    else none
  | .wait .inputReady s seq =>
    if q = .pcie ∧ s = call.s ∧ seq = call.seq ∧ f.ticket = true ∧ f.written = true then
      some { f with inputDone := true }
    else none
  | .pcie c =>
    if q = .pcie ∧ c = call.c ∧ f.inputDone = true ∧ f.transfer = false ∧ f.recorded = false ∧
        f.answered = false ∧ f.closed = false then
      some { f with transfer := true }
    else none
  | .record c =>
    if q = .pcie ∧ c = call.c ∧ f.recorded = false then some { f with recorded := true }
    else none
  | .write .completion s seq =>
    if q = .pcie ∧ s = call.s ∧ seq = call.seq ∧ f.ticket = true ∧ f.answered = false then
      some { f with answered := true }
    else none
  | .wait .completion s seq =>
    if q = .user call.s ∧ s = call.s ∧ seq = call.seq ∧ f.ticket = true ∧ f.answered = true then
      some { f with closed := true }
    else none
  | .waitEvent c =>
    if q = .user call.s ∧ c = call.c ∧ f.recorded = true then some { f with closed := true }
    else none
  | .work | .callback => none

/-- What one call of the host adds. -/
def Facts.next : Action → Option Facts
  | .enqueue q op => f.enqueue call q op
  | .synchronize .pcie => some { f with closed := true }
  | .synchronize (.user s) => if s = call.s then some { f with inputDone := true } else none
  | .complete p launched =>
    if p.call = call.c ∧ (p.waits = true → f.recorded = true) then
      some { f with
        closed := f.closed || p.waits && launched && f.kept
        merged := p.merges && launched && f.kept
        kept := f.kept && launched }
    else none

def Facts.run (l : List Action) : Option Facts := l.foldlM (Facts.next call) f

/-- The result of a staged AllToAll is merged in the callback. -/
def needsMerge : Bool :=
  usesPcie cfg call && decide (call.kind = .allToAll) && staged cfg call

/-- What a collective has to have established when it returns. -/
def Facts.final : Bool :=
  (!f.transfer || f.closed) && (!needsMerge cfg call || f.merged)

/-! ## The scripts -/

/-- The collective gets as far as its PCIe call, and this succeeds. -/
def transfers : Bool :=
  begins cfg call && (decide (call.kind = .allToAll) || (inputDependency cfg call).2) &&
    call.outcome.pcie

/-- One of the ways by which the user's stream, or the host, waits for the PCIe transfer.
The callback waits where it takes the timer of its own collective. -/
def completionKept (kept : Bool) : Bool :=
  valueSync cfg call && call.outcome.completionWrite && call.outcome.completionWait ||
    decide (call.s ≠ 0) && timerUsable cfg call && call.outcome.eventWait ||
    cfg.syncBeforeCallback && call.outcome.syncPcie ||
    launches cfg call && cfg.controller && cfg.feedback && timerUsable cfg call && kept

/-- The facts at the call of a collective: `idle` when the user's stream has nothing to do,
`kept` when no callback of the stream was lost. -/
def Facts.initial (idle kept : Bool) : Facts where
  ticket := takesTicket cfg call
  written := false
  inputDone := idle
  transfer := false
  recorded := false
  answered := false
  closed := false
  kept := kept
  merged := false

/-- The condition on a collective that is called. -/
def callKept (idle kept : Bool) : Bool :=
  (!(transfers cfg call && decide (call.kind = .allToAll)) || idle) &&
    (!transfers cfg call || completionKept cfg call kept) &&
    (!needsMerge cfg call || launches cfg call && cfg.controller && kept)

variable {cfg call f}

theorem Facts.run_append (l l' : List Action) :
    f.run call (l ++ l') = (f.run call l).bind fun g => g.run call l' := by
  unfold Facts.run
  rw [List.foldlM_append]
  rfl

theorem Facts.run_nil : f.run call [] = some f := rfl

theorem Facts.run_cons (a : Action) (l : List Action) :
    f.run call (a :: l) = (f.next call a).bind fun g => g.run call l := rfl

theorem run_enqueueFast : f.run call (enqueueFast call) = some f := by
  unfold enqueueFast
  split
  · simp [Facts.run_cons, Facts.run_nil, Facts.next, Facts.enqueue]
  · rfl

theorem run_copies : f.run call (copies call) = some f := by
  simp [copies, Facts.run_cons, Facts.run_nil, Facts.next, Facts.enqueue]

/-- `PcieWaitForUserInputIfNeeded` returns true only when it has made the dependency. -/
theorem run_inputDependency (hticket : valueSync cfg call = true → f.ticket = true)
    (hwritten : f.written = false) :
    ∃ written inputDone, ((inputDependency cfg call).2 = true → inputDone = true) ∧
      f.run call (inputDependency cfg call).1 =
        some { f with written := written, inputDone := inputDone } := by
  unfold inputDependency
  split
  · exact ⟨f.written, f.inputDone, nofun, rfl⟩
  · dsimp only
    split
    · rename_i hvalue
      have hvalue' : f.ticket = true := hticket (by simp at hvalue; exact hvalue.1)
      split
      · refine ⟨true, true, fun _ => rfl, ?_⟩
        simp [Facts.run_cons, Facts.run_nil, Facts.next, Facts.enqueue, hvalue', hwritten]
      · cases call.outcome.syncUser
        · refine ⟨true, f.inputDone, nofun, ?_⟩
          simp [Facts.run_cons, Facts.run_nil, Facts.next, Facts.enqueue, hvalue', hwritten]
        · refine ⟨true, true, fun _ => rfl, ?_⟩
          simp [Facts.run_cons, Facts.run_nil, Facts.next, Facts.enqueue, hvalue', hwritten]
    · cases call.outcome.syncUser
      · exact ⟨f.written, f.inputDone, nofun, rfl⟩
      · refine ⟨f.written, true, fun _ => rfl, ?_⟩
        simp [Facts.run_cons, Facts.run_nil, Facts.next]

/-- The facts before the PCIe call. -/
structure Facts.Open (f : Facts) : Prop where
  transfer : f.transfer = false
  recorded : f.recorded = false
  answered : f.answered = false
  closed : f.closed = false

theorem run_enqueuePcie (h : f.Open) (hinput : call.outcome.pcie = true → f.inputDone = true) :
    ∃ recorded, (timerUsable cfg call = true → recorded = true) ∧
      f.run call (enqueuePcie cfg call) =
        some { f with transfer := call.outcome.pcie, recorded := recorded } := by
  have hpcie : f.run call (if call.outcome.pcie then [.enqueue .pcie (.pcie call.c)] else []) =
      some { f with transfer := call.outcome.pcie } := by
    cases hp : call.outcome.pcie with
    | false =>
      have htransfer := h.transfer
      cases f
      cases htransfer
      rfl
    | true =>
      simp [Facts.run_cons, Facts.run_nil, Facts.next, Facts.enqueue, hinput hp, h.transfer,
        h.recorded, h.answered, h.closed]
  unfold enqueuePcie
  rw [Facts.run_append, hpcie, Option.bind_some]
  split
  · refine ⟨true, fun _ => rfl, ?_⟩
    simp [Facts.run_cons, Facts.run_nil, Facts.next, Facts.enqueue, h.recorded]
  · rename_i hno
    refine ⟨f.recorded, fun husable => absurd ?_ hno, rfl⟩
    simp [timerUsable] at husable
    simp [husable]

theorem run_completionDependency (hticket : valueSync cfg call = true → f.ticket = true)
    (hrecorded : timerUsable cfg call = true → f.recorded = true) (hanswered : f.answered = false) :
    ∃ answered closed,
      ((valueSync cfg call && call.outcome.completionWrite && call.outcome.completionWait ||
        decide (call.s ≠ 0) && timerUsable cfg call && call.outcome.eventWait || f.closed) = true →
          closed = true) ∧
      f.run call (completionDependency cfg call) =
        some { f with answered := answered, closed := closed } := by
  have hevent : ∀ g : Facts, g.recorded = f.recorded →
      ∃ closed, (timerUsable cfg call = true ∧ call.outcome.eventWait = true ∨ g.closed = true →
          closed = true) ∧
        g.run call (if timerUsable cfg call && call.outcome.eventWait then
          [Action.enqueue (.user call.s) (.waitEvent call.c)] else []) =
            some { g with closed := closed } := by
    intro g hg
    split
    · rename_i husable
      simp only [Bool.and_eq_true] at husable
      refine ⟨true, fun _ => rfl, ?_⟩
      simp [Facts.run_cons, Facts.run_nil, Facts.next, Facts.enqueue, hg, hrecorded husable.1]
    · rename_i husable
      simp only [Bool.and_eq_true] at husable
      exact ⟨g.closed, fun h => h.resolve_left husable, rfl⟩
  unfold completionDependency
  split
  · rename_i hs
    refine ⟨f.answered, f.closed, ?_, rfl⟩
    simp [hs, valueSync]
  · rename_i hs
    dsimp only
    by_cases hvalue : (valueSync cfg call && call.outcome.completionWrite) = true
    · have hticket' : f.ticket = true := by
        simp only [Bool.and_eq_true] at hvalue
        exact hticket hvalue.1
      rw [if_pos hvalue]
      have hwrite : f.next call (.enqueue .pcie (.write .completion call.s call.seq)) =
          some { f with answered := true } := by
        simp [Facts.next, Facts.enqueue, hticket', hanswered]
      split
      · refine ⟨true, true, fun _ => rfl, ?_⟩
        rw [Facts.run_cons, hwrite]
        simp [Facts.run_cons, Facts.run_nil, Facts.next, Facts.enqueue, hticket']
      · rename_i hwait
        obtain ⟨closed, hclosed, hrun⟩ := hevent { f with answered := true } rfl
        refine ⟨true, closed, fun h => hclosed ?_, ?_⟩
        · simpa [hs, hwait] using h
        · rw [Facts.run_cons, hwrite]
          exact hrun
    · rw [if_neg hvalue]
      obtain ⟨closed, hclosed, hrun⟩ := hevent f rfl
      refine ⟨f.answered, closed, fun h => hclosed ?_, hrun⟩
      rw [Bool.eq_false_iff.2 hvalue] at h
      simpa [hs] using h

theorem run_syncBeforeCallback :
    f.run call (syncBeforeCallback cfg call) =
      some { f with closed := f.closed || cfg.syncBeforeCallback && call.outcome.syncPcie } := by
  unfold syncBeforeCallback
  split
  · rename_i hsync
    simp [Facts.run_cons, Facts.run_nil, Facts.next, hsync]
  · rename_i hsync
    rw [Bool.eq_false_iff.2 hsync, Bool.or_false]
    rfl

theorem run_complete {usedPcie : Bool} (h : usedPcie = true → timerUsable cfg call = true →
    f.recorded = true) :
    f.run call [complete cfg call usedPcie] =
      some { f with
        closed := f.closed || (usedPcie && cfg.controller && cfg.feedback && timerUsable cfg call) &&
          launches cfg call && f.kept
        merged := (usedPcie && callbackMerges cfg call) && launches cfg call && f.kept
        kept := f.kept && launches cfg call } := by
  have hwaits : (usedPcie && cfg.controller && cfg.feedback && timerUsable cfg call) = true →
      f.recorded = true := by
    intro hw
    simp only [Bool.and_eq_true] at hw
    exact h hw.1.1.1 hw.2
  simp [Facts.run_cons, Facts.run_nil, complete, Facts.next]
  simpa using hwaits

/-- From the PCIe call to the return, without a merge on the user's stream. -/
theorem run_pcieAndCompletion {merge : List Action} (hmerge : ∀ g : Facts, g.run call merge = some g)
    (hticket : valueSync cfg call = true → f.ticket = true) (h : f.Open)
    (hinput : call.outcome.pcie = true → f.inputDone = true)
    (hkept : call.outcome.pcie = true → completionKept cfg call f.kept = true)
    (hneeds : needsMerge cfg call = true →
      (launches cfg call && cfg.controller && f.kept) = true) :
    ∃ g, f.run call (pcieAndCompletion cfg call merge) = some g ∧ g.final cfg call = true := by
  obtain ⟨recorded, hrecorded, hpcie⟩ := @run_enqueuePcie cfg _ _ h hinput
  obtain ⟨answered, closed, hclosed, hcompletion⟩ :=
    run_completionDependency (f := { f with transfer := call.outcome.pcie, recorded := recorded })
      hticket hrecorded h.answered
  unfold pcieAndCompletion
  simp only [Facts.run_append, hpcie, hcompletion, run_syncBeforeCallback, hmerge, Option.bind_some]
  rw [run_complete fun _ => hrecorded]
  refine ⟨_, rfl, ?_⟩
  unfold Facts.final
  dsimp only
  rw [Bool.and_eq_true]
  refine ⟨?_, ?_⟩
  · cases hp : call.outcome.pcie with
    | false => rfl
    | true =>
      have hk := hkept hp
      unfold completionKept at hk
      simp only [Bool.or_eq_true] at hk hclosed
      simp only [Bool.not_true, Bool.false_or, Bool.or_eq_true, Bool.true_and]
      rcases hk with ((hk | hk) | hk) | hk
      · exact .inl (.inl (hclosed (.inl (.inl hk))))
      · exact .inl (.inl (hclosed (.inl (.inr hk))))
      · exact .inl (.inr hk)
      · refine .inr ?_
        simp only [Bool.and_eq_true] at hk ⊢
        exact ⟨⟨⟨⟨hk.1.1.1.2, hk.1.1.2⟩, hk.1.2⟩, hk.1.1.1.1⟩, hk.2⟩
  · cases hn : needsMerge cfg call with
    | false => rfl
    | true =>
      have hm := hneeds hn
      simp only [needsMerge, Bool.and_eq_true] at hn hm
      simp only [Bool.not_true, Bool.false_or, Bool.and_eq_true, Bool.true_and, callbackMerges]
      exact ⟨⟨⟨⟨hm.1.2, hn.1.2⟩, hn.2⟩, hm.1.1⟩, hm.2⟩

theorem run_fastOnly (callback : Bool) (htransfer : f.transfer = false)
    (hneeds : needsMerge cfg call = false) :
    ∃ g, f.run call (fastOnly cfg call callback) = some g ∧ g.final cfg call = true := by
  unfold fastOnly
  rw [Facts.run_append, run_enqueueFast, Option.bind_some]
  split
  · rw [@run_complete cfg call f false nofun]
    exact ⟨_, rfl, by simp [Facts.final, htransfer, hneeds]⟩
  · exact ⟨f, rfl, by simp [Facts.final, htransfer, hneeds]⟩

/-! ## Every branch -/

theorem initial_ticket (idle kept : Bool) (hbegins : begins cfg call = true)
    (hvalue : valueSync cfg call = true) : (Facts.initial cfg call idle kept).ticket = true := by
  simp [Facts.initial, takesTicket, hbegins, hvalue]

theorem initial_open (idle kept : Bool) : (Facts.initial cfg call idle kept).Open :=
  ⟨rfl, rfl, rfl, rfl⟩

theorem run_afterInput {rest : List Action} {idle kept : Bool}
    (hbegins : begins cfg call = true) (hneeds : needsMerge cfg call = false)
    (hrest : ∀ g : Facts, (valueSync cfg call = true → g.ticket = true) → g.Open →
      g.inputDone = true → g.kept = kept → (inputDependency cfg call).2 = true →
        ∃ g', g.run call rest = some g' ∧ g'.final cfg call = true) :
    ∃ g, (Facts.initial cfg call idle kept).run call (afterInput cfg call rest) = some g ∧
      g.final cfg call = true := by
  have hticket : valueSync cfg call = true → (Facts.initial cfg call idle kept).ticket = true :=
    initial_ticket idle kept hbegins
  obtain ⟨written, inputDone, hinput, hrun⟩ := run_inputDependency hticket rfl
  unfold afterInput
  rw [Facts.run_append, hrun, Option.bind_some]
  split
  · rename_i hok
    exact hrest _ hticket ⟨rfl, rfl, rfl, rfl⟩ (hinput hok) rfl hok
  · exact ⟨_, rfl, by simp [Facts.final, Facts.initial, hneeds]⟩

/-- The PCIe call and what comes after it, once the fast path is launched. -/
theorem run_transfer {pre merge : List Action} {idle kept : Bool}
    (hpre : ∀ g : Facts, g.run call pre = some g) (hmerge : ∀ g : Facts, g.run call merge = some g)
    (hcall : callKept cfg call idle kept = true)
    (htransfers : call.outcome.pcie = true → transfers cfg call = true)
    (hticket : valueSync cfg call = true → f.ticket = true) (h : f.Open)
    (hinput : call.outcome.pcie = true → f.inputDone = true) (hkept : f.kept = kept) :
    ∃ g, f.run call (pre ++ pcieAndCompletion cfg call merge) = some g ∧ g.final cfg call = true := by
  rw [Facts.run_append, hpre, Option.bind_some]
  simp only [callKept, Bool.and_eq_true] at hcall
  obtain ⟨⟨_, hcompletion⟩, hneeds⟩ := hcall
  refine run_pcieAndCompletion hmerge hticket h hinput (fun hp => ?_) (fun hn => ?_)
  · rw [hkept]
    simpa [htransfers hp] using hcompletion
  · rw [hkept]
    simpa [hn] using hneeds

theorem run_allReduceScript {idle kept : Bool} (hkind : call.kind = .allReduce)
    (hcall : callKept cfg call idle kept = true) :
    ∃ g, (Facts.initial cfg call idle kept).run call (allReduceScript cfg call) = some g ∧
      g.final cfg call = true := by
  have hneeds : needsMerge cfg call = false := by simp [needsMerge, hkind]
  unfold allReduceScript
  split
  · rename_i huse
    have hbegins : begins cfg call = true := by simp [begins, huse, hkind]
    refine run_afterInput hbegins hneeds fun g hticket hopen hinput hkept hok => ?_
    refine run_transfer ?_ (fun _ => rfl) hcall (fun hp => ?_) hticket hopen (fun _ => hinput) hkept
    · intro g'
      split
      · exact run_enqueueFast
      · rfl
    · simp [transfers, hbegins, hok, hp]
  · exact run_fastOnly _ rfl hneeds

/-- AllGather and ReduceScatter, which differ in where the copies stand. -/
theorem run_gatherLike {idle kept : Bool} {pre merge : List Action}
    (hpre : ∀ g : Facts, g.run call pre = some g) (hmerge : ∀ g : Facts, g.run call merge = some g)
    (hkind : call.kind ≠ .allToAll) (hcall : callKept cfg call idle kept = true) :
    ∃ g, (Facts.initial cfg call idle kept).run call
      (if usesPcie cfg call then
        if hybrid call then
          if cfg.hasV call.kind then
            afterInput cfg call (enqueueFast call ++ pcieAndCompletion cfg call [])
          else if call.outcome.staging then
            afterInput cfg call (pre ++ pcieAndCompletion cfg call merge)
          else fastOnly cfg call true
        else afterInput cfg call (pcieAndCompletion cfg call [])
      else fastOnly cfg call cfg.fastOnlyBwLog) = some g ∧ g.final cfg call = true := by
  have hneeds : needsMerge cfg call = false := by simp [needsMerge, hkind]
  have htail : ∀ {pre merge : List Action}, (∀ g : Facts, g.run call pre = some g) →
      (∀ g : Facts, g.run call merge = some g) → begins cfg call = true →
      ∃ g, (Facts.initial cfg call idle kept).run call
        (afterInput cfg call (pre ++ pcieAndCompletion cfg call merge)) = some g ∧
          g.final cfg call = true := by
    intro pre merge hpre hmerge hbegins
    refine run_afterInput hbegins hneeds fun g hticket hopen hinput hkept hok => ?_
    refine run_transfer hpre hmerge hcall (fun hp => ?_) hticket hopen (fun _ => hinput) hkept
    simp [transfers, hbegins, hok, hp]
  split
  · rename_i huse
    split
    · rename_i hhybrid
      split
      · rename_i hv
        exact htail (fun _ => run_enqueueFast) (fun _ => rfl) (by simp [begins, huse, hv])
      · split
        · rename_i hstaging
          exact htail hpre hmerge (by simp [begins, huse, hstaging])
        · exact run_fastOnly _ rfl hneeds
    · rename_i hhybrid
      have hpure := @htail [] [] (fun _ => rfl) (fun _ => rfl) (by simp [begins, huse, hhybrid])
      exact hpure
  · exact run_fastOnly _ rfl hneeds

theorem run_allToAllScript {idle kept : Bool} (hkind : call.kind = .allToAll)
    (hcall : callKept cfg call idle kept = true) :
    ∃ g, (Facts.initial cfg call idle kept).run call (allToAllScript cfg call) = some g ∧
      g.final cfg call = true := by
  have htail : ∀ {pre : List Action}, (∀ g : Facts, g.run call pre = some g) →
      begins cfg call = true →
      ∃ g, (Facts.initial cfg call idle kept).run call (pre ++ pcieAndCompletion cfg call []) =
        some g ∧ g.final cfg call = true := by
    intro pre hpre hbegins
    have htransfers : call.outcome.pcie = true → transfers cfg call = true := by
      intro hp
      simp [transfers, hbegins, hkind, hp]
    refine run_transfer hpre (fun _ => rfl) hcall htransfers
      (initial_ticket idle kept hbegins) (initial_open idle kept) (fun hp => ?_) rfl
    simp only [callKept, Bool.and_eq_true] at hcall
    show idle = true
    simpa [htransfers hp, hkind] using hcall.1.1
  unfold allToAllScript
  split
  · rename_i huse
    split
    · rename_i hhybrid
      split
      · rename_i hv
        exact htail (fun _ => run_enqueueFast) (by simp [begins, huse, hkind, hv])
      · rename_i hv
        split
        · rename_i hstaging
          refine htail (fun g => ?_) (by simp [begins, huse, hstaging])
          rw [Facts.run_append, run_copies, Option.bind_some, run_enqueueFast]
        · rename_i hstaging
          exact run_fastOnly _ rfl (by simp [needsMerge, staged, hstaging])
    · rename_i hhybrid
      exact @htail [] (fun _ => rfl) (by simp [begins, huse, hhybrid])
  · rename_i huse
    exact run_fastOnly _ rfl (by simp [needsMerge, huse])

/-- **Every branch has its dependencies.**  A collective that may be called makes only
calls that are in order, and has both dependencies when it returns. -/
theorem script_passes {idle kept : Bool} (hcall : callKept cfg call idle kept = true) :
    ∃ g, (Facts.initial cfg call idle kept).run call (script cfg call) = some g ∧
      g.final cfg call = true := by
  unfold script
  split
  · exact run_allReduceScript ‹_› hcall
  · rename_i hkind
    have h := run_gatherLike (fun _ => run_enqueueFast) (fun _ => run_copies)
      (by rw [hkind]; nofun) hcall
    rw [hkind] at h
    exact h
  · rename_i hkind
    have hpre : ∀ g : Facts, g.run call (copies call ++ enqueueFast call) = some g := by
      intro g
      rw [Facts.run_append, run_copies, Option.bind_some, run_enqueueFast]
    have h := @run_gatherLike cfg call idle kept _ [] hpre (fun _ => rfl) (by rw [hkind]; nofun) hcall
    rw [hkind] at h
    exact h
  · exact run_allToAllScript ‹_› hcall

end Streams
end Orchestrator
end HyLink
