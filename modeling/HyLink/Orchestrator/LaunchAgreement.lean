import HyLink.Orchestrator.Streams

/-!
# What the ranks launch

A rank that computes the plan of a collective launches calls of the fast library and of the PCIe
library, and falls back where something is missing on this rank: a PCIe communicator or stream, a
V-collective, a staging buffer, the dependency on the user's input.

* `launches` — the calls of one rank for a collective, for every outcome of what can fail.
* `launches_eq_iff` — when two ranks launch the same.
* `launch_agreement_iff` — when all ranks issue the same sequence.
* `sequences_differ` — two ranks, one without a staging buffer.
-/

namespace HyLink
namespace Orchestrator
namespace Launching

open Streams (Kind)

/-! ## What a rank has -/

/-- How the fast library does a V-collective. -/
inductive VPath
  | unavailable
  /-- By a call of the library. -/
  | native
  /-- `NcclP2PVCollectives`. -/
  | p2p
  deriving DecidableEq, Repr

/-- The build and the configuration of a rank's process. -/
structure Process where
  /-- `IsPCIeEnabled`. -/
  pcieEnabled : Bool
  /-- There is a device timer, and with it a stream of the domain. -/
  deviceTimer : Bool
  /-- `GetMaxPCIeRecvBufBytes`; zero where no buffer is kept. -/
  maxPcieRecvBufBytes : ℕ
  hasFastV : Kind → VPath

/-- Which calls of the initialisation succeed. -/
structure InitOutcome where
  commInitRank : Bool
  createStream : Bool
  allocRecvbuf : Bool

/-- The PCIe part of a `CommDomain`. -/
structure Domain where
  pcieComm : Bool
  pcieStream : Bool
  /-- Zero where there is no buffer. -/
  pcieRecvbufSize : ℕ
  comm_of_stream : pcieStream = true → pcieComm = true

/-- The domain before it is initialised. -/
def Domain.bare : Domain := ⟨false, false, 0, nofun⟩

/-- `InitPCIeForDomain`. -/
def initPCIeForDomain (p : Process) (o : InitOutcome) : Domain :=
  if p.pcieEnabled && o.commInitRank then
    { pcieComm := true
      pcieStream := p.deviceTimer && o.createStream
      pcieRecvbufSize := if o.allocRecvbuf then p.maxPcieRecvBufBytes else 0
      comm_of_stream := fun _ => rfl }
  else .bare

/-- What happens to one call of a collective. -/
structure CallOutcome where
  /-- The user's stream is not the null handle. -/
  userStream : Bool
  /-- `BeginValueSyncSubmission` gives a ticket. -/
  valueSync : Bool
  inputReady : Bool
  inputWait : Bool
  /-- The user's stream can be synchronised with. -/
  synchronize : Bool
  /-- `AllocDeviceBuffer`. -/
  alloc : Bool

/-- A rank at a collective. -/
structure Local where
  process : Process
  domain : Domain
  outcome : CallOutcome

/-! ## What it launches -/

/-- The arguments of a collective that all ranks pass alike. -/
structure Collective where
  kind : Kind
  count : ℕ
  /-- `NativeDataTypeElemSize`. -/
  es : ℕ
  nranks : ℕ
  two_le : 2 ≤ nranks
  /-- `PCIeBackendImpl::Supports…`. -/
  supported : Bool

/-- A call of one of the libraries, with its counts. -/
inductive Launch
  | fast (kind : Kind) (count : ℕ)
  /-- `count` elements for every rank, at distance `displ`. -/
  | fastV (kind : Kind) (count displ : ℕ)
  /-- A group of `ncclSend` and `ncclRecv`. -/
  | group (kind : Kind) (count displ : ℕ)
  | reduce (root count : ℕ)
  | pcie (kind : Kind) (count : ℕ)
  | pcieStrided (kind : Kind) (count stride : ℕ)
  deriving DecidableEq, Repr

section Launches

variable (c : Collective) (plan : Plan) (x : Local)

/-- The plan after `ForceFastOnly`. -/
def usedPlan : Plan :=
  if plan.usePcie && !c.supported then Plan.forceFastOnly (c.count * c.es) else plan

/-- `PcieWaitForUserInputIfNeeded`. -/
def pcieWaitForUserInput : Bool :=
  x.outcome.userStream && x.domain.pcieStream &&
    ((x.outcome.valueSync && x.outcome.inputReady && x.outcome.inputWait) || x.outcome.synchronize)

/-- A call of the PCIe library, which needs the communicator. -/
def pcieCall (l : Launch) : List Launch := if x.domain.pcieComm then [l] else []

/-- The branches with a PCIe call. -/
def usesPcie : Bool :=
  (usedPlan c plan).usePcie && decide ((usedPlan c plan).pcieBytes ≠ 0) && x.domain.pcieStream

/-- There is a buffer for the fast part of every rank. -/
def staging : Bool :=
  let bytes := c.nranks * (usedPlan c plan).fastBytes
  (decide (x.domain.pcieRecvbufSize ≠ 0) && decide (bytes ≤ x.domain.pcieRecvbufSize)) ||
    x.outcome.alloc

/-- The fast library alone. -/
def fastOnly : List Launch := [.fast c.kind c.count]

/-- `VirtualCollective::AllReduce`. -/
def allReduce : List Launch :=
  let p := usedPlan c plan
  if usesPcie c plan x then
    if pcieWaitForUserInput x then
      (if p.fastBytes = 0 then [] else [.fast .allReduce (p.fastBytes / c.es)]) ++
        pcieCall x (.pcie .allReduce (p.pcieBytes / c.es))
    else []
  else [.fast .allReduce c.count]

/-- `FastAllGatherV`. -/
def fastAllGatherV (fastElems : ℕ) : List Launch :=
  match x.process.hasFastV .allGather with
  | .unavailable => []
  | .native => [.fastV .allGather fastElems c.count]
  | .p2p => if x.outcome.userStream then [.group .allGather fastElems c.count] else []

/-- `VirtualCollective::AllGather`. -/
def allGather : List Launch :=
  let p := usedPlan c plan
  let fastElems := p.fastBytes / c.es
  let strided := pcieCall x (.pcieStrided .allGather c.count fastElems)
  if usesPcie c plan x then
    if p.fastBytes = 0 then
      if pcieWaitForUserInput x then pcieCall x (.pcie .allGather c.count) else []
    else if x.process.hasFastV .allGather ≠ .unavailable then
      if pcieWaitForUserInput x then fastAllGatherV c x fastElems ++ strided else []
    else if staging c plan x then
      if pcieWaitForUserInput x then .fast .allGather fastElems :: strided else []
    else [.fast .allGather c.count]
  else [.fast .allGather c.count]

/-- `FastReduceScatterV`: by point-to-point calls, a reduction for every rank. -/
def fastReduceScatterV (fastElems : ℕ) : List Launch :=
  match x.process.hasFastV .reduceScatter with
  | .unavailable => []
  | .native => [.fastV .reduceScatter fastElems c.count]
  | .p2p =>
    if x.outcome.userStream then (List.range c.nranks).map fun root => .reduce root fastElems
    else []

/-- `VirtualCollective::ReduceScatter`. -/
def reduceScatter : List Launch :=
  let p := usedPlan c plan
  let fastElems := p.fastBytes / c.es
  let strided := pcieCall x (.pcieStrided .reduceScatter (c.count * c.nranks) fastElems)
  if usesPcie c plan x then
    if p.fastBytes = 0 then
      if pcieWaitForUserInput x then pcieCall x (.pcie .reduceScatter c.count) else []
    else if x.process.hasFastV .reduceScatter ≠ .unavailable then
      if pcieWaitForUserInput x then fastReduceScatterV c x fastElems ++ strided else []
    else if staging c plan x then
      if pcieWaitForUserInput x then .fast .reduceScatter fastElems :: strided else []
    else [.fast .reduceScatter c.count]
  else [.fast .reduceScatter c.count]

/-- `FastAllToAllV`. -/
def fastAllToAllV (fastElems : ℕ) : List Launch :=
  match x.process.hasFastV .allToAll with
  | .unavailable => []
  | .native => [.fastV .allToAll fastElems c.count]
  | .p2p => if x.outcome.userStream then [.group .allToAll fastElems c.count] else []

/-- `VirtualCollective::AllToAll`, which has no input dependency. -/
def allToAll : List Launch :=
  let p := usedPlan c plan
  let fastElems := p.fastBytes / c.es
  let strided := pcieCall x (.pcieStrided .allToAll (c.count * c.nranks) fastElems)
  if usesPcie c plan x then
    if p.fastBytes = 0 then pcieCall x (.pcie .allToAll (c.count * c.nranks))
    else if x.process.hasFastV .allToAll ≠ .unavailable then
      fastAllToAllV c x fastElems ++ strided
    else if staging c plan x then .fast .allToAll fastElems :: strided
    else [.fast .allToAll c.count]
  else [.fast .allToAll c.count]

/-- The calls of one rank; elements of an unknown size are refused. -/
def launches : List Launch :=
  if c.es = 0 then []
  else
    match c.kind with
    | .allReduce => allReduce c plan x
    | .allGather => allGather c plan x
    | .reduceScatter => reduceScatter c plan x
    | .allToAll => allToAll c plan x

end Launches

/-! ## Which branch it takes -/

/-- How the fast part of a split collective is launched. -/
inductive Path
  | native
  | p2p
  /-- The point-to-point calls refuse the null handle of a stream. -/
  | refused
  | staged
  deriving DecidableEq, Repr

section Branch

variable (c : Collective) (plan : Plan) (x : Local)

/-- The path of the fast part; `none` where there is no staging buffer. -/
def fastPath : Option Path :=
  match x.process.hasFastV c.kind with
  | .native => some .native
  | .p2p => some (if x.outcome.userStream then .p2p else .refused)
  | .unavailable => if staging c plan x then some .staged else none

/-- The collective does not stop at its input dependency. -/
def inputOk : Bool := decide (c.kind = .allToAll) || pcieWaitForUserInput x

/-- The plan gives the PCIe path something, whatever the rank has. -/
def SplitsWork : Prop :=
  c.es ≠ 0 ∧ (usedPlan c plan).usePcie = true ∧ (usedPlan c plan).pcieBytes ≠ 0

/-- The plan has a fast part that needs a V-collective or a staging buffer. -/
def NeedsPath : Prop := c.kind ≠ .allReduce ∧ (usedPlan c plan).fastBytes ≠ 0

/-- The rank leaves the whole collective to the fast library: it has no PCIe stream, or neither a
V-collective nor a staging buffer. -/
def FallsBack : Prop :=
  x.domain.pcieStream = false ∨ NeedsPath c plan ∧ fastPath c plan x = none

/-- **Two ranks take the same branch:** the plan leaves everything to the fast library; or both
fall back; or neither does, and both or none stop at the input dependency, and the fast parts are
launched the same way. -/
def SameBranch (y : Local) : Prop :=
  SplitsWork c plan → (FallsBack c plan x ↔ FallsBack c plan y) ∧
    (¬ FallsBack c plan x → inputOk c x = inputOk c y ∧
      (inputOk c x = true → NeedsPath c plan → fastPath c plan x = fastPath c plan y))

/-- The calls of the fast part of a split collective. -/
def pathLaunches : Path → List Launch
  | .native => [.fastV c.kind ((usedPlan c plan).fastBytes / c.es) c.count]
  | .p2p =>
    if c.kind = .reduceScatter then
      (List.range c.nranks).map fun root => .reduce root ((usedPlan c plan).fastBytes / c.es)
    else [.group c.kind ((usedPlan c plan).fastBytes / c.es) c.count]
  | .refused => []
  | .staged => [.fast c.kind ((usedPlan c plan).fastBytes / c.es)]

/-- The calls before the one of the PCIe library; `none` where the rank falls back to the fast
library. -/
def before : Option (List Launch) :=
  let p := usedPlan c plan
  if p.fastBytes = 0 then some []
  else if c.kind = .allReduce then some [.fast .allReduce (p.fastBytes / c.es)]
  else (fastPath c plan x).map (pathLaunches c plan)

/-- The call of the PCIe library. -/
def pcieLaunch : Launch :=
  let p := usedPlan c plan
  let total := c.count * c.nranks
  match c.kind with
  | .allReduce => .pcie .allReduce (p.pcieBytes / c.es)
  | .allGather =>
    if p.fastBytes = 0 then .pcie .allGather c.count
    else .pcieStrided .allGather c.count (p.fastBytes / c.es)
  | .reduceScatter =>
    if p.fastBytes = 0 then .pcie .reduceScatter c.count
    else .pcieStrided .reduceScatter total (p.fastBytes / c.es)
  | .allToAll =>
    if p.fastBytes = 0 then .pcie .allToAll total
    else .pcieStrided .allToAll total (p.fastBytes / c.es)

end Branch

variable {c : Collective} {plan : Plan} {x y : Local}

/-- Where the plan leaves everything to the fast library, so does every rank. -/
theorem launches_of_not_splits (h : ¬ SplitsWork c plan) :
    launches c plan x = if c.es = 0 then [] else fastOnly c := by
  unfold launches
  split
  · rfl
  · next hes =>
    have hno : usesPcie c plan x = false := by
      by_contra huses
      simp only [usesPcie, Bool.not_eq_false, Bool.and_eq_true, decide_eq_true_eq] at huses
      exact h ⟨hes, huses.1.1, huses.1.2⟩
    unfold fastOnly
    cases hkind : c.kind <;>
      simp [allReduce, allGather, reduceScatter, allToAll, hno]

/-- Without a PCIe stream a rank uses the fast library alone. -/
theorem launches_of_no_stream (h : SplitsWork c plan) (hx : x.domain.pcieStream = false) :
    launches c plan x = fastOnly c := by
  have hno : usesPcie c plan x = false := by simp [usesPcie, hx]
  unfold launches fastOnly
  rw [if_neg h.1]
  cases hkind : c.kind <;>
    simp [allReduce, allGather, reduceScatter, allToAll, hno]

/-- **With a PCIe stream** a rank falls back, or stops at its input, or launches both parts. -/
theorem launches_of_stream (h : SplitsWork c plan) (hx : x.domain.pcieStream = true) :
    launches c plan x =
      match before c plan x with
      | none => fastOnly c
      | some calls => if inputOk c x then calls ++ [pcieLaunch c plan] else [] := by
  have huses : usesPcie c plan x = true := by simp [usesPcie, hx, h.2.1, h.2.2]
  have hcomm : ∀ l, pcieCall x l = [l] := by
    intro l
    rw [pcieCall, if_pos (x.domain.comm_of_stream hx)]
  have huser : pcieWaitForUserInput x = true → x.outcome.userStream = true := by
    intro hwait
    simp only [pcieWaitForUserInput, Bool.and_eq_true] at hwait
    exact hwait.1.1
  unfold launches fastOnly before inputOk pcieLaunch
  rw [if_neg h.1]
  cases hkind : c.kind with
  | allReduce =>
    by_cases hfb : (usedPlan c plan).fastBytes = 0 <;>
      simp [allReduce, huses, hcomm, hfb]
  | allGather =>
    by_cases hfb : (usedPlan c plan).fastBytes = 0
    · simp [allGather, huses, hcomm, hfb]
    · cases hv : x.process.hasFastV .allGather with
      | unavailable =>
        by_cases hs : staging c plan x = true <;>
          simp [allGather, huses, hcomm, hfb, hv, hs, fastPath, hkind, pathLaunches]
      | native => simp [allGather, huses, hcomm, hfb, hv, fastPath, hkind, pathLaunches,
          fastAllGatherV]
      | p2p =>
        by_cases hw : pcieWaitForUserInput x = true
        · simp [allGather, huses, hcomm, hfb, hv, fastPath, hkind, pathLaunches, fastAllGatherV,
            hw, huser hw]
        · simp [allGather, huses, hfb, hv, fastPath, hkind, hw]
  | reduceScatter =>
    by_cases hfb : (usedPlan c plan).fastBytes = 0
    · simp [reduceScatter, huses, hcomm, hfb]
    · cases hv : x.process.hasFastV .reduceScatter with
      | unavailable =>
        by_cases hs : staging c plan x = true <;>
          simp [reduceScatter, huses, hcomm, hfb, hv, hs, fastPath, hkind, pathLaunches]
      | native => simp [reduceScatter, huses, hcomm, hfb, hv, fastPath, hkind, pathLaunches,
          fastReduceScatterV]
      | p2p =>
        by_cases hw : pcieWaitForUserInput x = true
        · simp [reduceScatter, huses, hcomm, hfb, hv, fastPath, hkind, pathLaunches,
            fastReduceScatterV, hw, huser hw]
        · simp [reduceScatter, huses, hfb, hv, fastPath, hkind, hw]
  | allToAll =>
    by_cases hfb : (usedPlan c plan).fastBytes = 0
    · simp [allToAll, huses, hcomm, hfb]
    · cases hv : x.process.hasFastV .allToAll with
      | unavailable =>
        by_cases hs : staging c plan x = true <;>
          simp [allToAll, huses, hcomm, hfb, hv, hs, fastPath, hkind, pathLaunches]
      | native => simp [allToAll, huses, hcomm, hfb, hv, fastPath, hkind, pathLaunches,
          fastAllToAllV]
      | p2p =>
        by_cases hu : x.outcome.userStream = true <;>
          simp [allToAll, huses, hcomm, hfb, hv, fastPath, hkind, pathLaunches, fastAllToAllV, hu]

/-! ## When two ranks launch the same -/

/-- Every path has its own calls. -/
theorem pathLaunches_inj {p q : Path} (h : pathLaunches c plan p = pathLaunches c plan q) :
    p = q := by
  -- the reductions are at least two calls, the other paths one or none
  have hmany : ∀ l : List Launch, l.length ≤ 1 →
      (List.range c.nranks).map (fun root => Launch.reduce root
        ((usedPlan c plan).fastBytes / c.es)) ≠ l := by
    intro l hl heq
    have hlen := congrArg List.length heq
    rw [List.length_map, List.length_range] at hlen
    have := c.two_le
    omega
  cases p <;> cases q
  case native.native | p2p.p2p | refused.refused | staged.staged => rfl
  case p2p.native | p2p.refused | p2p.staged =>
    unfold pathLaunches at h
    dsimp only at h
    split at h
    · exact absurd h (hmany _ (by simp))
    · cases h
  case native.p2p | refused.p2p | staged.p2p =>
    unfold pathLaunches at h
    dsimp only at h
    split at h
    · exact absurd h.symm (hmany _ (by simp))
    · cases h
  all_goals cases h

theorem before_of_needs (h : NeedsPath c plan) :
    before c plan x = (fastPath c plan x).map (pathLaunches c plan) := by
  unfold before
  rw [if_neg h.2, if_neg h.1]

theorem before_of_not_needs (h : ¬ NeedsPath c plan) :
    ∃ calls, ∀ x, before c plan x = some calls := by
  by_cases hfb : (usedPlan c plan).fastBytes = 0
  · exact ⟨[], fun x => by rw [before, if_pos hfb]⟩
  · have hkind : c.kind = .allReduce := not_not.1 fun hne => h ⟨hne, hfb⟩
    exact ⟨_, fun x => by rw [before, if_neg hfb, if_pos hkind]⟩

/-- **What a rank launches** where the plan splits the work. -/
theorem launches_of_fallsBack (h : SplitsWork c plan) (hx : FallsBack c plan x) :
    launches c plan x = fastOnly c := by
  cases hstream : x.domain.pcieStream with
  | false => exact launches_of_no_stream h hstream
  | true =>
    rcases hx with hno | ⟨hneeds, hnone⟩
    · rw [hstream] at hno
      cases hno
    · rw [launches_of_stream h hstream, before_of_needs hneeds, hnone]
      rfl

theorem launches_of_not_fallsBack (h : SplitsWork c plan) (hx : ¬ FallsBack c plan x) :
    ∃ calls, before c plan x = some calls ∧
      launches c plan x = if inputOk c x then calls ++ [pcieLaunch c plan] else [] := by
  have hstream : x.domain.pcieStream = true :=
    Bool.not_eq_false _ ▸ fun hno => hx (.inl hno)
  obtain ⟨calls, hcalls⟩ : ∃ calls, before c plan x = some calls := by
    by_cases hneeds : NeedsPath c plan
    · rw [before_of_needs hneeds]
      obtain ⟨path, hpath⟩ := Option.ne_none_iff_exists'.1 fun hnone => hx (.inr ⟨hneeds, hnone⟩)
      exact ⟨_, by rw [hpath]; rfl⟩
    · obtain ⟨calls, hall⟩ := before_of_not_needs hneeds
      exact ⟨calls, hall x⟩
  refine ⟨calls, hcalls, ?_⟩
  rw [launches_of_stream h hstream, hcalls]

/-- The calls of the fast part tell the path. -/
theorem before_eq_iff : before c plan x = before c plan y ↔
    (NeedsPath c plan → fastPath c plan x = fastPath c plan y) := by
  by_cases hneeds : NeedsPath c plan
  · rw [before_of_needs hneeds, before_of_needs hneeds]
    have hinj : Function.Injective (pathLaunches c plan) := fun _ _ => pathLaunches_inj
    rw [(Option.map_injective hinj).eq_iff]
    exact ⟨fun h _ => h, fun h => h hneeds⟩
  · obtain ⟨calls, hall⟩ := before_of_not_needs hneeds
    rw [hall x, hall y]
    exact ⟨fun _ h => absurd h hneeds, fun _ => rfl⟩

/-- The fast library alone is never followed by a call of the PCIe library. -/
theorem fastOnly_ne (calls : List Launch) : fastOnly c ≠ calls ++ [pcieLaunch c plan] := by
  intro h
  have hlast := congrArg List.getLast? h
  rw [List.getLast?_concat] at hlast
  have hpcie : Launch.fast c.kind c.count = pcieLaunch c plan := Option.some.inj hlast
  unfold pcieLaunch at hpcie
  cases hkind : c.kind <;> rw [hkind] at hpcie <;> dsimp only at hpcie
  · cases hpcie
  all_goals split at hpcie <;> cases hpcie

/-- **Two ranks launch the same** if and only if they take the same branch. -/
theorem launches_eq_iff : launches c plan x = launches c plan y ↔ SameBranch c plan x y := by
  by_cases hsplits : SplitsWork c plan
  swap
  · rw [launches_of_not_splits hsplits, launches_of_not_splits hsplits]
    exact ⟨fun _ h => absurd h hsplits, fun _ => rfl⟩
  -- one rank that falls back and one that does not
  have hmixed : ∀ {a b : Local}, FallsBack c plan a → ¬ FallsBack c plan b →
      launches c plan a ≠ launches c plan b := by
    intro a b ha hb
    obtain ⟨calls, -, hlaunches⟩ := launches_of_not_fallsBack hsplits hb
    rw [launches_of_fallsBack hsplits ha, hlaunches]
    split
    · exact fastOnly_ne calls
    · exact List.cons_ne_nil _ _
  by_cases hx : FallsBack c plan x
  · by_cases hy : FallsBack c plan y
    · rw [launches_of_fallsBack hsplits hx, launches_of_fallsBack hsplits hy]
      exact ⟨fun _ _ => ⟨⟨fun _ => hy, fun _ => hx⟩, fun hno => absurd hx hno⟩, fun _ => rfl⟩
    · exact ⟨fun heq => absurd heq (hmixed hx hy), fun h => absurd ((h hsplits).1.1 hx) hy⟩
  · by_cases hy : FallsBack c plan y
    · exact ⟨fun heq => absurd heq.symm (hmixed hy hx), fun h => absurd ((h hsplits).1.2 hy) hx⟩
    · obtain ⟨calls, hcalls, hlaunches⟩ := launches_of_not_fallsBack hsplits hx
      obtain ⟨calls', hcalls', hlaunches'⟩ := launches_of_not_fallsBack hsplits hy
      have hpath : calls = calls' ↔
          (NeedsPath c plan → fastPath c plan x = fastPath c plan y) := by
        rw [← before_eq_iff, hcalls, hcalls', Option.some_inj]
      have hsame : SameBranch c plan x y ↔ inputOk c x = inputOk c y ∧
          (inputOk c x = true → calls = calls') := by
        rw [hpath]
        exact ⟨fun h => (h hsplits).2 hx, fun h _ => ⟨⟨fun hf => absurd hf hx,
          fun hf => absurd hf hy⟩, fun _ => h⟩⟩
      rw [hsame, hlaunches, hlaunches']
      cases inputOk c x <;> cases inputOk c y <;> simp

/-! ## The sequences of all ranks -/

/-- A communicator with its collectives and their plans, which all ranks hold alike, and what the
ranks have. -/
structure Job where
  nranks : ℕ
  collectives : ℕ → Collective
  plans : ℕ → Plan
  process : ℕ → Process
  init : ℕ → InitOutcome
  outcome : ℕ → ℕ → CallOutcome

namespace Job

/-- A rank at the `n`-th collective. -/
def localAt (job : Job) (r n : ℕ) : Local :=
  ⟨job.process r, initPCIeForDomain (job.process r) (job.init r), job.outcome r n⟩

/-- What a rank has issued before the `n`-th collective. -/
def issued (job : Job) (r : ℕ) : ℕ → List Launch
  | 0 => []
  | n + 1 => job.issued r n ++ launches (job.collectives n) (job.plans n) (job.localAt r n)

end Job

/-- **All ranks issue the same sequence** after any number of collectives if and only if they take
the same branch in each. -/
theorem launch_agreement_iff (job : Job) :
    (∀ n, ∀ r < job.nranks, ∀ q < job.nranks, job.issued r n = job.issued q n) ↔
      ∀ n, ∀ r < job.nranks, ∀ q < job.nranks,
        SameBranch (job.collectives n) (job.plans n) (job.localAt r n) (job.localAt q n) := by
  constructor
  · intro hall n r hr q hq
    have hnext : job.issued r n ++ _ = job.issued q n ++ _ := hall (n + 1) r hr q hq
    rw [hall n r hr q hq] at hnext
    exact launches_eq_iff.1 (List.append_cancel_left hnext)
  · intro hall n r hr q hq
    induction n with
    | zero => rfl
    | succ n ih =>
      rw [Job.issued, Job.issued, ih, launches_eq_iff.2 (hall n r hr q hq)]

/-! ## A rank without a staging buffer -/

/-- A rank whose calls all succeed, but maybe for the allocation of a staging buffer. -/
def outcomeWith (alloc : Bool) : CallOutcome := ⟨true, true, true, true, true, alloc⟩

/-- Two ranks without V-collectives gather 1024 floats from each, half of them over PCIe; rank 1
gets no staging buffer. -/
def oneWithoutBuffer : Job where
  nranks := 2
  collectives := fun _ => ⟨.allGather, 1024, 4, 2, Nat.le_refl 2, true⟩
  plans := fun _ => ⟨2048, 2048, true⟩
  process := fun _ => ⟨true, true, 0, fun _ => .unavailable⟩
  init := fun _ => ⟨true, true, true⟩
  outcome := fun r _ => outcomeWith (r == 0)

/-- **A rank falls back alone:** rank 0 gathers half of the floats by either library, rank 1 all of
them by the fast one. -/
theorem sequences_differ : ¬ ∀ (job : Job) (n r q : ℕ), r < job.nranks → q < job.nranks →
    job.issued r n = job.issued q n := by
  intro hall
  have heq := hall oneWithoutBuffer 1 0 1 (by decide) (by decide)
  have hfirst : oneWithoutBuffer.issued 0 1 =
      [.fast .allGather 512, .pcieStrided .allGather 1024 512] := by decide
  have hsecond : oneWithoutBuffer.issued 1 1 = [.fast .allGather 1024] := by decide
  rw [hfirst, hsecond] at heq
  cases heq

end Launching
end Orchestrator
end HyLink
