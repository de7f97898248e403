import HyLink.Theory.Machine
import Mathlib.Data.Int.Notation
import Mathlib.Data.Nat.Notation
import Mathlib.Logic.Function.Basic

/-!
# Registration and lookup of the node scope

Every rank of a communicator registers in a table in shared memory that the ranks of
its node have in common, and then looks at the table until it sees all ranks there or
its wait is over.  The rank uses the hybrid path when it has seen all of them with
adjacent devices.

* `NodeScope.step` — one access to the table, one system call, or the passing of time.
* `CommScope.contiguous` — what a lookup that sees every rank makes of the devices.
-/

namespace HyLink
namespace Orchestrator
namespace NodeScope

def kMagic : ℕ := 0x414d5043434c4e53
def kMaxRanks : ℕ := 1024
def kSlotMaxAgeNs : ℕ := 10 * 60 * 1000 * 1000 * 1000

structure NodeScopeHeader where
  magic : ℕ
  commHash : ℕ
  nodeHash : ℕ
  nranks : ℕ
  deriving DecidableEq, Repr

structure NodeScopeSlot where
  valid : Bool
  commRank : ℤ
  pid : ℤ
  deviceId : ℤ
  timestampNs : ℕ
  deriving DecidableEq, Repr

/-- A slot of a table that has been set to zero. -/
def NodeScopeSlot.zero : NodeScopeSlot := ⟨false, 0, 0, 0, 0⟩

/-- The call that made the communicator. -/
inductive Origin
  | initRank
  /-- `ncclCommInitAll`, which registers all ranks before the first lookup. -/
  | initAll
  /-- `ncclCommSplit`, and whether `AMPCCL_PCIE_CHILD_COMMS` is on. -/
  | split (childPcie : Bool)
  deriving DecidableEq, Repr

/-- A communicator, and where its ranks run. -/
structure CommScope where
  nranks : ℕ
  nranks_pos : 0 < nranks
  commHash : ℕ
  origin : Origin
  /-- `IsIntraNodeOnlyEnabled() && !IsForceEnableInterNode()`. -/
  gated : Bool
  /-- The table a rank opens: ranks of one host, user and boot have one in common. -/
  node : ℕ → ℕ
  /-- `LocalNodeHash` there. -/
  nodeHash : ℕ → ℕ
  pid : ℕ → ℤ
  /-- `GetLocalDeviceId`. -/
  deviceId : ℕ → ℤ
  waitMs : ℕ → ℤ

variable (c : CommScope)

def CommScope.header (n : ℕ) : NodeScopeHeader := ⟨kMagic, c.commHash, c.nodeHash n, c.nranks⟩

/-- The stores of `RegisterNodeScopeRank`, in their order. -/
inductive Field
  | invalidate
  | commRank
  | pid
  | deviceId
  | timestamp
  | publish
  deriving DecidableEq, Repr

def stores : List Field := [.invalidate, .commRank, .pid, .deviceId, .timestamp, .publish]

/-- What `CountLocalSeen` loads of a slot after `valid`. -/
def loads : List Field := [.commRank, .pid, .deviceId, .timestamp]

/-- What a store of rank `r` at time `now` does to its slot. -/
def CommScope.store (r now : ℕ) (slot : NodeScopeSlot) : Field → NodeScopeSlot
  | .invalidate => { slot with valid := false }
  | .commRank => { slot with commRank := r }
  | .pid => { slot with pid := c.pid r }
  | .deviceId => { slot with deviceId := c.deviceId r }
  | .timestamp => { slot with timestampNs := now }
  | .publish => { slot with valid := true }

/-- Load one field of `slot` into `got`. -/
def NodeScopeSlot.load (got slot : NodeScopeSlot) : Field → NodeScopeSlot
  | .invalidate | .publish => { got with valid := slot.valid }
  | .commRank => { got with commRank := slot.commRank }
  | .pid => { got with pid := slot.pid }
  | .deviceId => { got with deviceId := slot.deviceId }
  | .timestamp => { got with timestampNs := slot.timestampNs }

/-! ## One pass over the slots -/

/-- `first_dev` and `contiguous`. -/
structure Devices where
  firstDev : ℤ
  contiguous : Bool
  deriving DecidableEq, Repr

/-- The device of rank `r` comes after the devices `d` of the ranks before it. -/
def Devices.note (d : Devices) (r : ℕ) (dev : ℤ) : Devices :=
  if 0 ≤ dev then
    if r = 0 then { d with firstDev := dev }
    else if 0 ≤ d.firstDev ∧ dev ≠ d.firstDev + r then { d with contiguous := false }
    else d
  else d

/-- The devices of the ranks below `k`, all seen. -/
def CommScope.devices (c : CommScope) : ℕ → Devices
  | 0 => ⟨-1, true⟩
  | k + 1 => (c.devices k).note k (c.deviceId k)

/-- The two devices of a pair sit on different cards. -/
def apart (dev0 dev1 : ℤ) : Bool := decide (dev0.tdiv 2 ≠ dev1.tdiv 2)

/-- What a pass that sees every rank makes of the devices. -/
def CommScope.contiguous : Bool :=
  if c.nranks = 2 ∧ 0 ≤ (c.devices c.nranks).firstDev ∧
      apart (c.deviceId 0) (c.deviceId 1) = true then false
  else (c.devices c.nranks).contiguous

/-- The local variables of `CountLocalSeen`. -/
structure Scan where
  now : ℕ
  seen : ℕ
  devices : Devices
  deriving DecidableEq, Repr

def pidAlive (alive : ℤ → Bool) (pid : ℤ) : Bool := decide (0 < pid) && alive pid

/-- What has been loaded of slot `r` is counted, or not. -/
def Scan.tally (s : Scan) (alive : ℤ → Bool) (r : ℕ) (got : NodeScopeSlot) : Scan :=
  if got.commRank = r ∧ pidAlive alive got.pid = true ∧ got.timestampNs ≤ s.now ∧
      s.now - got.timestampNs ≤ kSlotMaxAgeNs then
    { s with seen := s.seen + 1, devices := s.devices.note r got.deviceId }
  else s

/-! ## The ranks -/

/-- The branch through which a rank comes to its decision. -/
inductive Exit
  /-- The node scope is not asked. -/
  | ungated
  /-- `OpenMapping` fails. -/
  | unmapped
  /-- All ranks were seen. -/
  | full
  /-- The wait was over before. -/
  | deadline
  deriving DecidableEq, Repr

inductive Phase
  /-- Before `RegisterNodeScopeRank`. -/
  | registering
  | storing (left : List Field)
  /-- Before `ResolveNodeScope`. -/
  | resolving
  /-- At the head of the loop, with `contiguous` as the last pass left it. -/
  | polling (deadline : ℕ) (contiguous : Bool)
  /-- Before the load of `valid` of slot `r`. -/
  | scanning (deadline : ℕ) (s : Scan) (r : ℕ)
  | loading (deadline : ℕ) (s : Scan) (r : ℕ) (got : NodeScopeSlot) (left : List Field)
  /-- The second look at the devices of a pair; the first of them may have been loaded. -/
  | pairing (deadline : ℕ) (s : Scan) (dev0 : Option ℤ)
  | counted (deadline : ℕ) (localSeen : ℕ) (contiguous : Bool)
  | decided (exit : Exit) (allow : Bool)
  deriving DecidableEq, Repr

structure State where
  header : ℕ → NodeScopeHeader
  slots : ℕ → ℕ → NodeScopeSlot
  /-- `NowNs` on a node. -/
  clock : ℕ → ℕ
  /-- The processes of a node that answer a `kill(pid, 0)`. -/
  alive : ℕ → ℤ → Bool
  phase : ℕ → Phase
  /-- How the first lookup of a rank ended that looks a second time. -/
  first : ℕ → Option Exit

inductive Label
  /-- The next step of rank `r`; `ok` tells whether `OpenMapping` succeeds in it. -/
  | rank (r : ℕ) (ok : Bool)
  /-- Time passes on node `n`, and processes start and end. -/
  | world (n : ℕ) (elapsed : ℕ) (alive : ℤ → Bool)

variable (st : State)

def State.goto (r : ℕ) (p : Phase) : State :=
  { st with phase := Function.update st.phase r p }

/-- `OpenMapping` on node `n`: a table of something else is set to zero. -/
def State.openMapping (n : ℕ) : State :=
  if st.header n = c.header n then st
  else
    { st with
      header := Function.update st.header n (c.header n)
      slots := Function.update st.slots n fun _ => .zero }

def State.storeSlot (n r : ℕ) (slot : NodeScopeSlot) : State :=
  { st with slots := Function.update st.slots n (Function.update (st.slots n) r slot) }

/-- The node scope of rank `r` says `allow`.  A child communicator uses the answer only
with `AMPCCL_PCIE_CHILD_COMMS`, and asks again after a refusal, to no effect. -/
def State.finish (r : ℕ) (exit : Exit) (allow : Bool) : State :=
  match c.origin, st.first r with
  | .initRank, _ | .initAll, _ => st.goto r (.decided exit allow)
  | .split false, _ => st.goto r (.decided exit false)
  | .split true, some exit => st.goto r (.decided exit false)
  | .split true, none =>
    if allow then st.goto r (.decided exit true)
    else { st.goto r .registering with first := Function.update st.first r (some exit) }

/-- The next step of rank `r`. -/
def stepRank (r : ℕ) (ok : Bool) : Option State :=
  let n := c.node r
  match st.phase r with
  | .registering =>
    if c.gated = false ∧ c.origin ≠ .initAll then some (st.finish c r .ungated true)
    else if kMaxRanks < c.nranks ∨ ok = false then some (st.goto r .resolving)
    else some ((st.openMapping c n).goto r (.storing stores))
  | .storing (f :: left) =>
    some ((st.storeSlot n r (c.store r (st.clock n) (st.slots n r) f)).goto r (.storing left))
  | .storing [] => some (st.goto r .resolving)
  | .resolving =>
    if c.gated = false then some (st.finish c r .ungated true)
    else if kMaxRanks < c.nranks ∨ ok = false then some (st.finish c r .unmapped false)
    else
      some ((st.openMapping c n).goto r
        (.polling (st.clock n + (c.waitMs r).toNat * 1000 * 1000) true))
  | .polling deadline contiguous =>
    if (st.header n).magic ≠ kMagic ∨ (st.header n).nranks ≠ c.nranks then
      some (st.goto r (.counted deadline 0 contiguous))
    else some (st.goto r (.scanning deadline ⟨st.clock n, 0, ⟨-1, true⟩⟩ 0))
  | .scanning deadline s k =>
    if k < c.nranks then
      if (st.slots n k).valid then
        some (st.goto r (.loading deadline s k { NodeScopeSlot.zero with valid := true } loads))
      else some (st.goto r (.scanning deadline s (k + 1)))
    else if s.seen = c.nranks ∧ c.nranks = 2 ∧ 0 ≤ s.devices.firstDev then
      some (st.goto r (.pairing deadline s none))
    else
      some (st.goto r (.counted deadline s.seen
        (if s.seen = c.nranks then s.devices.contiguous else false)))
  | .loading deadline s k got (f :: left) =>
    some (st.goto r (.loading deadline s k (got.load (st.slots n k) f) left))
  | .loading deadline s k got [] =>
    some (st.goto r (.scanning deadline (s.tally (st.alive n) k got) (k + 1)))
  | .pairing deadline s none =>
    some (st.goto r (.pairing deadline s (some (st.slots n 0).deviceId)))
  | .pairing deadline s (some dev0) =>
    some (st.goto r (.counted deadline s.seen
      (if apart dev0 (st.slots n 1).deviceId then false else s.devices.contiguous)))
  | .counted deadline localSeen contiguous =>
    if localSeen = c.nranks then some (st.finish c r .full contiguous)
    else if deadline ≤ st.clock n then some (st.finish c r .deadline false)
    else some (st.goto r (.polling deadline contiguous))
  | .decided _ _ => none

def step : Label → Option State
  | .rank r ok => if r < c.nranks then stepRank c st r ok else none
  | .world n elapsed alive =>
    some { st with
      clock := Function.update st.clock n (st.clock n + elapsed)
      alive := Function.update st.alive n alive }

def machine : Theory.Machine State Label := ⟨step c⟩

/-- No rank has registered yet: a table may hold anything, but under another header. -/
structure Initial (st : State) : Prop where
  header : ∀ n, st.header n ≠ c.header n
  phase : ∀ r, st.phase r = .registering
  first : ∀ r, st.first r = none

end NodeScope
end Orchestrator
end HyLink
