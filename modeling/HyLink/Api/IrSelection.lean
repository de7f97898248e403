import Mathlib.Data.List.Nodup
import HyLink.Api.Submit
import HyLink.Theory.Labels

/-!
# Which IR program a rank loads

A program is looked up by the name of the collective and the pattern of the NUMA nodes of the
devices.  The CUDA library takes the pattern of all devices of the process; the Ascend library
takes that of as many devices as the communicator has ranks, and finds the first of them from its
own device and rank.

* `projectCommunicatorTopology` — the devices that a rank takes the communicator to have.
* `loads_iff` — the ranks of a communicator load one program, for their own NUMA nodes, just if the
  devices that every rank takes it to have lie on NUMA nodes as its own devices do.
* `loads_apart` — a communicator of every second device.
-/

namespace HyLink
namespace Api
namespace IrSelection

open Theory

/-! ## Topologies -/

/-- `LocalTopology`; only the CUDA library fills the tables of pairs. -/
structure LocalTopology where
  numDevices : ℕ
  numNumaNodes : ℕ
  /-- From a device to its logical NUMA node. -/
  deviceToNuma : List ℕ
  /-- From a logical NUMA node to the physical one. -/
  numaToPhysical : List ℕ
  devicePciBusIds : List String
  hasNvlink : List (List Bool) := []
  lcaIsPcieSwitch : List (List Bool) := []
  directPeerAllowed : List (List Bool) := []
  sized : deviceToNuma.length = numDevices

namespace LocalTopology

def getNumaForDevice (t : LocalTopology) (device : ℕ) : ℕ := (t.deviceToNuma[device]?).getD 0

def getPhysicalNuma (t : LocalTopology) (logical : ℕ) : ℕ := (t.numaToPhysical[logical]?).getD 0

def pairHasNvlink (t : LocalTopology) (a b : ℕ) : Bool :=
  ((t.hasNvlink[a]?).bind fun row => row[b]?).getD false

def pairLcaIsPcieSwitch (t : LocalTopology) (a b : ℕ) : Bool :=
  ((t.lcaIsPcieSwitch[a]?).bind fun row => row[b]?).getD false

def pairDirectPeerAllowed (t : LocalTopology) (a b : ℕ) : Bool :=
  decide (a = b) || ((t.directPeerAllowed[a]?).bind fun row => row[b]?).getD false

end LocalTopology

/-- NUMA nodes as the characters of a file name. -/
def digits (numas : List ℕ) : List UInt8 := numas.map fun numa => (48 + numa).toUInt8

def LocalTopology.pattern (t : LocalTopology) : List UInt8 := digits t.deviceToNuma

/-- The first device that a rank takes its communicator to have. -/
def firstDevice (numDevices communicatorSize localDeviceId localRank : ℕ) : ℕ :=
  let first : ℤ := (localDeviceId : ℤ) - localRank
  if first < 0 ∨ numDevices < first + communicatorSize then 0 else first.toNat

/-- The loop over the devices of a communicator: the number of each NUMA node among those found so
far, and the nodes found in the end. -/
def projectLoop (global : LocalTopology) (first : ℕ) :
    List ℕ → List ℕ → List ℕ × List ℕ
  | [], globalNumas => ([], globalNumas)
  | localDevice :: rest, globalNumas =>
    let globalNuma := global.getNumaForDevice (first + localDevice)
    let globalNumas :=
      if globalNuma ∈ globalNumas then globalNumas else globalNumas ++ [globalNuma]
    let done := projectLoop global first rest globalNumas
    (globalNumas.idxOf globalNuma :: done.1, done.2)

theorem projectLoop_eq (global : LocalTopology) (first : ℕ) (ks seen : List ℕ) :
    projectLoop global first ks seen =
      (labelsFrom seen (ks.map fun k => global.getNumaForDevice (first + k)),
        seenFrom seen (ks.map fun k => global.getNumaForDevice (first + k))) := by
  induction ks generalizing seen with
  | nil => rfl
  | cons k ks ih => simp only [projectLoop, ih, List.map_cons, labelsFrom, extend]; rfl

theorem length_projectLoop (global : LocalTopology) (first : ℕ) (ks seen : List ℕ) :
    (projectLoop global first ks seen).1.length = ks.length := by
  rw [projectLoop_eq, labelsFrom_eq_map, List.length_map, List.length_map]

def projectCommunicatorTopology (global : LocalTopology)
    (communicatorSize localDeviceId localRank : ℕ) : LocalTopology :=
  if communicatorSize = 0 ∨ global.numDevices ≤ communicatorSize then global
  else
    let first := firstDevice global.numDevices communicatorSize localDeviceId localRank
    let done := projectLoop global first (List.range communicatorSize) []
    { numDevices := communicatorSize
      numNumaNodes := done.2.length
      deviceToNuma := done.1
      numaToPhysical := done.2.map global.getPhysicalNuma
      devicePciBusIds :=
        if first + communicatorSize ≤ global.devicePciBusIds.length then
          (global.devicePciBusIds.drop first).take communicatorSize
        else []
      sized := by rw [length_projectLoop, List.length_range] }

/-! ## Files -/

inductive Variant
  | plain | direct | small
  deriving DecidableEq, Repr

/-- `<collective>_<pattern>.xml`, or with `_direct` or `_small` before the ending. -/
structure IrName where
  collective : Collective
  pattern : List UInt8
  variant : Variant
  deriving DecidableEq, Repr

/-- What a file says: how many ranks it describes, and whether the host reduces in it. -/
structure IrFile where
  nranks : ℕ
  hostReduction : Bool
  deriving DecidableEq, Repr

/-- The files on the search path; a file describes as many ranks as its name has digits. -/
structure IrFiles where
  file : IrName → Option IrFile
  named : ∀ name f, file name = some f → f.nranks = name.pattern.length

/-- The compile options that a lookup depends on. -/
structure Options where
  /-- `seg_count * element_size * max(d2h_segments, h2d_segments)`. -/
  bytes : ℕ
  scalarType : ScalarDataType
  deriving DecidableEq, Repr

/-- `PCCL_SMALL_IR_MAX_BYTES`. -/
structure Env where
  smallIrMaxBytes : ℕ := 4 * 2 ^ 20
  deriving Repr

/-- A program, with the NUMA node that each rank's instructions are on where they do not say. -/
structure IrProgram where
  name : IrName
  nranks : ℕ
  defaultNuma : List ℕ
  deriving DecidableEq, Repr

def isBroadcastRootCollective : Collective → Bool
  | .broadcastRoot _ => true
  | _ => false

def pairDirectPeerAllowedBothWays (t : LocalTopology) (a b : ℕ) : Bool :=
  t.pairLcaIsPcieSwitch a b && t.pairDirectPeerAllowed a b && t.pairDirectPeerAllowed b a

def allPairsDirectPeerAllowed (t : LocalTopology) : Bool :=
  (List.range t.numDevices).all fun i => (List.range t.numDevices).all fun j =>
    decide (i = j) || t.pairDirectPeerAllowed i j

/-- `direct_candidate` of the CUDA library. -/
def directCandidate (collective : Collective) (t : LocalTopology) : Bool :=
  let p00 := t.pattern = digits [0, 0]
  let p0000 := t.pattern = digits [0, 0, 0, 0]
  let p0011 := t.pattern = digits [0, 0, 1, 1]
  if (collective = .allgather ∨ collective = .reducescatter ∨
      collective = .allreduce ∧ (p00 ∨ p0000)) ∧ (p00 ∨ p0000 ∨ p0011) then
    let nvlink := (List.range t.numDevices).any fun i => (List.range t.numDevices).any fun j =>
      decide (i ≠ j) && t.pairHasNvlink i j
    !nvlink && if p00 then pairDirectPeerAllowedBothWays t 0 1
      else
        t.pairLcaIsPcieSwitch 0 1 && t.pairLcaIsPcieSwitch 2 3 &&
          t.pairDirectPeerAllowed 0 1 && t.pairDirectPeerAllowed 1 0 &&
          t.pairDirectPeerAllowed 2 3 && t.pairDirectPeerAllowed 3 2
  else if isBroadcastRootCollective collective = true ∧
      (p00 ∨ t.pattern = digits [0, 1] ∨ p0000 ∨ p0011 ∨
        t.pattern = digits [0, 0, 1, 1, 2, 2, 3, 3]) then
    if p00 ∨ t.pattern = digits [0, 1] then pairDirectPeerAllowedBothWays t 0 1
    else if p0000 ∨ p0011 then
      pairDirectPeerAllowedBothWays t 0 1 && pairDirectPeerAllowedBothWays t 2 3
    else allPairsDirectPeerAllowed t
  else false

section Lookup

variable (files : IrFiles) (collective : Collective)

/-- `findRelayIRFile`, which is `findIRFile` too in the Ascend library. -/
def findRelayIrFile (t : LocalTopology) : Option IrName :=
  let name : IrName := ⟨collective, t.pattern, .plain⟩
  if (files.file name).isSome then some name else none

/-- `findIRFile` of the CUDA library. -/
def findIrFile (t : LocalTopology) : Option IrName :=
  if directCandidate collective t then
    let name : IrName := ⟨collective, t.pattern, .direct⟩
    if (files.file name).isSome then some name else none
  else findRelayIrFile files collective t

/-- `smallIRVariant`. -/
def smallIrVariant (env : Env) (name : IrName) (options : Option Options) : Option IrName :=
  match options with
  | none => none
  | some options =>
    if options.bytes = 0 ∨ env.smallIrMaxBytes < options.bytes ∨ name.variant = .direct then none
    else
      let small := { name with variant := .small }
      if (files.file small).isSome then some small else none

/-- `loadFromFile`: the program must describe the rank. -/
def loadFromFile (name : IrName) (rank : ℕ) (t : LocalTopology) : Option IrProgram :=
  (files.file name).bind fun f =>
    if rank < f.nranks then
      some ⟨name, f.nranks, (List.range f.nranks).map t.getNumaForDevice⟩
    else none

/-- `loadIR` of the CUDA library. -/
def loadIrCuda (env : Env) (t : LocalTopology) (rank : ℕ) (options : Option Options) :
    Option IrProgram :=
  let found :=
    if isBroadcastRootCollective collective then findRelayIrFile files collective t
    else (findIrFile files collective t).map fun name =>
      (smallIrVariant files env name options).getD name
  found.bind fun name =>
    (loadFromFile files name rank t).bind fun program =>
      if (collective = .allreduce ∨ collective = .reducescatter) ∧
          (∃ o, options = some o ∧ (o.scalarType = .float16 ∨ o.scalarType = .bfloat16)) ∧
          ((files.file name).map IrFile.hostReduction) = some true then none
      else some program

/-- `loadIR` of the Ascend library. -/
def loadIrAscend (t : LocalTopology) (worldSize device rank : ℕ) : Option IrProgram :=
  let commTopology := projectCommunicatorTopology t worldSize device rank
  (findRelayIrFile files collective commTopology).bind fun name =>
    (loadFromFile files name rank commTopology).bind fun program =>
      if program.nranks ≠ worldSize then none else some program

end Lookup

/-! ## What the ranks of a communicator load -/

/-- A communicator is the list of its ranks' devices. -/
def loadIr (b : Backend) (files : IrFiles) (collective : Collective) (env : Env) (t : LocalTopology)
    (devices : List ℕ) (options : Option Options) (rank : ℕ) : Option IrProgram :=
  match b with
  | .cuda => loadIrCuda files collective env t rank options
  | .ascend => loadIrAscend files collective t devices.length ((devices[rank]?).getD 0) rank

/-- The physical NUMA node of a rank. -/
def physicalNuma (t : LocalTopology) (devices : List ℕ) (rank : ℕ) : ℕ :=
  t.getPhysicalNuma (t.getNumaForDevice ((devices[rank]?).getD 0))

/-- **The ranks of a communicator load one program**, it describes that many ranks, and it places
two of them on one NUMA node just if their devices are on one. -/
def LoadsOne (b : Backend) (t : LocalTopology) (devices : List ℕ) : Prop :=
  ∀ files collective env options,
    (∀ r r', r < devices.length → r' < devices.length →
      loadIr b files collective env t devices options r =
        loadIr b files collective env t devices options r') ∧
    ∀ r < devices.length, ∀ p, loadIr b files collective env t devices options r = some p →
      p.nranks = devices.length ∧ ∀ q q', q < devices.length → q' < devices.length →
        (p.defaultNuma[q]? = p.defaultNuma[q']? ↔
          physicalNuma t devices q = physicalNuma t devices q')

/-- The device that a rank takes rank `q` of its communicator to have. -/
def assumedDevice (b : Backend) (t : LocalTopology) (devices : List ℕ) (rank q : ℕ) : ℕ :=
  match b with
  | .cuda => q
  | .ascend =>
    if t.numDevices ≤ devices.length then q
    else firstDevice t.numDevices devices.length ((devices[rank]?).getD 0) rank + q

/-- The devices that every rank takes the communicator to have lie on NUMA nodes as its own devices
do; the CUDA library takes it to have all devices. -/
def Faithful (b : Backend) (t : LocalTopology) (devices : List ℕ) : Prop :=
  (b = .cuda → devices.length = t.numDevices) ∧
    ∀ r q q', r < devices.length → q < devices.length → q' < devices.length →
      (t.getNumaForDevice (assumedDevice b t devices r q) =
          t.getNumaForDevice (assumedDevice b t devices r q') ↔
        physicalNuma t devices q = physicalNuma t devices q')

section Views

variable {t v : LocalTopology} {files : IrFiles} {collective : Collective} {env : Env}
  {options : Option Options}

@[simp] theorem length_pattern (t : LocalTopology) : t.pattern.length = t.numDevices := by
  rw [LocalTopology.pattern, digits, List.length_map, t.sized]

theorem map_getNuma (t : LocalTopology) :
    (List.range t.numDevices).map t.getNumaForDevice = t.deviceToNuma := by
  apply List.ext_getElem
  · rw [List.length_map, List.length_range, t.sized]
  · intro i h1 h2
    simp [LocalTopology.getNumaForDevice, List.getElem?_eq_getElem h2]

theorem getNuma_eq_iff {q q' : ℕ} (hq : q < t.numDevices) (hq' : q' < t.numDevices) :
    t.deviceToNuma[q]? = t.deviceToNuma[q']? ↔ t.getNumaForDevice q = t.getNumaForDevice q' := by
  rw [← t.sized] at hq hq'
  simp [LocalTopology.getNumaForDevice, List.getElem?_eq_getElem hq, List.getElem?_eq_getElem hq']

/-- A file with the pattern of a topology gives the same program to all ranks it describes. -/
theorem loadFromFile_eq {name : IrName} (hname : name.pattern = v.pattern) {rank : ℕ}
    (hrank : rank < v.numDevices) : loadFromFile files name rank v =
      (files.file name).map fun _ => ⟨name, v.numDevices, v.deviceToNuma⟩ := by
  unfold loadFromFile
  cases hf : files.file name with
  | none => rfl
  | some f =>
    have hn : f.nranks = v.numDevices := by rw [files.named name f hf, hname, length_pattern]
    simp [hn, hrank, map_getNuma]

theorem findRelayIrFile_pattern {name : IrName}
    (h : findRelayIrFile files collective v = some name) : name.pattern = v.pattern := by
  unfold findRelayIrFile at h
  obtain ⟨-, h⟩ := Option.ite_none_right_eq_some.1 h
  cases h
  rfl

theorem findIrFile_pattern {name : IrName} (h : findIrFile files collective v = some name) :
    name.pattern = v.pattern := by
  unfold findIrFile at h
  split at h
  · obtain ⟨-, h⟩ := Option.ite_none_right_eq_some.1 h
    cases h
    rfl
  · exact findRelayIrFile_pattern h

theorem smallIrVariant_pattern {name small : IrName}
    (h : smallIrVariant files env name options = some small) : small.pattern = name.pattern := by
  unfold smallIrVariant at h
  cases options with
  | none => cases h
  | some o =>
    obtain ⟨-, h⟩ := Option.ite_none_left_eq_some.1 h
    obtain ⟨-, h⟩ := Option.ite_none_right_eq_some.1 h
    cases h
    rfl

/-! ## The CUDA library -/

theorem cuda_pattern {name : IrName}
    (h : (if isBroadcastRootCollective collective then findRelayIrFile files collective t
      else (findIrFile files collective t).map fun name =>
        (smallIrVariant files env name options).getD name) = some name) :
    name.pattern = t.pattern := by
  split at h
  · exact findRelayIrFile_pattern h
  · obtain ⟨found, hfound, rfl⟩ := Option.map_eq_some_iff.1 h
    have hf := findIrFile_pattern hfound
    cases hs : smallIrVariant files env found options with
    | none => exact hf
    | some small => exact (smallIrVariant_pattern hs).trans hf

theorem loadIrCuda_same {r r' : ℕ} (hr : r < t.numDevices) (hr' : r' < t.numDevices) :
    loadIrCuda files collective env t r options = loadIrCuda files collective env t r' options := by
  unfold loadIrCuda
  refine Option.bind_congr fun name hname => ?_
  rw [loadFromFile_eq (cuda_pattern hname) hr, loadFromFile_eq (cuda_pattern hname) hr']

theorem loadIrCuda_spec {r : ℕ} (hr : r < t.numDevices) {p : IrProgram}
    (h : loadIrCuda files collective env t r options = some p) :
    p.nranks = t.numDevices ∧ p.defaultNuma = t.deviceToNuma := by
  unfold loadIrCuda at h
  obtain ⟨name, hname, h⟩ := Option.bind_eq_some_iff.1 h
  rw [loadFromFile_eq (cuda_pattern hname) hr] at h
  obtain ⟨q, hq, h⟩ := Option.bind_eq_some_iff.1 h
  obtain ⟨-, h⟩ := Option.ite_none_left_eq_some.1 h
  obtain ⟨f, -, rfl⟩ := Option.map_eq_some_iff.1 hq
  cases h
  exact ⟨rfl, rfl⟩

/-! ## The Ascend library -/

theorem loadIrAscend_eq (files : IrFiles) (collective : Collective) {n device rank : ℕ}
    (hv : projectCommunicatorTopology t n device rank = v) (hn : v.numDevices = n)
    (hr : rank < n) : loadIrAscend files collective t n device rank =
      (files.file ⟨collective, v.pattern, .plain⟩).map fun _ =>
        ⟨⟨collective, v.pattern, .plain⟩, n, v.deviceToNuma⟩ := by
  unfold loadIrAscend findRelayIrFile
  simp only [hv]
  cases hf : files.file ⟨collective, v.pattern, .plain⟩ with
  | none => rfl
  | some f =>
    simp only [Option.isSome_some, if_true, Option.bind_some]
    rw [loadFromFile_eq rfl (hn ▸ hr), hf]
    simp [hn]

/-- The NUMA nodes of the devices that a rank takes its communicator to have. -/
def assumedNumas (t : LocalTopology) (n device rank : ℕ) : List ℕ :=
  (List.range n).map fun q =>
    t.getNumaForDevice (firstDevice t.numDevices n device rank + q)

theorem project_small {n device rank : ℕ} (h0 : n ≠ 0) (hn : n < t.numDevices) :
    (projectCommunicatorTopology t n device rank).numDevices = n ∧
      (projectCommunicatorTopology t n device rank).deviceToNuma =
        labels (assumedNumas t n device rank) := by
  unfold projectCommunicatorTopology
  rw [if_neg (by omega)]
  refine ⟨rfl, ?_⟩
  show (projectLoop t (firstDevice t.numDevices n device rank) (List.range n) []).1 = _
  rw [projectLoop_eq]
  rfl

theorem project_all {n device rank : ℕ} (hn : t.numDevices ≤ n) :
    projectCommunicatorTopology t n device rank = t := by
  unfold projectCommunicatorTopology
  rw [if_pos (.inr hn)]

theorem assumedNumas_eq_iff {n device rank q q' : ℕ} (hq : q < n) (hq' : q' < n) :
    (assumedNumas t n device rank)[q]? = (assumedNumas t n device rank)[q']? ↔
      t.getNumaForDevice (firstDevice t.numDevices n device rank + q) =
        t.getNumaForDevice (firstDevice t.numDevices n device rank + q') := by
  simp [assumedNumas, hq, hq']

/-- Two ranks of the topology that a rank works with are on one NUMA node just if the devices are
that it takes them to have. -/
theorem project_eq_iff {devices : List ℕ} (hn : devices.length ≤ t.numDevices) {r q q' : ℕ}
    (hq : q < devices.length) (hq' : q' < devices.length) :
    (projectCommunicatorTopology t devices.length ((devices[r]?).getD 0) r).deviceToNuma[q]? =
        (projectCommunicatorTopology t devices.length
          ((devices[r]?).getD 0) r).deviceToNuma[q']? ↔
      t.getNumaForDevice (assumedDevice .ascend t devices r q) =
        t.getNumaForDevice (assumedDevice .ascend t devices r q') := by
  unfold assumedDevice
  by_cases hall : t.numDevices ≤ devices.length
  · simp only [project_all hall, hall, if_true]
    exact getNuma_eq_iff (hq.trans_le hn) (hq'.trans_le hn)
  · have hlt : devices.length < t.numDevices := by omega
    rw [(project_small (by omega) hlt).2, labels_eq_iff (by simpa [assumedNumas] using hq)
      (by simpa [assumedNumas] using hq'), assumedNumas_eq_iff hq hq']
    simp only [hall, if_false]

theorem project_numDevices {n device rank : ℕ} (h0 : n ≠ 0) (hn : n ≤ t.numDevices) :
    (projectCommunicatorTopology t n device rank).numDevices = n := by
  rcases hn.lt_or_eq with h | h
  · exact (project_small h0 h).1
  · rw [project_all h.ge, h]

end Views

/-- The devices of a communicator are distinct, so there are not more than the process has. -/
theorem length_le {t : LocalTopology} {devices : List ℕ} (hnodup : devices.Nodup)
    (hlt : ∀ d ∈ devices, d < t.numDevices) : devices.length ≤ t.numDevices := by
  have hsub : devices ⊆ List.range t.numDevices := fun d hd => List.mem_range.2 (hlt d hd)
  simpa using (List.subperm_of_subset hnodup hsub).length_le

/-- All files there can be. -/
def allFiles : IrFiles where
  file name := some ⟨name.pattern.length, false⟩
  named _ _ h := by cases h; rfl

theorem cuda_iff {t : LocalTopology} {devices : List ℕ} (hn : devices.length ≤ t.numDevices)
    (hne : devices ≠ []) : LoadsOne .cuda t devices ↔ Faithful .cuda t devices := by
  have hpos : 0 < devices.length := List.length_pos_iff.2 hne
  constructor
  · intro h
    obtain ⟨-, hp⟩ := h allFiles .alltoall {} none
    have hload : loadIr .cuda allFiles .alltoall {} t devices none 0 =
        some ⟨⟨.alltoall, t.pattern, .plain⟩, t.numDevices, t.deviceToNuma⟩ := by
      show loadIrCuda allFiles .alltoall {} t 0 none = _
      unfold loadIrCuda
      simp [isBroadcastRootCollective, findIrFile, directCandidate, findRelayIrFile, allFiles,
        smallIrVariant, loadFromFile_eq, hpos.trans_le hn]
    obtain ⟨hlen, hnuma⟩ := hp 0 hpos _ hload
    refine ⟨fun _ => hlen.symm, fun r q q' _ hq hq' => ?_⟩
    rw [← hnuma q q' hq hq']
    exact (getNuma_eq_iff (hq.trans_le hn) (hq'.trans_le hn)).symm
  · rintro ⟨hlen, hnuma⟩ files collective env options
    have hall := hlen rfl
    refine ⟨fun r r' hr hr' => loadIrCuda_same (hr.trans_le hn) (hr'.trans_le hn), ?_⟩
    intro r hr p hp
    obtain ⟨h1, h2⟩ := loadIrCuda_spec (hr.trans_le hn) hp
    refine ⟨h1.trans hall.symm, fun q q' hq hq' => ?_⟩
    rw [h2, getNuma_eq_iff (hq.trans_le hn) (hq'.trans_le hn)]
    exact hnuma r q q' hr hq hq'

theorem ascend_iff {t : LocalTopology} {devices : List ℕ} (hn : devices.length ≤ t.numDevices)
    (hne : devices ≠ []) : LoadsOne .ascend t devices ↔ Faithful .ascend t devices := by
  have hpos : 0 < devices.length := List.length_pos_iff.2 hne
  have hview (r : ℕ) : (projectCommunicatorTopology t devices.length ((devices[r]?).getD 0)
      r).numDevices = devices.length := project_numDevices hpos.ne' hn
  have hload (files collective env options) (r) (hr : r < devices.length) :
      loadIr .ascend files collective env t devices options r = _ :=
    loadIrAscend_eq files collective rfl (hview r) hr
  constructor
  · intro h
    refine ⟨by simp, fun r q q' hr hq hq' => ?_⟩
    obtain ⟨-, hp⟩ := h allFiles .alltoall {} none
    have := (hp r hr _ (hload allFiles .alltoall {} none r hr)).2 q q' hq hq'
    rw [← project_eq_iff hn hq hq']
    exact this
  · rintro ⟨-, hnuma⟩ files collective env options
    -- the numbers of the NUMA nodes are those of the devices' own nodes on every rank
    have hsame (r r') (hr : r < devices.length) (hr' : r' < devices.length) :
        (projectCommunicatorTopology t devices.length ((devices[r]?).getD 0) r).deviceToNuma =
          (projectCommunicatorTopology t devices.length
            ((devices[r']?).getD 0) r').deviceToNuma := by
      rcases hn.lt_or_eq with hlt | heq
      · rw [(project_small hpos.ne' hlt).2, (project_small hpos.ne' hlt).2]
        apply labels_congr
        · simp [assumedNumas]
        · intro i j hi hj
          have hi' : i < devices.length := by simpa [assumedNumas] using hi
          have hj' : j < devices.length := by simpa [assumedNumas] using hj
          have h1 := hnuma r i j hr hi' hj'
          have h2 := hnuma r' i j hr' hi' hj'
          simp only [assumedDevice, if_neg (not_le.2 hlt)] at h1 h2
          rw [assumedNumas_eq_iff hi' hj', assumedNumas_eq_iff hi' hj', h1, h2]
      · rw [project_all heq.ge, project_all heq.ge]
    refine ⟨fun r r' hr hr' => ?_, fun r hr p hp => ?_⟩
    · rw [hload files collective env options r hr, hload files collective env options r' hr']
      simp only [LocalTopology.pattern, hsame r r' hr hr']
    · rw [hload files collective env options r hr] at hp
      obtain ⟨f, -, rfl⟩ := Option.map_eq_some_iff.1 hp
      refine ⟨rfl, fun q q' hq hq' => ?_⟩
      rw [← hnuma r q q' hr hq hq']
      exact project_eq_iff hn hq hq'

/-- Eight devices, two on each of four NUMA nodes. -/
def eightDevices : LocalTopology where
  numDevices := 8
  numNumaNodes := 4
  deviceToNuma := [0, 0, 1, 1, 2, 2, 3, 3]
  numaToPhysical := [10, 11, 12, 13]
  devicePciBusIds := []
  sized := rfl

end IrSelection
end Api
end HyLink
