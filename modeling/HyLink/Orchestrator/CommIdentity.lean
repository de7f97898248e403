import Mathlib.Logic.Function.Basic
import Mathlib.Logic.Equiv.List
import Mathlib.Data.List.Dedup
import Mathlib.Data.List.Sort
import Mathlib.Data.Nat.Notation
import HyLink.Theory.Machine

/-!
# The identity of a communicator

The processes of some nodes create communicators from unique ids, all at once for their own
devices, or by splitting a communicator they have.  Every rank computes the logical key of a
communicator on its own: from the unique id, from a number that its process counts, or from the key
of the parent and the number of its own splits of the parent.

* `Name` — the place of a communicator in the tree of all creations.
* `keyOf_inj` — where the hash is injective, a key determines that place up to its root.
* `identities_kept` — where no process repeats the count of another one, all ranks of a
  communicator have one key, and no two communicators of a node have the same.
* `init_all_keys_meet` — two processes of a node that each create their first communicator.
-/

namespace HyLink
namespace Orchestrator
namespace Identity

open Theory

/-! ## Keys -/

structure LogicalCommKey where
  worldSize : ℕ
  commHash : ℕ
  deriving DecidableEq, Repr

structure CommDomainKey where
  worldSize : ℕ
  ranks : List ℕ
  topologyHash : ℕ
  deriving DecidableEq, Repr

/-- `CommDomain`, as far as its identity goes. -/
structure Domain where
  key : CommDomainKey
  logicalKey : LogicalCommKey
  deriving DecidableEq, Repr

/-- `static_cast<uint64_t>(static_cast<int64_t>(color))`. -/
def castColor (color : Int32) : ℕ := color.toInt64.toUInt64.toNat

section Keys

/-! `hash` is `HashBytesForComm`, on words of 64 bits. -/

variable (hash : List ℕ → ℕ)

def buildLogicalKeyFromBootstrap (nranks : ℕ) (bootstrap : List ℕ) (fallbackTag : ℕ) :
    LogicalCommKey where
  worldSize := nranks
  commHash :=
    if bootstrap = [] then fallbackTag ^^^ nranks * 0x9e3779b97f4a7c15 % 2 ^ 64 else hash bootstrap

def buildLogicalKeyFromNcclInit (nranks : ℕ) (commId : List ℕ) : LogicalCommKey :=
  buildLogicalKeyFromBootstrap hash nranks commId 0x4e43434c5f494449

def buildLogicalKeyFromInitAll (ndev : ℕ) (localNonce : Option ℕ) : LogicalCommKey :=
  match localNonce with
  | none => buildLogicalKeyFromBootstrap hash ndev [] 0x494e49545f414c4c
  | some nonce => buildLogicalKeyFromBootstrap hash ndev [ndev, nonce] 0x494e49545f414c4c

def buildLogicalKeyFromCommSplit (parent : LogicalCommKey) (color : Int32)
    (splitOrdinal childNranks : ℕ) : LogicalCommKey :=
  buildLogicalKeyFromBootstrap hash childNranks
    [parent.commHash, parent.worldSize, childNranks, castColor color, splitOrdinal]
    0x53504c49545f4e43

def buildKeyFromNcclInit (nranks : ℕ) (commId : List ℕ) (rank : ℕ) : CommDomainKey :=
  ⟨nranks, [rank], (buildLogicalKeyFromNcclInit hash nranks commId).commHash⟩

def buildKeyFromNcclInitAll (ndev rank : ℕ) : CommDomainKey :=
  ⟨ndev, [rank], (buildLogicalKeyFromInitAll hash ndev none).commHash⟩

def buildKeyFromNcclCommSplit (parent : LogicalCommKey) (color : Int32)
    (splitOrdinal childNranks childRank : ℕ) : CommDomainKey :=
  ⟨childNranks, [childRank],
    (buildLogicalKeyFromCommSplit hash parent color splitOrdinal childNranks).commHash⟩

/-! ## The hooks of one process -/

structure Process where
  /-- `g_nccl_init_all_seq`. -/
  ncclInitAllSeq : ℕ
  /-- `g_nccl_comm_split_ordinals`; a communicator that is not in the table counts as `0`. -/
  ncclCommSplitOrdinals : ℕ → ℕ
  /-- `raw_to_domain_`. -/
  rawToDomain : ℕ → Option Domain

namespace Process

def registerRawComm (p : Process) (raw : ℕ) (domain : Domain) : Process :=
  { p with rawToDomain := Function.update p.rawToDomain raw (some domain) }

def unregisterRawComm (p : Process) (raw : ℕ) : Process :=
  { p with rawToDomain := Function.update p.rawToDomain raw none }

def nextNcclCommSplitOrdinal (p : Process) (parent : ℕ) : ℕ × Process :=
  (p.ncclCommSplitOrdinals parent,
    { p with
      ncclCommSplitOrdinals := Function.update p.ncclCommSplitOrdinals parent
        ((p.ncclCommSplitOrdinals parent + 1) % 2 ^ 64) })

def eraseNcclCommSplitOrdinal (p : Process) (comm : ℕ) : Process :=
  { p with ncclCommSplitOrdinals := Function.update p.ncclCommSplitOrdinals comm 0 }

/-- `ncclCommDestroy`. -/
def ncclCommDestroy (p : Process) (comm : ℕ) : Process :=
  (p.eraseNcclCommSplitOrdinal comm).unregisterRawComm comm

/-- `ncclCommSplit`, after the split itself has returned: what is counted, and the domain that is
registered for the new communicator.  `count` is what `ncclCommCount` and `ncclCommUserRank` say of
it. -/
def ncclCommSplit (p : Process) (comm ret : ℕ) (color : Int32) (newcomm : Bool)
    (count : Option (ℕ × ℕ)) : Process × Option Domain :=
  if ret ≠ 0 then (p, none)
  else
    match p.rawToDomain comm with
    | none => (p, none)
    | some parent =>
      let (ordinal, p) := p.nextNcclCommSplitOrdinal comm
      match newcomm, count with
      | true, some (childNranks, childRank) =>
        if childNranks = 0 ∨ childNranks ≤ childRank then (p, none)
        else
          (p, some ⟨buildKeyFromNcclCommSplit hash parent.logicalKey color ordinal childNranks
              childRank,
            buildLogicalKeyFromCommSplit hash parent.logicalKey color ordinal childNranks⟩)
      | _, _ => (p, none)

end Process

/-- The domain that `RegisterNcclCommAfterInit` registers. -/
def ncclInitDomain (nranks : ℕ) (commId : List ℕ) (myrank : ℕ) : Domain :=
  ⟨buildKeyFromNcclInit hash nranks commId myrank, buildLogicalKeyFromNcclInit hash nranks commId⟩

/-- The domain that `ncclCommInitAll` registers for a rank. -/
def initAllDomain (ndev nonce rank : ℕ) : Domain :=
  let logicalKey := buildLogicalKeyFromInitAll hash ndev (some nonce)
  ⟨{ buildKeyFromNcclInitAll hash ndev rank with topologyHash := logicalKey.commHash }, logicalKey⟩

end Keys

/-! ## The world -/

/-- One split of a communicator: the how many-th it is, and the colour. -/
structure Hop where
  call : ℕ
  color : Int32
  deriving DecidableEq

/-- A communicator in the tree of all creations: the communicator that was not split from another
one, and the splits from there, the last one first. -/
structure Name where
  root : ℕ
  hops : List Hop
  deriving DecidableEq

def Name.child (c : Name) (call : ℕ) (color : Int32) : Name := ⟨c.root, ⟨call, color⟩ :: c.hops⟩

/-- What the key of a communicator that was not split is made of. -/
inductive Base
  | uniqueId (nranks : ℕ) (commId : List ℕ)
  | initAll (ndev nonce : ℕ)
  deriving DecidableEq, Repr

def Base.commId : Base → Option (List ℕ)
  | uniqueId _ commId => some commId
  | initAll _ _ => none

def Base.key (hash : List ℕ → ℕ) : Base → LogicalCommKey
  | uniqueId nranks commId => buildLogicalKeyFromNcclInit hash nranks commId
  | initAll ndev nonce => buildLogicalKeyFromInitAll hash ndev (some nonce)

/-- A communicator that was not split from another one, with the process of each rank.  Its ranks
keep their numbers in all communicators that are split from it. -/
structure Root where
  base : Base
  place : List ℕ
  deriving DecidableEq, Repr

/-- The raw communicator of a rank. -/
inductive Handle
  | absent
  /-- The communicator exists, the call has not returned on this rank. -/
  | awaited
  | live (raw : ℕ)
  | destroyed
  deriving DecidableEq, Repr

def Handle.active : Handle → Bool
  | awaited | live _ => true
  | absent | destroyed => false

def Handle.isLive : Handle → Bool
  | live _ => true
  | _ => false

/-- What one rank passes to `ncclCommSplit`, and the result it gets. -/
structure Ask where
  color : Int32
  key : Int32
  ret : ℕ

/-- A split that has not returned yet on a rank. -/
structure Answer where
  color : Int32
  ret : ℕ
  call : ℕ
  deriving DecidableEq

structure World where
  proc : ℕ → Process
  roots : List Root
  /-- The communicators created so far. -/
  formed : List Name
  /-- The ranks of a communicator, in its own order. -/
  members : Name → List ℕ
  /-- How often a communicator has been split. -/
  splits : Name → ℕ
  handle : Name → ℕ → Handle
  answer : Name → ℕ → Option Answer

structure Config where
  /-- `HashBytesForComm`. -/
  hash : List ℕ → ℕ
  /-- The node of a process. -/
  node : ℕ → ℕ

namespace World

/-- The process of a rank. -/
def place (s : World) (c : Name) (i : ℕ) : ℕ :=
  ((s.roots[c.root]?).bind fun r => r.place[i]?).getD 0

def setProc (s : World) (p : ℕ) (state : Process) : World :=
  { s with proc := Function.update s.proc p state }

def setHandle (s : World) (c : Name) (i : ℕ) (h : Handle) : World :=
  { s with handle := fun d j => if d = c ∧ j = i then h else s.handle d j }

/-- The library hands out an address that no other communicator of the process has. -/
def rawFree (s : World) (p raw : ℕ) : Prop :=
  ∀ d ∈ s.formed, ∀ j ∈ s.members d, s.place d j = p → s.handle d j ≠ .live raw

instance (s : World) (p raw : ℕ) : Decidable (s.rawFree p raw) :=
  inferInstanceAs (Decidable (∀ d ∈ s.formed, ∀ j ∈ s.members d, _ → _))

/-- A call that creates a communicator returns on a rank, and its domain is registered. -/
def settle (s : World) (c : Name) (i raw : ℕ) (domain : Option Domain) : Option World :=
  let p := s.place c i
  if s.handle c i = .awaited ∧ s.rawFree p raw then
    let s := s.setHandle c i (.live raw)
    match domain with
    | none => some s
    | some domain => some (s.setProc p ((s.proc p).registerRawComm raw domain))
  else none

/-- The library forms a communicator over the given processes. -/
def addRoot (s : World) (base : Base) (place : List ℕ) : World :=
  let c : Name := ⟨s.roots.length, []⟩
  { s with
    roots := s.roots ++ [⟨base, place⟩]
    formed := s.formed ++ [c]
    members := Function.update s.members c (List.range place.length)
    handle := fun d j => if d = c ∧ j < place.length then .awaited else s.handle d j }

/-- The ranks of a communicator that a split forms: those with its colour, by their key. -/
def group (s : World) (c : Name) (ask : ℕ → Ask) (d : Name) : List ℕ :=
  match d.hops with
  | [] => []
  | h :: hops =>
    if d.root = c.root ∧ hops = c.hops ∧ h.call = s.splits c ∧ 0 ≤ h.color then
      ((s.members c).filter fun i =>
        decide ((ask i).ret = 0 ∧ (ask i).color = h.color)).insertionSort
          fun i j => (ask i).key ≤ (ask j).key
    else []

/-- The communicators that a split forms, one a colour. -/
def children (s : World) (c : Name) (ask : ℕ → Ask) : List Name :=
  (((s.members c).filter fun i => decide ((ask i).ret = 0 ∧ 0 ≤ (ask i).color)).map
    fun i => c.child (s.splits c) (ask i).color).dedup

/-- All ranks of a communicator are in the same split. -/
def split (s : World) (c : Name) (ask : ℕ → Ask) : World :=
  { s with
    formed := s.formed ++ s.children c ask
    members := fun d => if d ∈ s.children c ask then s.group c ask d else s.members d
    splits :=
      if ∃ i ∈ s.members c, (ask i).ret = 0 then Function.update s.splits c (s.splits c + 1)
      else s.splits
    handle := fun d j => if j ∈ s.group c ask d then .awaited else s.handle d j
    answer := fun d j =>
      if d = c ∧ j ∈ s.members c then some ⟨(ask j).color, (ask j).ret, s.splits c⟩
      else s.answer d j }

/-- A split returns on a rank; the hook counts it. -/
def count (s : World) (c : Name) (i : ℕ) (state : Process) : World :=
  { s.setProc (s.place c i) state with
    answer := fun d j => if d = c ∧ j = i then none else s.answer d j }

/-- The domain of a rank. -/
def domainOf (s : World) (c : Name) (i : ℕ) : Option Domain :=
  match s.handle c i with
  | .live raw => (s.proc (s.place c i)).rawToDomain raw
  | _ => none

end World

inductive Label
  /-- `ncclCommInitRank` (or `ncclCommInitRankConfig`): all ranks have called. -/
  | initRank (commId : List ℕ) (place : List ℕ)
  | initRankReturn (root rank raw : ℕ)
  /-- `ncclCommInitAll`. -/
  | initAll (p : ℕ) (comms : List ℕ)
  /-- `ncclCommSplit`: all ranks have called. -/
  | split (c : Name) (ask : ℕ → Ask)
  | splitReturn (c : Name) (rank raw : ℕ) (queried : Bool)
  /-- `ncclCommDestroy`. -/
  | destroy (c : Name) (rank : ℕ)

open World

/-- The communicator is formed; a unique id has 128 bytes and makes one communicator. -/
def initRank (s : World) (commId place : List ℕ) : Option World :=
  if commId.length = 16 ∧ ∀ r ∈ s.roots, r.base.commId ≠ some commId then
    some (s.addRoot (.uniqueId place.length commId) place)
  else none

/-- `RegisterNcclCommAfterInit` on a rank. -/
def initRankReturn (hash : List ℕ → ℕ) (s : World) (root rank raw : ℕ) : Option World :=
  match (s.roots[root]?).map Root.base with
  | some (.uniqueId nranks commId) =>
    s.settle ⟨root, []⟩ rank raw (some (ncclInitDomain hash nranks commId rank))
  | _ => none

/-- All communicators of a process are formed, then registered one by one. -/
def initAll (hash : List ℕ → ℕ) (s : World) (p : ℕ) (comms : List ℕ) : Option World :=
  if comms = [] then none
  else
    let nonce := (s.proc p).ncclInitAllSeq
    let ndev := comms.length
    let c : Name := ⟨s.roots.length, []⟩
    let s := s.setProc p { s.proc p with ncclInitAllSeq := (nonce + 1) % 2 ^ 64 }
    comms.zipIdx.foldlM (fun s x => s.settle c x.2 x.1 (some (initAllDomain hash ndev nonce x.2)))
      (s.addRoot (.initAll ndev nonce) (List.replicate ndev p))

/-- A split returns when all ranks have called it, and a rank calls the next one after that. -/
def splitCall (s : World) (c : Name) (ask : ℕ → Ask) : Option World :=
  if c ∈ s.formed ∧ ∀ i ∈ s.members c, (s.handle c i).isLive = true ∧ s.answer c i = none then
    some (s.split c ask)
  else none

def splitReturn (hash : List ℕ → ℕ) (s : World) (c : Name) (rank raw : ℕ) (queried : Bool) :
    Option World :=
  match s.handle c rank, s.answer c rank with
  | .live parent, some a =>
    let p := s.proc (s.place c rank)
    if a.ret = 0 ∧ 0 ≤ a.color then
      let d := c.child a.call a.color
      let count :=
        if queried then some ((s.members d).length, (s.members d).idxOf rank) else none
      let (p, domain) := p.ncclCommSplit hash parent a.ret a.color true count
      (s.count c rank p).settle d rank raw domain
    else some (s.count c rank (p.ncclCommSplit hash parent a.ret a.color false none).1)
  | _, _ => none

/-- A rank destroys its communicator when its splits have returned. -/
def destroy (s : World) (c : Name) (rank : ℕ) : Option World :=
  match s.handle c rank with
  | .live raw =>
    if s.answer c rank = none then
      let p := s.place c rank
      some ((s.setHandle c rank .destroyed).setProc p ((s.proc p).ncclCommDestroy raw))
    else none
  | _ => none

def step (cfg : Config) (s : World) : Label → Option World
  | .initRank commId place => initRank s commId place
  | .initRankReturn root rank raw => initRankReturn cfg.hash s root rank raw
  | .initAll p comms => initAll cfg.hash s p comms
  | .split c ask => splitCall s c ask
  | .splitReturn c rank raw queried => splitReturn cfg.hash s c rank raw queried
  | .destroy c rank => destroy s c rank

def machine (cfg : Config) : Machine World Label := ⟨step cfg⟩

def initial : World where
  proc := fun _ => ⟨0, fun _ => 0, fun _ => none⟩
  roots := []
  formed := []
  members := fun _ => []
  splits := fun _ => 0
  handle := fun _ _ => .absent
  answer := fun _ _ => none

/-! ## What is promised -/

/-- All ranks of a communicator have the same logical key. -/
def Agree (s : World) : Prop :=
  ∀ c i j D E, s.domainOf c i = some D → s.domainOf c j = some E → D.logicalKey = E.logicalKey

/-- Two communicators with ranks on one node have different keys. -/
def Separate (cfg : Config) (s : World) : Prop :=
  ∀ c d i j D E, s.domainOf c i = some D → s.domainOf d j = some E →
    cfg.node (s.place c i) = cfg.node (s.place d j) → D.logicalKey = E.logicalKey → c = d

/-- No rank has, or is about to have, a communicator of the tree. -/
def World.gone (s : World) (root : ℕ) : Prop :=
  ∀ c ∈ s.formed, c.root = root → ∀ i ∈ s.members c, (s.handle c i).active = false

instance (s : World) (root : ℕ) : Decidable (s.gone root) :=
  inferInstanceAs (Decidable (∀ c ∈ s.formed, _ → ∀ i ∈ s.members c, _ = _))

/-- A count of `ncclCommInitAll` is not that of a communicator the node still has, a split succeeds
on all ranks or on none, and no communicator is split `2 ^ 64` times. -/
def kept (cfg : Config) (s : World) : Label → Bool
  | .initAll p comms =>
    decide (∀ r < s.roots.length,
      (s.roots[r]?).map Root.base = some (.initAll comms.length (s.proc p).ncclInitAllSeq) →
        cfg.node (s.place ⟨r, []⟩ 0) ≠ cfg.node p ∨ s.gone r)
  | .split c ask =>
    decide (s.splits c < 2 ^ 64 ∧
      ((∀ i ∈ s.members c, (ask i).ret = 0) ∨ ∀ i ∈ s.members c, (ask i).ret ≠ 0))
  | _ => true

/-! ## A key determines the place in its tree -/

theorem castColor_inj {a b : Int32} (h : castColor a = castColor b) : a = b := by
  have h64 : a.toInt64 = b.toInt64 := by
    rw [← Int64.toInt64_toUInt64 a.toInt64, UInt64.toNat_inj.1 h, Int64.toInt64_toUInt64]
  apply Int32.toInt_inj.1
  rw [← Int32.toInt_toInt64, h64, Int32.toInt_toInt64]

def World.base (s : World) (root : ℕ) : Base :=
  ((s.roots[root]?).map Root.base).getD (.initAll 0 0)

/-- The key that a communicator has by its place in the tree. -/
def World.keyOf (hash : List ℕ → ℕ) (s : World) (root : ℕ) : List Hop → LogicalCommKey
  | [] => (s.base root).key hash
  | h :: hops =>
    buildLogicalKeyFromCommSplit hash (keyOf hash s root hops) h.color (h.call % 2 ^ 64)
      (s.members ⟨root, h :: hops⟩).length

theorem Base.key_inj {hash : List ℕ → ℕ} (hinj : Function.Injective hash) {a b : Base}
    (ha : ∀ n id, a = .uniqueId n id → id.length = 16)
    (hb : ∀ n id, b = .uniqueId n id → id.length = 16)
    (h : (a.key hash).commHash = (b.key hash).commHash)
    (hw : (a.key hash).worldSize = (b.key hash).worldSize) : a = b := by
  have hne : ∀ n id, a = .uniqueId n id ∨ b = .uniqueId n id → id ≠ [] := by
    rintro n id (rfl | rfl) rfl
    · simpa using ha n [] rfl
    · simpa using hb n [] rfl
  cases a with
  | uniqueId n id =>
    have h1 := hne n id (.inl rfl)
    have h2 := ha n id rfl
    cases b with
    | uniqueId m id' =>
      have h3 := hne m id' (.inr rfl)
      simp only [Base.key, buildLogicalKeyFromNcclInit, buildLogicalKeyFromBootstrap, h1, h3,
        if_false] at h hw
      rw [hinj h, hw]
    | initAll m k =>
      simp only [Base.key, buildLogicalKeyFromNcclInit, buildLogicalKeyFromInitAll,
        buildLogicalKeyFromBootstrap, h1, if_false, reduceCtorEq] at h
      rw [hinj h] at h2
      simp at h2
  | initAll n k =>
    cases b with
    | uniqueId m id =>
      have h1 := hne m id (.inr rfl)
      have h2 := hb m id rfl
      simp only [Base.key, buildLogicalKeyFromNcclInit, buildLogicalKeyFromInitAll,
        buildLogicalKeyFromBootstrap, h1, if_false, reduceCtorEq] at h
      rw [← hinj h] at h2
      simp at h2
    | initAll m k' =>
      have := hinj h
      simp only [List.cons.injEq, and_true] at this
      rw [this.1, this.2]

/-- No communicator hashes five words, or none, unless it was split from another one. -/
theorem Base.words {hash : List ℕ → ℕ} (a : Base)
    (ha : ∀ n id, a = .uniqueId n id → id.length = 16) :
    ∃ words, words.length ≠ 5 ∧ (a.key hash).commHash = hash words := by
  cases a with
  | uniqueId n id =>
    have hlen := ha n id rfl
    have hne : id ≠ [] := by rintro rfl; simp at hlen
    refine ⟨id, by omega, ?_⟩
    simp [Base.key, buildLogicalKeyFromNcclInit, buildLogicalKeyFromBootstrap, hne]
  | initAll n k =>
    refine ⟨[n, k], by simp, ?_⟩
    simp [Base.key, buildLogicalKeyFromInitAll, buildLogicalKeyFromBootstrap]

/-! ## The invariant -/

/-- The splits that a rank has counted. -/
def World.counts (s : World) (c : Name) (i : ℕ) : ℕ :=
  match s.answer c i with
  | some a => if a.ret = 0 then a.call else s.splits c
  | none => s.splits c

/-- What holds of the tree in every run: the names are those of a tree, the handles are apart, and
every rank has counted the splits of its communicator. -/
structure Inv (cfg : Config) (s : World) : Prop where
  rooted : ∀ c ∈ s.formed, c.root < s.roots.length
  parent : ∀ r h hops, (⟨r, h :: hops⟩ : Name) ∈ s.formed →
    (⟨r, hops⟩ : Name) ∈ s.formed ∧ h.call < s.splits ⟨r, hops⟩
  bounded : ∀ c, s.splits c ≤ 2 ^ 64
  unformed : ∀ c, c ∉ s.formed → s.splits c = 0
  held : ∀ c i, s.handle c i ≠ .absent → c ∈ s.formed ∧ i ∈ s.members c
  fresh : ∀ c i, s.handle c i = .awaited → s.splits c = 0
  apart : ∀ c i d j raw, s.handle c i = .live raw → s.handle d j = .live raw →
    s.place c i = s.place d j → c = d ∧ i = j
  answered : ∀ c i a, s.answer c i = some a → (∃ raw, s.handle c i = .live raw) ∧
    (a.ret = 0 → a.call + 1 = s.splits c ∧
      (0 ≤ a.color → s.handle (c.child a.call a.color) i = .awaited))
  registered : ∀ p raw D, (s.proc p).rawToDomain raw = some D → ∃ c i,
    s.handle c i = .live raw ∧ s.place c i = p ∧ D.logicalKey = s.keyOf cfg.hash c.root c.hops
  counted : ∀ c i raw, s.handle c i = .live raw →
    (s.proc (s.place c i)).rawToDomain raw ≠ none →
    (s.proc (s.place c i)).ncclCommSplitOrdinals raw = s.counts c i % 2 ^ 64
  uncounted : ∀ p raw, (s.proc p).rawToDomain raw = none →
    (s.proc p).ncclCommSplitOrdinals raw = 0
  ids : ∀ r n id, s.base r = .uniqueId n id → id.length = 16
  places : ∀ c i ndev nonce, s.handle c i ≠ .absent → s.base c.root = .initAll ndev nonce →
    s.place c i = s.place ⟨c.root, []⟩ 0
  bases : ∀ r r', r < s.roots.length → r' < s.roots.length → r ≠ r' → s.base r = s.base r' →
    (∃ ndev nonce, s.base r = .initAll ndev nonce) ∧
      (cfg.node (s.place ⟨r, []⟩ 0) ≠ cfg.node (s.place ⟨r', []⟩ 0) ∨ s.gone r ∨ s.gone r')

variable {cfg : Config} {s s' : World}

theorem Inv.call_lt (hI : Inv cfg s) {r : ℕ} {h : Hop} {hops : List Hop}
    (hc : (⟨r, h :: hops⟩ : Name) ∈ s.formed) : h.call % 2 ^ 64 = h.call :=
  Nat.mod_eq_of_lt ((hI.parent r h hops hc).2.trans_le (hI.bounded _))

theorem keyOf_ne_base (hinj : Function.Injective cfg.hash) (hI : Inv cfg s) (r r' : ℕ) (h : Hop)
    (hops : List Hop) : s.keyOf cfg.hash r (h :: hops) ≠ (s.base r').key cfg.hash := by
  intro heq
  obtain ⟨words, hlen, hwords⟩ := @Base.words cfg.hash (s.base r') (hI.ids r')
  have hhash := congrArg LogicalCommKey.commHash heq
  rw [hwords] at hhash
  rw [← hinj hhash] at hlen
  simp at hlen

/-- **A key determines the place in its tree**, and what the root of the tree is made of. -/
theorem keyOf_inj (hinj : Function.Injective cfg.hash) (hI : Inv cfg s) (r r' : ℕ)
    (hops hops' : List Hop) (hc : (⟨r, hops⟩ : Name) ∈ s.formed)
    (hd : (⟨r', hops'⟩ : Name) ∈ s.formed)
    (heq : s.keyOf cfg.hash r hops = s.keyOf cfg.hash r' hops') :
    hops = hops' ∧ s.base r = s.base r' := by
  induction hops generalizing hops' with
  | nil =>
    cases hops' with
    | nil =>
      exact ⟨rfl, Base.key_inj hinj (hI.ids r) (hI.ids r') (congrArg LogicalCommKey.commHash heq)
        (congrArg LogicalCommKey.worldSize heq)⟩
    | cons h' hops' => exact absurd heq.symm (keyOf_ne_base hinj hI r' r h' hops')
  | cons h hops ih =>
    cases hops' with
    | nil => exact absurd heq (keyOf_ne_base hinj hI r r' h hops)
    | cons h' hops' =>
      have hwords := hinj (congrArg LogicalCommKey.commHash heq)
      simp only [List.cons.injEq, and_true, hI.call_lt hc, hI.call_lt hd] at hwords
      obtain ⟨hhash, hworld, -, hcolor, hcall⟩ := hwords
      have hkey : s.keyOf cfg.hash r hops = s.keyOf cfg.hash r' hops' := by
        cases hx : s.keyOf cfg.hash r hops
        cases hy : s.keyOf cfg.hash r' hops'
        simp_all only
      obtain ⟨rfl, hbase⟩ := ih hops' (hI.parent r h hops hc).1 (hI.parent r' h' hops' hd).1 hkey
      obtain ⟨call, color⟩ := h
      obtain ⟨call', color'⟩ := h'
      obtain rfl : color = color' := castColor_inj hcolor
      obtain rfl : call = call' := hcall
      exact ⟨rfl, hbase⟩

/-- What the invariant says of the domains: this is all that is promised. -/
theorem Inv.promised (hinj : Function.Injective cfg.hash) (hI : Inv cfg s) :
    Agree s ∧ Separate cfg s := by
  have hkey (c i D) (h : s.domainOf c i = some D) : s.handle c i ≠ .absent ∧
      (s.handle c i).active = true ∧ D.logicalKey = s.keyOf cfg.hash c.root c.hops := by
    unfold domainOf at h
    split at h
    case h_1 raw hraw =>
      obtain ⟨d, j, hd, hplace, hD⟩ := hI.registered _ _ _ h
      obtain ⟨rfl, rfl⟩ := hI.apart c i d j raw hraw hd hplace.symm
      exact ⟨by simp [hraw], by simp [hraw, Handle.active], hD⟩
    case h_2 => cases h
  constructor
  · intro c i j D E hD hE
    rw [(hkey c i D hD).2.2, (hkey c j E hE).2.2]
  · intro c d i j D E hD hE hnode heq
    obtain ⟨hci, hcact, hDkey⟩ := hkey c i D hD
    obtain ⟨hdj, hdact, hEkey⟩ := hkey d j E hE
    have hcf := hI.held c i hci
    have hdf := hI.held d j hdj
    obtain ⟨hhops, hbase⟩ := keyOf_inj hinj hI c.root d.root c.hops d.hops hcf.1 hdf.1
      (by rw [← hDkey, ← hEkey, heq])
    by_cases hroot : c.root = d.root
    · cases c; cases d; simp_all only
    · exfalso
      obtain ⟨⟨ndev, nonce, hall⟩, hgone⟩ := hI.bases c.root d.root (hI.rooted c hcf.1)
        (hI.rooted d hdf.1) hroot hbase
      rw [← hI.places c i ndev nonce hci hall,
        ← hI.places d j ndev nonce hdj (hbase ▸ hall)] at hgone
      rcases hgone with h | h | h
      · exact h hnode
      · simp [h c hcf.1 rfl i hcf.2] at hcact
      · simp [h d hdf.1 rfl j hdf.2] at hdact

/-! ## One rank at a time -/

/-- A rank of a communicator changes its handle and has no split outstanding; its process changes
with it. -/
def World.update (s : World) (c : Name) (i : ℕ) (h : Handle) (q : Process) : World :=
  { (s.setHandle c i h).setProc (s.place c i) q with
    answer := fun d j => if d = c ∧ j = i then none else s.answer d j }

theorem keyOf_congr {hash : List ℕ → ℕ} (s s' : World) (r : ℕ) (hbase : s'.base r = s.base r)
    (hops : List Hop)
    (hmem : ∀ pre hop, hop :: pre <:+ hops →
      s'.members ⟨r, hop :: pre⟩ = s.members ⟨r, hop :: pre⟩) :
    s'.keyOf hash r hops = s.keyOf hash r hops := by
  induction hops with
  | nil => simp only [keyOf, hbase]
  | cons hop hops ih =>
    have hrest := ih fun pre hop' h => hmem pre hop' (h.trans (List.suffix_cons hop hops))
    simp only [keyOf, hrest, hmem hops hop List.suffix_rfl]

@[simp] theorem update_keyOf {hash : List ℕ → ℕ} (c : Name) (i : ℕ) (h : Handle) (q : Process)
    (r : ℕ) (hops : List Hop) : (s.update c i h q).keyOf hash r hops = s.keyOf hash r hops :=
  keyOf_congr s (s.update c i h q) r rfl hops fun _ _ _ => rfl

theorem update_handle (c : Name) (i : ℕ) (h : Handle) (q : Process) (d : Name) (j : ℕ) :
    (s.update c i h q).handle d j = if d = c ∧ j = i then h else s.handle d j := rfl

theorem update_answer (c : Name) (i : ℕ) (h : Handle) (q : Process) (d : Name) (j : ℕ) :
    (s.update c i h q).answer d j = if d = c ∧ j = i then none else s.answer d j := rfl

@[simp] theorem update_place (c : Name) (i : ℕ) (h : Handle) (q : Process) (d : Name) (j : ℕ) :
    (s.update c i h q).place d j = s.place d j := rfl

theorem update_proc (c : Name) (i : ℕ) (h : Handle) (q : Process) (p : ℕ) :
    (s.update c i h q).proc p = if p = s.place c i then q else s.proc p := by
  by_cases hp : p = s.place c i <;> simp [update, setProc, setHandle, Function.update, hp]

/-- What a rank may change: the entries of its own raw communicator, in step with its handle. -/
structure Change (cfg : Config) (s : World) (c : Name) (i raw : ℕ) (h : Handle) (q : Process) :
    Prop where
  before : s.handle c i = .live raw ∨ s.handle c i = .awaited ∧ s.rawFree (s.place c i) raw
  after : h = .live raw ∨ h = .destroyed
  child : ∀ d a, s.answer d i = some a → a.ret = 0 → 0 ≤ a.color → d.child a.call a.color ≠ c
  others : ∀ r, r ≠ raw → q.rawToDomain r = (s.proc (s.place c i)).rawToDomain r ∧
    q.ncclCommSplitOrdinals r = (s.proc (s.place c i)).ncclCommSplitOrdinals r
  domain : ∀ D, q.rawToDomain raw = some D →
    h = .live raw ∧ D.logicalKey = s.keyOf cfg.hash c.root c.hops
  counted : q.rawToDomain raw ≠ none → q.ncclCommSplitOrdinals raw = s.splits c % 2 ^ 64
  uncounted : q.rawToDomain raw = none → q.ncclCommSplitOrdinals raw = 0

theorem Inv.handle_raw (hI : Inv cfg s) {c : Name} {i raw : ℕ}
    (h : s.handle c i = .live raw ∨ s.handle c i = .awaited ∧ s.rawFree (s.place c i) raw)
    {d : Name} {j : ℕ} (hd : s.handle d j = .live raw) (hp : s.place d j = s.place c i) :
    d = c ∧ j = i := by
  rcases h with h | ⟨-, hfree⟩
  · exact hI.apart d j c i raw hd h hp
  · have hf := hI.held d j (by simp [hd])
    exact absurd hd (hfree d hf.1 j hf.2 hp)

theorem Inv.update (hI : Inv cfg s) {c : Name} {i raw : ℕ} {h : Handle} {q : Process}
    (hch : Change cfg s c i raw h q) : Inv cfg (s.update c i h q) where
  rooted := hI.rooted
  parent := hI.parent
  bounded := hI.bounded
  unformed := hI.unformed
  held d j hd := by
    rw [update_handle] at hd
    split at hd
    case isTrue hsame =>
      obtain ⟨rfl, rfl⟩ := hsame
      exact hI.held d j (by rcases hch.before with hb | ⟨hb, -⟩ <;> simp [hb])
    case isFalse => exact hI.held d j hd
  fresh d j hd := by
    rw [update_handle] at hd
    split at hd
    case isTrue => rcases hch.after with ha | ha <;> simp [ha] at hd
    case isFalse => exact hI.fresh d j hd
  apart d j d' j' r hd hd' hp := by
    rw [update_handle] at hd hd'
    have hraw : h = .live r → r = raw := by
      rintro rfl
      rcases hch.after with ha | ha <;> simp_all
    split at hd <;> split at hd'
    case isTrue.isTrue h1 h2 => exact ⟨h1.1.trans h2.1.symm, h1.2.trans h2.2.symm⟩
    case isTrue.isFalse h1 h2 =>
      obtain ⟨rfl, rfl⟩ := h1
      obtain rfl := hraw hd
      exact absurd (hI.handle_raw hch.before hd' hp.symm) h2
    case isFalse.isTrue h1 h2 =>
      obtain ⟨rfl, rfl⟩ := h2
      obtain rfl := hraw hd'
      exact absurd (hI.handle_raw hch.before hd hp) h1
    case isFalse.isFalse => exact hI.apart d j d' j' r hd hd' hp
  answered d j a ha := by
    rw [update_answer] at ha
    split at ha
    case isTrue => cases ha
    case isFalse hne =>
      obtain ⟨⟨r, hr⟩, hrest⟩ := hI.answered d j a ha
      refine ⟨⟨r, by rw [update_handle, if_neg hne, hr]⟩, fun hret => ?_⟩
      refine ⟨(hrest hret).1, fun hcol => ?_⟩
      rw [update_handle, if_neg, (hrest hret).2 hcol]
      rintro ⟨hchild, rfl⟩
      exact hch.child d a ha hret hcol hchild
  registered p r D hD := by
    rw [update_proc] at hD
    have hold : (s.proc p).rawToDomain r = some D → ¬ (p = s.place c i ∧ r = raw) →
        ∃ d j, (s.update c i h q).handle d j = .live r ∧ s.place d j = p ∧
          D.logicalKey = s.keyOf cfg.hash d.root d.hops := by
      intro hD hne
      obtain ⟨d, j, hd, hp, hkey⟩ := hI.registered p r D hD
      refine ⟨d, j, ?_, hp, hkey⟩
      rw [update_handle, if_neg, hd]
      rintro ⟨rfl, rfl⟩
      refine hne ⟨hp.symm, ?_⟩
      rcases hch.before with hb | ⟨hb, -⟩ <;> simp_all
    by_cases hp : p = s.place c i
    · rw [if_pos hp] at hD
      by_cases hr : r = raw
      · subst hr
        obtain ⟨hlive, hkey⟩ := hch.domain D hD
        exact ⟨c, i, by simp [update_handle, hlive], hp.symm, by simpa using hkey⟩
      · obtain ⟨d, j, hd, hpd, hkey⟩ := hold (by rw [hp, ← (hch.others r hr).1, hD]) (by tauto)
        exact ⟨d, j, hd, hpd, by simpa using hkey⟩
    · rw [if_neg hp] at hD
      obtain ⟨d, j, hd, hpd, hkey⟩ := hold hD (by tauto)
      exact ⟨d, j, hd, hpd, by simpa using hkey⟩
  counted d j r hd hreg := by
    rw [update_handle] at hd
    rw [update_place, update_proc] at hreg ⊢
    split at hd
    case isTrue hsame =>
      obtain ⟨rfl, rfl⟩ := hsame
      obtain rfl : r = raw := by rcases hch.after with ha | ha <;> simp_all
      rw [if_pos rfl] at hreg ⊢
      have hcounts : (s.update d j h q).counts d j = s.splits d := by
        simp [World.counts, update_answer]
        rfl
      rw [hcounts]
      exact hch.counted hreg
    case isFalse hne =>
      have hcounts : (s.update c i h q).counts d j = s.counts d j := by
        simp only [World.counts, update_answer, if_neg hne]
        rfl
      rw [hcounts]
      split at hreg
      case isTrue hp =>
        have hr : r ≠ raw := by
          rintro rfl
          exact hne (hI.handle_raw hch.before hd hp)
        rw [if_pos hp, (hch.others r hr).2, ← hp]
        exact hI.counted d j r hd (by rw [hp, ← (hch.others r hr).1]; exact hreg)
      case isFalse hp =>
        rw [if_neg hp]
        exact hI.counted d j r hd hreg
  uncounted p r hr := by
    rw [update_proc] at hr ⊢
    split at hr
    case isTrue hp =>
      rw [if_pos hp]
      by_cases hraw : r = raw
      · subst hraw
        exact hch.uncounted hr
      · rw [(hch.others r hraw).2]
        exact hI.uncounted _ r (by rw [← (hch.others r hraw).1, hr])
    case isFalse hp =>
      rw [if_neg hp]
      exact hI.uncounted p r hr
  ids := hI.ids
  places d j ndev nonce hd hb := by
    refine hI.places d j ndev nonce (fun habs => ?_) hb
    rw [update_handle] at hd
    split at hd
    case isTrue hsame =>
      obtain ⟨rfl, rfl⟩ := hsame
      rcases hch.before with hb | ⟨hb, -⟩ <;> simp [hb] at habs
    case isFalse => exact hd habs
  bases r r' hr hr' hne hb := by
    obtain ⟨hall, hgone⟩ := hI.bases r r' hr hr' hne hb
    have hmono (r) (hg : s.gone r) : (s.update c i h q).gone r := by
      intro d hd hroot j hj
      rw [update_handle]
      split
      case isTrue hsame =>
        obtain ⟨rfl, rfl⟩ := hsame
        have := hg d hd hroot j hj
        rcases hch.before with hb | ⟨hb, -⟩ <;> simp [hb, Handle.active] at this
      case isFalse => exact hg d hd hroot j hj
    exact ⟨hall, hgone.imp_right (Or.imp (hmono r) (hmono r'))⟩

/-! ## New communicators -/

theorem addRoot_place_old {base : Base} {place : List ℕ} {c : Name} (hc : c.root < s.roots.length)
    (i : ℕ) : (s.addRoot base place).place c i = s.place c i := by
  simp [World.place, addRoot, List.getElem?_append_left hc]

theorem addRoot_place_new {base : Base} {place : List ℕ} {c : Name} (hc : c.root = s.roots.length)
    (i : ℕ) : (s.addRoot base place).place c i = (place[i]?).getD 0 := by
  simp [World.place, addRoot, hc]

theorem addRoot_base_old {base : Base} {place : List ℕ} {r : ℕ} (hr : r < s.roots.length) :
    (s.addRoot base place).base r = s.base r := by
  simp [World.base, addRoot, List.getElem?_append_left hr]

theorem addRoot_base_new {base : Base} {place : List ℕ} :
    (s.addRoot base place).base s.roots.length = base := by
  simp [World.base, addRoot]

theorem addRoot_handle {base : Base} {place : List ℕ} (d : Name) (j : ℕ) :
    (s.addRoot base place).handle d j =
      if d = ⟨s.roots.length, []⟩ ∧ j < place.length then .awaited else s.handle d j := rfl

theorem addRoot_members_old {base : Base} {place : List ℕ} {d : Name}
    (hd : d ≠ ⟨s.roots.length, []⟩) : (s.addRoot base place).members d = s.members d := by
  simp [addRoot, Function.update, hd]

theorem Inv.new_notMem (hI : Inv cfg s) (hops : List Hop) :
    (⟨s.roots.length, hops⟩ : Name) ∉ s.formed :=
  fun h => absurd (hI.rooted _ h) (lt_irrefl _)

theorem Inv.ne_new (hI : Inv cfg s) {d : Name} (hd : d ∈ s.formed) (hops : List Hop) :
    d ≠ ⟨s.roots.length, hops⟩ := by
  rintro rfl
  exact hI.new_notMem hops hd

theorem Inv.addRoot (hI : Inv cfg s) {base : Base} {place : List ℕ}
    (hid : ∀ n id, base = .uniqueId n id → id.length = 16)
    (hplace : ∀ ndev nonce, base = .initAll ndev nonce → ∃ p, place = List.replicate place.length p)
    (hbase : ∀ r < s.roots.length, s.base r = base → (∃ ndev nonce, base = .initAll ndev nonce) ∧
      (cfg.node (s.place ⟨r, []⟩ 0) ≠ cfg.node ((place[0]?).getD 0) ∨ s.gone r)) :
    Inv cfg (s.addRoot base place) := by
  have hlen : (s.addRoot base place).roots.length = s.roots.length + 1 := by simp [World.addRoot]
  have hmem (c : Name) : c ∈ (s.addRoot base place).formed ↔
      c ∈ s.formed ∨ c = ⟨s.roots.length, []⟩ := by simp [World.addRoot]
  -- a handle is an old one, or that of a rank that awaits the new communicator
  have hcases (c : Name) (i : ℕ) : (s.addRoot base place).handle c i = s.handle c i ∨
      (s.addRoot base place).handle c i = .awaited ∧ c = ⟨s.roots.length, []⟩ ∧
        i < place.length := by
    rw [addRoot_handle]
    split
    case isTrue h => exact .inr ⟨rfl, h⟩
    case isFalse => exact .inl rfl
  have hlive (c : Name) (i raw : ℕ) : (s.addRoot base place).handle c i = .live raw ↔
      s.handle c i = .live raw := by
    rw [addRoot_handle]
    split
    case isTrue h =>
      obtain ⟨rfl, -⟩ := h
      refine ⟨by simp, fun hl => ?_⟩
      exact absurd (hI.held _ i (by simp [hl])).1 (hI.new_notMem [])
    case isFalse => rfl
  have hold (c : Name) (i : ℕ) (h : s.handle c i ≠ .absent) : c.root < s.roots.length :=
    hI.rooted c (hI.held c i h).1
  constructor
  case rooted =>
    intro c hc
    rw [hlen]
    rcases (hmem c).1 hc with h | rfl
    · exact (hI.rooted c h).trans (Nat.lt_succ_self _)
    · exact Nat.lt_succ_self _
  case parent =>
    intro r h hops hc
    rcases (hmem _).1 hc with hc | hc
    · obtain ⟨h1, h2⟩ := hI.parent r h hops hc
      exact ⟨(hmem _).2 (.inl h1), h2⟩
    · simp at hc
  case bounded => exact hI.bounded
  case unformed =>
    intro c hc
    exact hI.unformed c fun h => hc ((hmem c).2 (.inl h))
  case held =>
    intro c i hne
    rcases hcases c i with h | ⟨-, rfl, hi⟩
    · obtain ⟨h1, h2⟩ := hI.held c i (by rwa [h] at hne)
      refine ⟨(hmem c).2 (.inl h1), ?_⟩
      rwa [addRoot_members_old (hI.ne_new h1 [])]
    · refine ⟨(hmem _).2 (.inr rfl), ?_⟩
      simpa [World.addRoot] using hi
  case fresh =>
    intro c i h
    rcases hcases c i with h' | ⟨-, rfl, -⟩
    · exact hI.fresh c i (h' ▸ h)
    · exact hI.unformed _ (hI.new_notMem [])
  case apart =>
    intro c i d j raw hc hd hp
    rw [hlive] at hc hd
    rw [addRoot_place_old (hold c i (by simp [hc])), addRoot_place_old (hold d j (by simp [hd]))]
      at hp
    exact hI.apart c i d j raw hc hd hp
  case answered =>
    intro c i a ha
    obtain ⟨⟨raw, hraw⟩, hrest⟩ := hI.answered c i a ha
    refine ⟨⟨raw, (hlive c i raw).2 hraw⟩, fun hret => ⟨(hrest hret).1, fun hcol => ?_⟩⟩
    rw [addRoot_handle, if_neg, (hrest hret).2 hcol]
    rintro ⟨h, -⟩
    simp [Name.child] at h
  case registered =>
    intro p raw D hD
    obtain ⟨c, i, hc, hp, hkey⟩ := hI.registered p raw D hD
    have hroot := hold c i (by simp [hc])
    have hcf := (hI.held c i (by simp [hc])).1
    refine ⟨c, i, (hlive c i raw).2 hc, by rwa [addRoot_place_old hroot], ?_⟩
    rw [hkey]
    refine (keyOf_congr s _ c.root (addRoot_base_old hroot) c.hops ?_).symm
    intro pre hop _
    exact addRoot_members_old (by simp)
  case counted =>
    intro c i raw hc hreg
    rw [hlive] at hc
    rw [addRoot_place_old (hold c i (by simp [hc]))] at hreg ⊢
    exact hI.counted c i raw hc hreg
  case uncounted => exact hI.uncounted
  case ids =>
    intro r n id hr
    rcases lt_trichotomy r s.roots.length with h | rfl | h
    · exact hI.ids r n id (by rwa [addRoot_base_old h] at hr)
    · exact hid n id (by rwa [addRoot_base_new] at hr)
    · rw [World.base, List.getElem?_eq_none (by rw [hlen]; omega)] at hr
      cases hr
  case places =>
    intro c i ndev nonce hne hb
    rcases hcases c i with h | ⟨-, rfl, hi⟩
    · have hroot := hold c i (by rwa [h] at hne)
      rw [addRoot_base_old hroot] at hb
      rw [addRoot_place_old hroot, addRoot_place_old (c := ⟨c.root, []⟩) hroot]
      exact hI.places c i ndev nonce (by rwa [h] at hne) hb
    · rw [addRoot_base_new] at hb
      obtain ⟨p, hp⟩ := hplace ndev nonce hb
      rw [addRoot_place_new rfl, addRoot_place_new rfl, hp]
      have h0 : 0 < place.length := by omega
      simp [hi, h0]
  case bases =>
    have hgone (r) (hr : r < s.roots.length) (hg : s.gone r) : (s.addRoot base place).gone r := by
      intro c hc hroot i hi
      have hne : c ≠ ⟨s.roots.length, []⟩ := by
        rintro rfl
        exact absurd hroot hr.ne'
      rw [addRoot_members_old hne] at hi
      rw [addRoot_handle, if_neg (fun h => hne h.1)]
      exact hg c (((hmem c).1 hc).resolve_right hne) hroot i hi
    have hnew (r) (hr : r < s.roots.length) (hb : s.base r = base) :
        cfg.node ((s.addRoot base place).place ⟨r, []⟩ 0) ≠
          cfg.node ((s.addRoot base place).place ⟨s.roots.length, []⟩ 0) ∨
        (s.addRoot base place).gone r := by
      rw [addRoot_place_old (c := ⟨r, []⟩) hr, addRoot_place_new rfl]
      exact (hbase r hr hb).2.imp_right (hgone r hr)
    intro r r' hr hr' hne hb
    rw [hlen] at hr hr'
    rcases Nat.lt_succ_iff_lt_or_eq.1 hr with hr | rfl <;>
      rcases Nat.lt_succ_iff_lt_or_eq.1 hr' with hr' | rfl
    · rw [addRoot_base_old hr, addRoot_base_old hr'] at hb
      obtain ⟨h1, h2⟩ := hI.bases r r' hr hr' hne hb
      rw [addRoot_base_old hr, addRoot_place_old (c := ⟨r, []⟩) hr,
        addRoot_place_old (c := ⟨r', []⟩) hr']
      exact ⟨h1, h2.imp_right (Or.imp (hgone r hr) (hgone r' hr'))⟩
    · rw [addRoot_base_old hr, addRoot_base_new] at hb
      rw [addRoot_base_old hr, hb]
      exact ⟨(hbase r hr hb).1, (hnew r hr hb).imp_right .inl⟩
    · rw [addRoot_base_old hr', addRoot_base_new] at hb
      rw [addRoot_base_new]
      exact ⟨(hbase r' hr' hb.symm).1, (hnew r' hr' hb.symm).imp Ne.symm .inr⟩
    · exact absurd rfl hne

/-! ## A split -/

theorem mem_group {c d : Name} {ask : ℕ → Ask} {j : ℕ} : j ∈ s.group c ask d ↔
    j ∈ s.members c ∧ (ask j).ret = 0 ∧ 0 ≤ (ask j).color ∧
      d = c.child (s.splits c) (ask j).color := by
  obtain ⟨root, hops⟩ := d
  unfold World.group
  cases hops with
  | nil => simp [Name.child]
  | cons h hops =>
    obtain ⟨call, color⟩ := h
    by_cases hc : root = c.root ∧ hops = c.hops ∧ call = s.splits c ∧ 0 ≤ color
    · obtain ⟨rfl, rfl, rfl, hcol⟩ := hc
      simp only [hcol, and_self, if_true, List.mem_insertionSort, List.mem_filter,
        decide_eq_true_eq, Name.child, Name.mk.injEq, true_and, List.cons.injEq, Hop.mk.injEq, and_true]
      constructor
      · rintro ⟨hj, hret, rfl⟩
        exact ⟨hj, hret, hcol, rfl⟩
      · rintro ⟨hj, hret, -, rfl⟩
        exact ⟨hj, hret, rfl⟩
    · simp only [if_neg hc, List.not_mem_nil, false_iff, Name.child, Name.mk.injEq, List.cons.injEq,
        Hop.mk.injEq]
      rintro ⟨-, -, hcol, rfl, ⟨rfl, rfl⟩, rfl⟩
      exact hc ⟨rfl, rfl, rfl, hcol⟩

theorem mem_children {c d : Name} {ask : ℕ → Ask} :
    d ∈ s.children c ask ↔ ∃ j, j ∈ s.group c ask d := by
  simp only [World.children, List.mem_dedup, List.mem_map, List.mem_filter, decide_eq_true_eq,
    mem_group]
  constructor
  · rintro ⟨i, ⟨hi, hret, hcol⟩, rfl⟩
    exact ⟨i, hi, hret, hcol, rfl⟩
  · rintro ⟨i, hi, hret, hcol, rfl⟩
    exact ⟨i, ⟨hi, hret, hcol⟩, rfl⟩

theorem Inv.suffix (hI : Inv cfg s) {r : ℕ} {hops pre : List Hop}
    (hc : (⟨r, hops⟩ : Name) ∈ s.formed) (hpre : pre <:+ hops) : (⟨r, pre⟩ : Name) ∈ s.formed := by
  induction hops with
  | nil => rwa [List.suffix_nil.1 hpre]
  | cons h hops ih =>
    rcases List.suffix_cons_iff.1 hpre with rfl | hpre
    · exact hc
    · exact ih (hI.parent r h hops hc).1 hpre

/-- A communicator that a split forms is not there yet. -/
theorem Inv.group_new (hI : Inv cfg s) {c d : Name} {ask : ℕ → Ask} {j : ℕ}
    (hj : j ∈ s.group c ask d) : d ∉ s.formed := by
  obtain ⟨-, -, -, rfl⟩ := mem_group.1 hj
  intro hd
  exact absurd (hI.parent c.root _ c.hops hd).2 (lt_irrefl _)

theorem split_handle (c : Name) (ask : ℕ → Ask) (d : Name) (j : ℕ) :
    (s.split c ask).handle d j = if j ∈ s.group c ask d then .awaited else s.handle d j := rfl

theorem split_answer (c : Name) (ask : ℕ → Ask) (d : Name) (j : ℕ) :
    (s.split c ask).answer d j =
      if d = c ∧ j ∈ s.members c then some ⟨(ask j).color, (ask j).ret, s.splits c⟩
      else s.answer d j := rfl

theorem split_splits_ne {c d : Name} (ask : ℕ → Ask) (hd : d ≠ c) :
    (s.split c ask).splits d = s.splits d := by
  simp only [World.split]
  split
  · exact Function.update_of_ne hd _ _
  · rfl

theorem split_splits_some {c : Name} {ask : ℕ → Ask} {j : ℕ} (hj : j ∈ s.members c)
    (hret : (ask j).ret = 0) : (s.split c ask).splits c = s.splits c + 1 := by
  have hex : ∃ i ∈ s.members c, (ask i).ret = 0 := ⟨j, hj, hret⟩
  simp [World.split, hex]

theorem split_splits_none {c : Name} {ask : ℕ → Ask}
    (hret : ∀ j ∈ s.members c, (ask j).ret ≠ 0) : (s.split c ask).splits = s.splits := by
  have hex : ¬ ∃ i ∈ s.members c, (ask i).ret = 0 := by
    rintro ⟨i, hi, h⟩
    exact hret i hi h
  simp [World.split, hex]

theorem split_splits_le (c : Name) (ask : ℕ → Ask) (d : Name) :
    s.splits d ≤ (s.split c ask).splits d := by
  by_cases hd : d = c
  · subst hd
    by_cases hex : ∃ i ∈ s.members d, (ask i).ret = 0
    · obtain ⟨i, hi, h⟩ := hex
      rw [split_splits_some hi h]
      omega
    · rw [split_splits_none fun j hj h => hex ⟨j, hj, h⟩]
  · rw [split_splits_ne ask hd]

theorem Inv.split_members (hI : Inv cfg s) {c d : Name} (ask : ℕ → Ask) (hd : d ∈ s.formed) :
    (s.split c ask).members d = s.members d := by
  show (if d ∈ s.children c ask then _ else _) = _
  rw [if_neg]
  rintro hch
  obtain ⟨j, hj⟩ := mem_children.1 hch
  exact hI.group_new hj hd

theorem Inv.split (hI : Inv cfg s) {c : Name} {ask : ℕ → Ask} (hc : c ∈ s.formed)
    (hready : ∀ i ∈ s.members c, (s.handle c i).isLive = true ∧ s.answer c i = none)
    (hbound : s.splits c < 2 ^ 64)
    (hret : (∀ i ∈ s.members c, (ask i).ret = 0) ∨ ∀ i ∈ s.members c, (ask i).ret ≠ 0) :
    Inv cfg (s.split c ask) := by
  have hraw (i) (hi : i ∈ s.members c) : ∃ raw, s.handle c i = .live raw := by
    have := (hready i hi).1
    cases h : s.handle c i <;> simp_all [Handle.isLive]
  have hmem (d : Name) : d ∈ (s.split c ask).formed ↔ d ∈ s.formed ∨ ∃ j, j ∈ s.group c ask d := by
    show d ∈ s.formed ++ s.children c ask ↔ _
    rw [List.mem_append, mem_children]
  have hnew {d : Name} {j : ℕ} (hj : j ∈ s.group c ask d) : s.handle d j = .absent := by
    by_contra hne
    exact hI.group_new hj (hI.held d j hne).1
  have hlive (d : Name) (j raw : ℕ) : (s.split c ask).handle d j = .live raw ↔
      s.handle d j = .live raw := by
    rw [split_handle]
    split
    case isTrue hj => simp [hnew hj]
    case isFalse => rfl
  have hkeep (d : Name) (j : ℕ) (h : s.handle d j = .awaited) :
      (s.split c ask).handle d j = .awaited := by
    rw [split_handle]
    split
    · rfl
    · exact h
  have hplace (d : Name) (j : ℕ) : (s.split c ask).place d j = s.place d j := rfl
  constructor
  case rooted =>
    intro d hd
    rcases (hmem d).1 hd with h | ⟨j, hj⟩
    · exact hI.rooted d h
    · obtain ⟨-, -, -, rfl⟩ := mem_group.1 hj
      exact hI.rooted c hc
  case parent =>
    intro r h hops hd
    rcases (hmem _).1 hd with h' | ⟨j, hj⟩
    · obtain ⟨h1, h2⟩ := hI.parent r h hops h'
      exact ⟨(hmem _).2 (.inl h1), h2.trans_le (split_splits_le c ask _)⟩
    · obtain ⟨hjm, hjret, -, heq⟩ := mem_group.1 hj
      simp only [Name.child, Name.mk.injEq, List.cons.injEq] at heq
      obtain ⟨rfl, rfl, rfl⟩ := heq
      refine ⟨(hmem _).2 (.inl hc), ?_⟩
      show s.splits c < (s.split c ask).splits c
      rw [split_splits_some hjm hjret]
      omega
  case bounded =>
    intro d
    by_cases hd : d = c
    · subst hd
      rcases hret with hret | hret
      · by_cases hex : ∃ i, i ∈ s.members d
        · obtain ⟨i, hi⟩ := hex
          rw [split_splits_some hi (hret i hi)]
          omega
        · rw [split_splits_none fun j hj => absurd ⟨j, hj⟩ hex]
          omega
      · rw [split_splits_none hret]
        omega
    · rw [split_splits_ne ask hd]
      exact hI.bounded d
  case unformed =>
    intro d hd
    have hdold : d ∉ s.formed := fun h => hd ((hmem d).2 (.inl h))
    rw [split_splits_ne ask (by rintro rfl; exact hdold hc)]
    exact hI.unformed d hdold
  case held =>
    intro d j hne
    rw [split_handle] at hne
    split at hne
    case isTrue hj =>
      refine ⟨(hmem d).2 (.inr ⟨j, hj⟩), ?_⟩
      show j ∈ if d ∈ s.children c ask then s.group c ask d else s.members d
      rwa [if_pos (mem_children.2 ⟨j, hj⟩)]
    case isFalse =>
      obtain ⟨h1, h2⟩ := hI.held d j hne
      exact ⟨(hmem d).2 (.inl h1), by rwa [hI.split_members ask h1]⟩
  case fresh =>
    intro d j h
    rw [split_handle] at h
    split at h
    case isTrue hj =>
      have hdold := hI.group_new hj
      rw [split_splits_ne ask (by rintro rfl; exact hdold hc)]
      exact hI.unformed d hdold
    case isFalse =>
      rw [split_splits_ne ask]
      · exact hI.fresh d j h
      · rintro rfl
        obtain ⟨raw, hl⟩ := hraw j (hI.held d j (by simp [h])).2
        simp [h] at hl
  case apart =>
    intro d j d' j' raw hd hd' hp
    rw [hlive] at hd hd'
    exact hI.apart d j d' j' raw hd hd' hp
  case answered =>
    intro d j a ha
    rw [split_answer] at ha
    split at ha
    case isTrue h =>
      obtain ⟨rfl, hj⟩ := h
      obtain ⟨raw, hl⟩ := hraw j hj
      cases ha
      refine ⟨⟨raw, (hlive d j raw).2 hl⟩, fun hjret => ⟨(split_splits_some hj hjret).symm, ?_⟩⟩
      intro hcol
      rw [split_handle, if_pos (mem_group.2 ⟨hj, hjret, hcol, rfl⟩)]
    case isFalse hne =>
      obtain ⟨⟨raw, hl⟩, hrest⟩ := hI.answered d j a ha
      refine ⟨⟨raw, (hlive d j raw).2 hl⟩, fun hjret => ⟨?_, fun hcol => ?_⟩⟩
      · rw [split_splits_ne ask, (hrest hjret).1]
        rintro rfl
        exact hne ⟨rfl, (hI.held d j (by simp [hl])).2⟩
      · exact hkeep _ _ ((hrest hjret).2 hcol)
  case registered =>
    intro p raw D hD
    obtain ⟨d, j, hd, hp, hkey⟩ := hI.registered p raw D hD
    have hdf := (hI.held d j (by simp [hd])).1
    refine ⟨d, j, (hlive d j raw).2 hd, hp, ?_⟩
    rw [hkey]
    refine (keyOf_congr s _ d.root (by rfl) d.hops fun pre hop hpre => ?_).symm
    exact hI.split_members ask (hI.suffix hdf hpre)
  case counted =>
    intro d j raw hd hreg
    rw [hlive] at hd
    have hold := hI.counted d j raw hd hreg
    have hcounts : (s.split c ask).counts d j = s.counts d j := by
      simp only [World.counts, split_answer]
      by_cases hdc : d = c
      · subst hdc
        have hj := (hI.held d j (by simp [hd])).2
        rw [if_pos ⟨rfl, hj⟩, (hready j hj).2]
        rcases hret with hret | hret
        · simp [hret j hj]
        · simp [hret j hj, split_splits_none hret]
      · rw [if_neg fun h => hdc h.1, split_splits_ne ask hdc]
    rw [hcounts]
    exact hold
  case uncounted => exact hI.uncounted
  case ids => exact hI.ids
  case places =>
    intro d j ndev nonce hne hb
    rw [split_handle] at hne
    split at hne
    case isTrue hj =>
      obtain ⟨hjm, -, -, rfl⟩ := mem_group.1 hj
      obtain ⟨raw, hl⟩ := hraw j hjm
      exact hI.places c j ndev nonce (by simp [hl]) hb
    case isFalse => exact hI.places d j ndev nonce hne hb
  case bases =>
    have hgone (r) (hg : s.gone r) : (s.split c ask).gone r := by
      intro d hd hroot j hj
      rcases (hmem d).1 hd with hdf | ⟨j', hj'⟩
      · rw [hI.split_members ask hdf] at hj
        rw [split_handle, if_neg fun h => hI.group_new h hdf]
        exact hg d hdf hroot j hj
      · obtain ⟨hjm, -, -, rfl⟩ := mem_group.1 hj'
        obtain ⟨raw, hl⟩ := hraw j' hjm
        have := hg c hc hroot j' hjm
        simp [hl, Handle.active] at this
    intro r r' hr hr' hne hb
    obtain ⟨h1, h2⟩ := hI.bases r r' hr hr' hne hb
    exact ⟨h1, h2.imp_right (Or.imp (hgone r) (hgone r'))⟩

/-! ## The steps -/

theorem setHandle_self {c : Name} {i : ℕ} {h : Handle} (hh : s.handle c i = h) :
    s.setHandle c i h = s := by
  unfold World.setHandle
  congr
  funext d j
  split
  case isTrue hsame => rw [hsame.1, hsame.2, hh]
  case isFalse => rfl

/-- Where no split is outstanding, an update leaves the answers alone. -/
theorem update_eq {c : Name} {i : ℕ} (hans : s.answer c i = none) (h : Handle) (q : Process) :
    s.update c i h q = (s.setHandle c i h).setProc (s.place c i) q := by
  have hsame : (fun d j => if d = c ∧ j = i then none else s.answer d j) = s.answer := by
    funext d j
    split
    case isTrue hsame => rw [hsame.1, hsame.2, hans]
    case isFalse => rfl
  unfold World.update
  rw [hsame]
  rfl

theorem setProc_self (s : World) (p : ℕ) : s.setProc p (s.proc p) = s := by
  simp [World.setProc]

/-- What a process knows of an address that no communicator has. -/
theorem Inv.unknown (hI : Inv cfg s) {p raw : ℕ} (hfree : s.rawFree p raw) :
    (s.proc p).rawToDomain raw = none := by
  cases h : (s.proc p).rawToDomain raw with
  | none => rfl
  | some D =>
    obtain ⟨d, j, hd, hp, -⟩ := hI.registered p raw D h
    have hf := hI.held d j (by simp [hd])
    exact absurd hd (hfree d hf.1 j hf.2 hp)

/-- A rank settles into a communicator with the key of that communicator. -/
theorem Inv.settle (hI : Inv cfg s) {c : Name} {i raw : ℕ} {domain : Option Domain}
    (hchild : ∀ d a, s.answer d i = some a → d.child a.call a.color ≠ c)
    (hkey : ∀ D, domain = some D → D.logicalKey = s.keyOf cfg.hash c.root c.hops)
    (h : s.settle c i raw domain = some s') :
    Inv cfg s' ∧ s'.roots = s.roots ∧ s'.members = s.members ∧ s'.answer = s.answer := by
  unfold World.settle at h
  obtain ⟨hok, h⟩ := Option.ite_none_right_eq_some.1 h
  have hans : s.answer c i = none := by
    cases ha : s.answer c i with
    | none => rfl
    | some a =>
      obtain ⟨⟨r, hr⟩, -⟩ := hI.answered c i a ha
      simp [hr] at hok
  have hnone := hI.unknown hok.2
  have hzero := hI.uncounted _ _ hnone
  have hch (q : Process)
      (hq : q = s.proc (s.place c i) ∨
        ∃ D, domain = some D ∧ q = (s.proc (s.place c i)).registerRawComm raw D) :
      Change cfg s c i raw (.live raw) q := by
    refine ⟨.inr hok, .inl rfl, fun d a ha _ _ => hchild d a ha, ?_, ?_, ?_, ?_⟩
    · intro r hr
      rcases hq with rfl | ⟨D, -, rfl⟩
      · exact ⟨rfl, rfl⟩
      · exact ⟨Function.update_of_ne hr _ _, rfl⟩
    · intro E hE
      rcases hq with rfl | ⟨D, hD, rfl⟩
      · rw [hnone] at hE
        cases hE
      · simp only [Process.registerRawComm, Function.update_self, Option.some.injEq] at hE
        exact ⟨rfl, hE ▸ hkey D hD⟩
    · intro hreg
      rcases hq with rfl | ⟨D, -, rfl⟩
      · exact absurd hnone hreg
      · show (s.proc (s.place c i)).ncclCommSplitOrdinals raw = _
        rw [hzero, hI.fresh c i hok.1, Nat.zero_mod]
    · intro hreg
      rcases hq with rfl | ⟨D, -, rfl⟩
      · exact hzero
      · simp [Process.registerRawComm] at hreg
  cases domain with
  | none =>
    have := hI.update (hch _ (.inl rfl))
    cases h
    rw [update_eq hans] at this
    refine ⟨?_, rfl, rfl, rfl⟩
    have hself : (s.setHandle c i (.live raw)).setProc (s.place c i)
        ((s.setHandle c i (.live raw)).proc (s.place c i)) = s.setHandle c i (.live raw) :=
      setProc_self _ _
    rwa [← hself]
  | some D =>
    have := hI.update (hch _ (.inr ⟨D, rfl, rfl⟩))
    cases h
    rw [update_eq hans] at this
    exact ⟨this, rfl, rfl, rfl⟩

theorem ncclCommSplit_fst {hash : List ℕ → ℕ} (p : Process) (comm ret : ℕ) (color : Int32)
    (newcomm : Bool) (count : Option (ℕ × ℕ)) :
    (p.ncclCommSplit hash comm ret color newcomm count).1 =
      if ret = 0 ∧ p.rawToDomain comm ≠ none then (p.nextNcclCommSplitOrdinal comm).2 else p := by
  unfold Process.ncclCommSplit
  by_cases hret : ret = 0
  · cases hD : p.rawToDomain comm with
    | none => simp
    | some parent =>
      simp only [hret, ne_eq, not_true_eq_false, if_false, reduceCtorEq, not_false_eq_true,
        and_self, if_true]
      split
      · split <;> rfl
      · rfl
  · simp [hret]

theorem ncclCommSplit_snd {hash : List ℕ → ℕ} {p : Process} {comm ret : ℕ} {color : Int32}
    {newcomm : Bool} {count : Option (ℕ × ℕ)} {D : Domain}
    (h : (p.ncclCommSplit hash comm ret color newcomm count).2 = some D) :
    ∃ parent n r, p.rawToDomain comm = some parent ∧ count = some (n, r) ∧
      D.logicalKey = buildLogicalKeyFromCommSplit hash parent.logicalKey color
        (p.ncclCommSplitOrdinals comm) n := by
  unfold Process.ncclCommSplit at h
  split at h
  · cases h
  · split at h
    · cases h
    case h_2 parent hparent =>
      simp only at h
      split at h
      case h_1 n r =>
        split at h
        · cases h
        · cases h
          exact ⟨parent, n, r, hparent, rfl, rfl⟩
      case h_2 => cases h

@[simp] theorem count_keyOf {hash : List ℕ → ℕ} (c : Name) (i : ℕ) (q : Process) (r : ℕ)
    (hops : List Hop) : (s.count c i q).keyOf hash r hops = s.keyOf hash r hops :=
  keyOf_congr s (s.count c i q) r rfl hops fun _ _ _ => rfl

/-- A split that returns on a rank is counted. -/
theorem Inv.count (hI : Inv cfg s) {c : Name} {i parent : ℕ} {a : Answer}
    (hl : s.handle c i = .live parent) (ha : s.answer c i = some a) (newcomm : Bool)
    (cnt : Option (ℕ × ℕ)) :
    Inv cfg (s.count c i ((s.proc (s.place c i)).ncclCommSplit cfg.hash parent a.ret a.color newcomm
      cnt).1) := by
  obtain ⟨-, hsplits⟩ := hI.answered c i a ha
  have hcount : s.count c i = s.update c i (.live parent) := by
    funext q
    unfold World.count World.update
    rw [setHandle_self hl]
  rw [hcount]
  refine @Inv.update _ _ hI _ _ parent _ _ ?_
  set q := s.proc (s.place c i)
  rw [ncclCommSplit_fst]
  refine ⟨.inl hl, .inl rfl, ?_, ?_, ?_, ?_, ?_⟩
  · intro d b hb hret hcol hchild
    have := ((hI.answered d i b hb).2 hret).2 hcol
    rw [hchild, hl] at this
    cases this
  · intro r hr
    split
    · exact ⟨rfl, Function.update_of_ne hr _ _⟩
    · exact ⟨rfl, rfl⟩
  · intro D hD
    have hD' : q.rawToDomain parent = some D := by
      split at hD <;> exact hD
    obtain ⟨d, j, hd, hp, hkey⟩ := hI.registered _ _ _ hD'
    obtain ⟨rfl, rfl⟩ := hI.apart d j c i parent hd hl hp
    exact ⟨rfl, hkey⟩
  · intro hreg
    have hreg' : q.rawToDomain parent ≠ none := by
      split at hreg <;> exact hreg
    have hold := hI.counted c i parent hl hreg'
    simp only [World.counts, ha] at hold
    by_cases hret : a.ret = 0
    · rw [if_pos ⟨hret, hreg'⟩, ← (hsplits hret).1]
      simp only [Process.nextNcclCommSplitOrdinal, Function.update_self]
      rw [hold, if_pos hret, Nat.mod_add_mod]
    · rw [if_neg fun h => hret h.1]
      rw [if_neg hret] at hold
      exact hold
  · intro hreg
    have hreg' : q.rawToDomain parent = none := by
      split at hreg <;> exact hreg
    rw [if_neg fun h => h.2 hreg']
    exact hI.uncounted _ _ hreg'

theorem Inv.initRank (hI : Inv cfg s) {commId place : List ℕ}
    (h : initRank s commId place = some s') : Inv cfg s' := by
  unfold Identity.initRank at h
  obtain ⟨⟨hlen, hfresh⟩, h⟩ := Option.ite_none_right_eq_some.1 h
  cases h
  apply hI.addRoot
  · rintro n id ⟨⟩
    exact hlen
  · rintro ndev nonce ⟨⟩
  · intro r hr hb
    exfalso
    refine hfresh s.roots[r] (List.getElem_mem hr) ?_
    simp only [World.base, List.getElem?_eq_getElem hr, Option.map_some, Option.getD_some] at hb
    rw [hb, Base.commId]

theorem Inv.initRankReturn (hI : Inv cfg s) {root rank raw : ℕ}
    (h : initRankReturn cfg.hash s root rank raw = some s') : Inv cfg s' := by
  unfold Identity.initRankReturn at h
  split at h
  case h_1 nranks commId hb =>
    refine (hI.settle (fun d a _ => by simp [Name.child]) (fun D hD => ?_) h).1
    cases hD
    simp [World.keyOf, World.base, hb, Base.key, ncclInitDomain]
  case h_2 => cases h

theorem Inv.settles (ndev nonce root : ℕ) (l : List (ℕ × ℕ)) (hI : Inv cfg s)
    (hbase : s.base root = .initAll ndev nonce)
    (h : l.foldlM (fun (s : World) x => s.settle ⟨root, []⟩ x.2 x.1
      (some (initAllDomain cfg.hash ndev nonce x.2))) s = some s') : Inv cfg s' := by
  induction l generalizing s with
  | nil => cases h; exact hI
  | cons x l ih =>
    rw [List.foldlM_cons] at h
    obtain ⟨t, ht, hrest⟩ := Option.bind_eq_some_iff.1 h
    obtain ⟨hIt, hroots, -⟩ := hI.settle (fun d a _ => by simp [Name.child])
      (fun D hD => by cases hD; simp [World.keyOf, hbase, Base.key, initAllDomain]) ht
    exact ih hIt (by rw [World.base, hroots]; exact hbase) hrest

/-- The count of a process is no part of the invariant. -/
theorem Inv.bump (hI : Inv cfg s) (p seq : ℕ) :
    Inv cfg (s.setProc p { s.proc p with ncclInitAllSeq := seq }) := by
  have hproc (p' : ℕ) :
      ((s.setProc p { s.proc p with ncclInitAllSeq := seq }).proc p').rawToDomain =
        (s.proc p').rawToDomain ∧
      ((s.setProc p { s.proc p with ncclInitAllSeq := seq }).proc p').ncclCommSplitOrdinals =
        (s.proc p').ncclCommSplitOrdinals := by
    by_cases hp : p' = p
    · subst hp
      simp [World.setProc]
    · simp [World.setProc, hp]
  have hkey (r : ℕ) (hops : List Hop) :
      (s.setProc p { s.proc p with ncclInitAllSeq := seq }).keyOf cfg.hash r hops =
        s.keyOf cfg.hash r hops :=
    keyOf_congr s (s.setProc p { s.proc p with ncclInitAllSeq := seq }) r rfl hops fun _ _ _ => rfl
  exact
    { hI with
      registered := fun p' raw D hD => by
        rw [(hproc p').1] at hD
        simp only [hkey]
        exact hI.registered p' raw D hD
      counted := fun c i raw hl hreg => by
        rw [(hproc _).1] at hreg
        rw [(hproc _).2]
        exact hI.counted c i raw hl hreg
      uncounted := fun p' raw hraw => by
        rw [(hproc p').1] at hraw
        rw [(hproc p').2]
        exact hI.uncounted p' raw hraw }

theorem Inv.initAll (hI : Inv cfg s) {p : ℕ} {comms : List ℕ}
    (hk : kept cfg s (.initAll p comms) = true)
    (h : initAll cfg.hash s p comms = some s') : Inv cfg s' := by
  unfold Identity.initAll at h
  obtain ⟨hne, h⟩ := Option.ite_none_left_eq_some.1 h
  have hpos : 0 < comms.length := List.length_pos_iff.2 hne
  refine Inv.settles comms.length (s.proc p).ncclInitAllSeq s.roots.length comms.zipIdx ?_ ?_ h
  · apply (hI.bump p (((s.proc p).ncclInitAllSeq + 1) % 2 ^ 64)).addRoot
    · rintro n id ⟨⟩
    · intro _ _ _
      exact ⟨p, by simp⟩
    · intro r hr hb
      refine ⟨⟨_, _, rfl⟩, ?_⟩
      have hr' : r < s.roots.length := hr
      simp only [kept, decide_eq_true_eq] at hk
      have := hk r hr' (by
        have hb' : s.base r = .initAll comms.length (s.proc p).ncclInitAllSeq := hb
        simp only [World.base, List.getElem?_eq_getElem hr', Option.map_some,
          Option.getD_some] at hb'
        rw [List.getElem?_eq_getElem hr', Option.map_some, hb'])
      have hp : ((List.replicate comms.length p)[0]?).getD 0 = p := by simp [hpos]
      rw [hp]
      exact this
  · exact addRoot_base_new

theorem Inv.splitReturn (hI : Inv cfg s) {c : Name} {rank raw : ℕ} {queried : Bool}
    (h : splitReturn cfg.hash s c rank raw queried = some s') : Inv cfg s' := by
  unfold Identity.splitReturn at h
  split at h
  case h_1 parent a hl ha =>
    dsimp only at h
    split at h
    case isTrue hok =>
      have hIc := hI.count hl ha true
        (if queried then some ((s.members (c.child a.call a.color)).length,
          (s.members (c.child a.call a.color)).idxOf rank) else none)
      refine (hIc.settle ?_ ?_ h).1
      · rintro d b hb hchild
        simp only [World.count] at hb
        split at hb
        case isTrue => cases hb
        case isFalse hne =>
          have hdc : d = c := by
            cases d; cases c
            simp only [Name.child, Name.mk.injEq, List.cons.injEq] at hchild
            simp [hchild.1, hchild.2.2]
          exact hne ⟨hdc, trivial⟩
      · intro D hD
        obtain ⟨pD, n, r, hpD, hcnt, hkey⟩ := ncclCommSplit_snd hD
        obtain ⟨d, j, hd, hp, hpkey⟩ := hI.registered _ _ _ hpD
        obtain ⟨rfl, rfl⟩ := hI.apart d j c rank parent hd hl hp
        have hord := hI.counted d j parent hl (by rw [hpD]; simp)
        simp only [World.counts, ha, if_pos hok.1] at hord
        have hn : n = (s.members (d.child a.call a.color)).length := by
          split at hcnt <;> simp_all
        rw [hkey, hpkey, hord, hn, count_keyOf]
        rfl
    case isFalse hno =>
      cases h
      exact hI.count hl ha false none
  case h_2 => cases h

theorem Inv.destroy (hI : Inv cfg s) {c : Name} {rank : ℕ}
    (h : destroy s c rank = some s') : Inv cfg s' := by
  unfold Identity.destroy at h
  split at h
  case h_1 raw hl =>
    obtain ⟨hans, h⟩ := Option.ite_none_right_eq_some.1 h
    cases h
    rw [← update_eq hans]
    refine @Inv.update _ _ hI _ _ raw _ _ ?_
    refine ⟨.inl hl, .inr rfl, ?_, ?_, ?_, ?_, ?_⟩
    · intro d b hb hret hcol hchild
      have := ((hI.answered d rank b hb).2 hret).2 hcol
      rw [hchild, hl] at this
      cases this
    · intro r hr
      exact ⟨Function.update_of_ne hr _ _, Function.update_of_ne hr _ _⟩
    · intro D hD
      simp [Process.ncclCommDestroy, Process.unregisterRawComm] at hD
    · intro hreg
      simp [Process.ncclCommDestroy, Process.unregisterRawComm] at hreg
    · intro _
      exact Function.update_self _ _ _
  case h_2 => cases h

/-- Every step that meets the condition keeps the tree in order. -/
theorem Inv.step {l : Label} (hI : Inv cfg s) (hk : kept cfg s l = true)
    (h : step cfg s l = some s') : Inv cfg s' := by
  cases l with
  | initRank commId place => exact hI.initRank h
  | initRankReturn root rank raw => exact hI.initRankReturn h
  | initAll p comms => exact hI.initAll hk h
  | split c ask =>
    have h' : splitCall s c ask = some s' := h
    unfold splitCall at h'
    obtain ⟨⟨hc, hready⟩, h'⟩ := Option.ite_none_right_eq_some.1 h'
    cases h'
    simp only [kept, decide_eq_true_eq] at hk
    exact hI.split hc hready hk.1 hk.2
  | splitReturn c rank raw queried => exact hI.splitReturn h
  | destroy c rank => exact hI.destroy h

theorem Inv.start : Inv cfg initial where
  rooted c (h : c ∈ []) := by simp at h
  parent r h hops (hc : _ ∈ []) := by simp at hc
  bounded c := Nat.zero_le _
  unformed c _ := rfl
  held c i h := absurd rfl h
  fresh c i h := rfl
  apart c i d j raw (h : Handle.absent = .live raw) := by cases h
  answered c i a (h : none = some a) := by cases h
  registered p raw D (h : none = some D) := by cases h
  counted c i raw (h : Handle.absent = .live raw) := by cases h
  uncounted p raw _ := rfl
  ids r n id (h : Base.initAll 0 0 = .uniqueId n id) := by cases h
  places c i ndev nonce h := absurd rfl h
  bases r r' (h : r < 0) := absurd h (Nat.not_lt_zero r)

/-- **All ranks of a communicator have one key, and no two communicators of a node have the
same**, as long as no process creates communicators under a count that the node still has in use,
no split succeeds on some ranks only, and no communicator is split `2 ^ 64` times. -/
theorem identities_kept (cfg : Config) (hinj : Function.Injective cfg.hash) {labels : List Label}
    {s : World} (hrun : (machine cfg).runFrom (kept cfg) initial labels = some s) :
    Agree s ∧ Separate cfg s :=
  ((machine cfg).invariant (fun _ _ _ hI hk hst => Inv.step hI hk hst) Inv.start hrun).promised hinj

/-- Three processes on two nodes. -/
def threeProcesses : Config := ⟨Encodable.encode, fun p => p % 2⟩

/-- A communicator of two nodes and its split, and a communicator for each node. -/
theorem identities_kept_three :
    ∃ s, (machine threeProcesses).runFrom (kept threeProcesses) initial
        [.initRank (List.replicate 16 7) [0, 1], .initRankReturn 0 0 10, .initRankReturn 0 1 10,
          .split ⟨0, []⟩ (fun _ => ⟨3, 0, 0⟩), .splitReturn ⟨0, []⟩ 1 11 true,
          .splitReturn ⟨0, []⟩ 0 11 true, .initAll 0 [20, 21], .initAll 1 [20, 21],
          .destroy ⟨0, []⟩ 0] = some s ∧ Agree s ∧ Separate threeProcesses s := by
  have hsome : ((machine threeProcesses).runFrom (kept threeProcesses) initial
      [.initRank (List.replicate 16 7) [0, 1], .initRankReturn 0 0 10, .initRankReturn 0 1 10,
        .split ⟨0, []⟩ (fun _ => ⟨3, 0, 0⟩), .splitReturn ⟨0, []⟩ 1 11 true,
        .splitReturn ⟨0, []⟩ 0 11 true, .initAll 0 [20, 21], .initAll 1 [20, 21],
        .destroy ⟨0, []⟩ 0]).isSome = true := by decide +kernel
  obtain ⟨s, hrun⟩ := Option.isSome_iff_exists.1 hsome
  exact ⟨s, hrun, identities_kept threeProcesses Encodable.encode_injective hrun⟩

/-- **Two processes of a node each create their first communicator with `ncclCommInitAll`**: both
count it as their first, and the two have one key. -/
theorem init_all_keys_meet :
    ¬ ∀ cfg : Config, Function.Injective cfg.hash → ∀ labels s,
      (machine cfg).runFrom Machine.anyStep initial labels = some s → Agree s ∧ Separate cfg s := by
  intro h
  have hobs : ((machine threeProcesses).runFrom Machine.anyStep initial
      [.initAll 0 [1, 2], .initAll 2 [1, 2]]).map (fun s =>
        (s.domainOf ⟨0, []⟩ 0, s.domainOf ⟨1, []⟩ 0, s.place ⟨0, []⟩ 0, s.place ⟨1, []⟩ 0)) =
      some (some (initAllDomain Encodable.encode 2 0 0),
        some (initAllDomain Encodable.encode 2 0 0),
        0, 2) := by
    decide +kernel
  obtain ⟨s, hrun, hs⟩ := Option.map_eq_some_iff.1 hobs
  simp only [Prod.mk.injEq] at hs
  have hsame := (h threeProcesses Encodable.encode_injective _ s hrun).2 ⟨0, []⟩ ⟨1, []⟩ 0 0 _ _
    hs.1 hs.2.1 (by rw [hs.2.2.1, hs.2.2.2]; rfl) rfl
  cases hsame

end Identity
end Orchestrator
end HyLink
