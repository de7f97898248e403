import HyLink.Theory.Gate
import HyLink.Theory.Machine
import Mathlib.Data.Finset.Card
import Mathlib.Data.Finset.Range
import Mathlib.Data.List.GetD

/-!
# The regions of the host pool

`acquireHostStagingRegion` and `releaseHostStagingRegion`.  Rank 0 of a communicator searches the
pool under one lock for a range on every node that meets no range of another communicator, and
publishes it; the ranks meet at a barrier and read the offsets.  A release is a second barrier,
after which rank 0 gives the range back.  Every access of a barrier and every load of an offset is
a step, a search under the lock is one.

* `searchCursor` — the cursor jumps behind the first range it meets until it meets none.
* `regions_separate` — with at most `MAX_RANKS` ranks and the lease in use, the search ends,
  ranges of different communicators are disjoint and inside the pool until every rank has called
  release, and the ranks of one communicator have the same offsets.
* `regions_meet` — not so without the lease, or with more ranks.
-/

namespace HyLink
namespace Ascend
namespace StagingRegions

open Theory

/-- `PCCL_MAX_CONCURRENT_COMMS` -/
def maxComms : ℕ := 32

/-- `MAX_RANKS` -/
def maxRanks : ℕ := 8

/-- `MAX_NUMA_NODES` -/
def maxNumaNodes : ℕ := 8

/-- `kAlignment` -/
def alignment : ℕ := 2 * 1024 * 1024

/-- `align_up` on a `size_t` -/
def alignUp (value : ℕ) : ℕ := (value + alignment - 1) % 2 ^ 64 / alignment * alignment

/-- The communicators of a pool and what they ask for, by communicator, acquisition and node. -/
structure Config where
  parties : ℕ → ℕ
  parties_pos : ∀ c, 0 < parties c
  required : ℕ → ℕ → ℕ → ℕ
  capacity : ℕ → ℕ → ℕ → ℕ
  capacity_lt : ∀ c k numa, capacity c k numa < 2 ^ 64
  /-- `PCCL_DISABLE_STAGING_LEASE` -/
  leaseDisabled : Bool

/-- How many parties the two barriers wait for. -/
def Config.expected (cfg : Config) (c : ℕ) : ℕ := max 1 (min (cfg.parties c) maxRanks)

/-- The size of the range on a node. -/
def Config.regionBytes (cfg : Config) (c k numa : ℕ) : ℕ :=
  if numa < maxNumaNodes then alignUp (cfg.required c k numa) else 0

/-- Where a rank stands in its calls. -/
inductive Stage where
  | idle
  /-- Rank 0 is before an attempt. -/
  | searching
  /-- The rank is in the barrier of the acquisition. -/
  | acquiring
  /-- The rank has read the offsets of the first nodes. -/
  | reading (seen : List ℕ)
  /-- The acquisition has returned. -/
  | holding
  /-- The rank is in the barrier of the release. -/
  | releasing
  /-- Rank 0 is past it. -/
  | clearing
  deriving DecidableEq, Repr

/-- A communicator: its words, the two barriers, and its ranks. -/
structure Comm where
  offset : ℕ → ℕ
  bytes : ℕ → ℕ
  acquire : Gate.State
  release : Gate.State
  stage : ℕ → Stage
  /-- The offsets that rank 0 has published. -/
  granted : List (List ℕ)
  /-- The offsets that the acquisitions of a rank have returned. -/
  returned : ℕ → List (List ℕ)
  /-- How often a rank has called release. -/
  called : ℕ → ℕ

abbrev State := ℕ → Comm

/-! ## The search -/

/-- The range of another communicator meets the one at the cursor. -/
def meets (s : State) (c numa bytes cursor other : ℕ) : Bool :=
  let otherBytes := (s other).bytes numa
  let otherOffset := (s other).offset numa
  decide (other ≠ c) && decide (otherBytes ≠ 0) &&
    decide (cursor < (otherOffset + otherBytes) % 2 ^ 64) &&
    decide (otherOffset < (cursor + bytes) % 2 ^ 64)

/-- Behind the first range that is met. -/
def nextCursor (s : State) (c numa bytes cursor : ℕ) : Option ℕ :=
  ((List.range maxComms).find? (meets s c numa bytes cursor)).map fun other =>
    alignUp (((s other).offset numa + (s other).bytes numa) % 2 ^ 64)

/-- The loop of the search, with a bound on its rounds. -/
def searchCursor (s : State) (c numa bytes : ℕ) : ℕ → ℕ → Option ℕ
  | 0, _ => none
  | fuel + 1, cursor =>
    match nextCursor s c numa bytes cursor with
    | none => some cursor
    | some next => searchCursor s c numa bytes fuel next

/-- The offset on a node; `some none` where nothing fits. -/
def candidate (s : State) (c numa required capacity : ℕ) : Option (Option ℕ) :=
  let bytes := alignUp required
  if bytes = 0 then some (some 0)
  else if capacity < bytes then some none
  else
    (searchCursor s c numa bytes (maxComms + 1) 0).map fun cursor =>
      if capacity < cursor ∨ capacity - cursor < bytes then none else some cursor

/-- The offsets on all nodes; the search stops at the first node where nothing fits. -/
def candidates (s : State) (c : ℕ) (required capacity : ℕ → ℕ) : List ℕ → Option (Option (List ℕ))
  | [] => some (some [])
  | numa :: rest =>
    (candidate s c numa (required numa) (capacity numa)).bind fun
      | none => some none
      | some offset => (candidates s c required capacity rest).map (Option.map (offset :: ·))

/-! ## The steps of a rank -/

namespace Comm

def goto (m : Comm) (r : ℕ) (stage : Stage) : Comm :=
  { m with stage := Function.update m.stage r stage }

/-- An acquisition of the rank returns. -/
def acquired (m : Comm) (r : ℕ) (offsets : List ℕ) : Comm :=
  { m.goto r .holding with returned := Function.update m.returned r (m.returned r ++ [offsets]) }

/-- The rank calls release. -/
def callRelease (m : Comm) (r : ℕ) (stage : Stage) : Comm :=
  { m.goto r stage with called := Function.update m.called r (m.called r + 1) }

/-- Rank 0 publishes a range. -/
def publish (m : Comm) (offsets : List ℕ) (bytes : ℕ → ℕ) : Comm :=
  { m.goto 0 .acquiring with
    offset := fun numa => offsets.getD numa 0
    bytes := bytes
    granted := m.granted ++ [offsets] }

/-- Rank 0 gives its range back. -/
def clear (m : Comm) : Comm := { m.goto 0 .idle with bytes := fun _ => 0 }

end Comm

/-- The next step of a rank of a communicator. -/
def rankStep (cfg : Config) (s : State) (c r : ℕ) : Option Comm :=
  let m := s c
  match m.stage r with
  | .idle =>
    if cfg.leaseDisabled then some (m.acquired r (List.replicate maxNumaNodes 0))
    else some (m.goto r (if r = 0 then .searching else .acquiring))
  | .searching =>
    let k := (m.returned 0).length
    (candidates s c (cfg.required c k) (cfg.capacity c k) (List.range maxNumaNodes)).map fun
      | none => m
      | some offsets => m.publish offsets (cfg.regionBytes c k)
  | .acquiring =>
    (Gate.step (cfg.expected c) m.acquire r).map fun gate =>
      { m.goto r (if gate.place r = .outside then .reading [] else .acquiring) with acquire := gate }
  | .reading seen =>
    if seen.length < maxNumaNodes then some (m.goto r (.reading (seen ++ [m.offset seen.length])))
    else some (m.acquired r seen)
  | .holding =>
    if cfg.leaseDisabled then some (m.callRelease r .idle) else some (m.callRelease r .releasing)
  | .releasing =>
    (Gate.step (cfg.expected c) m.release r).map fun gate =>
      let next : Stage := if r = 0 then .clearing else .idle
      { m.goto r (if gate.place r = .outside then next else .releasing) with release := gate }
  | .clearing => some m.clear

/-- A rank of a communicator takes its next step. -/
structure Label where
  comm : ℕ
  rank : ℕ

def step (cfg : Config) (s : State) (l : Label) : Option State :=
  if l.comm < maxComms ∧ l.rank < cfg.parties l.comm then
    (rankStep cfg s l.comm l.rank).map (Function.update s l.comm)
  else none

def machine (cfg : Config) : Machine State Label := ⟨step cfg⟩

/-- Nobody has called; offsets and generations are left from before. -/
def initial (offset : ℕ → ℕ → ℕ) (acquire release : ℕ → ℕ) : State := fun c =>
  { offset := offset c
    bytes := fun _ => 0
    acquire := Gate.State.init (acquire c)
    release := Gate.State.init (release c)
    stage := fun _ => .idle
    granted := []
    returned := fun _ => []
    called := fun _ => 0 }

/-! ## What is to hold -/

/-- Acquisition `k` of the communicator has returned these offsets to a rank, and not every rank
has called its release. -/
def Held (cfg : Config) (s : State) (c k : ℕ) (offsets : List ℕ) : Prop :=
  (∃ r < cfg.parties c, ((s c).returned r)[k]? = some offsets) ∧
    ∃ q < cfg.parties c, (s c).called q ≤ k

/-- The ranges that are held are disjoint and inside the pool. -/
def Separate (cfg : Config) (s : State) : Prop :=
  ∀ c < maxComms, ∀ k offsets, Held cfg s c k offsets → ∀ numa < maxNumaNodes,
    let first := offsets.getD numa 0
    let bytes := alignUp (cfg.required c k numa)
    first + bytes ≤ cfg.capacity c k numa ∧
    ∀ c' < maxComms, c' ≠ c → ∀ k' offsets', Held cfg s c' k' offsets' →
      let first' := offsets'.getD numa 0
      let bytes' := alignUp (cfg.required c' k' numa)
      bytes = 0 ∨ bytes' = 0 ∨ first + bytes ≤ first' ∨ first' + bytes' ≤ first

/-- The ranks of a communicator have the same offsets. -/
def SameOffsets (cfg : Config) (s : State) : Prop :=
  ∀ c < maxComms, ∀ r < cfg.parties c, ∀ q < cfg.parties c, ∀ (k : ℕ) (offsets offsets' : List ℕ),
    ((s c).returned r)[k]? = some offsets → ((s c).returned q)[k]? = some offsets' →
      offsets = offsets'

/-- The search of every communicator ends, whatever it asks for. -/
def SearchEnds (s : State) : Prop :=
  ∀ c numa bytes, (searchCursor s c numa bytes (maxComms + 1) 0).isSome = true

/-! ## The search finds a free range -/

variable {cfg : Config} {s s' : State} {c r q : ℕ}

theorem alignUp_dvd (value : ℕ) : alignment ∣ alignUp value := Nat.dvd_mul_left _ _

/-- An aligned end is its own alignment. -/
theorem alignUp_of_dvd {x : ℕ} (hd : alignment ∣ x) (hx : x < 2 ^ 64) : alignUp x = x := by
  obtain ⟨k, rfl⟩ := hd
  unfold alignUp alignment at *
  omega

/-- The ranges that are given out are aligned and end below the capacity of their node. -/
def Fitting (s : State) : Prop :=
  ∀ c numa, (s c).bytes numa ≠ 0 → alignment ∣ (s c).offset numa ∧ alignment ∣ (s c).bytes numa ∧
    (s c).offset numa + (s c).bytes numa < 2 ^ 64

/-- The ranges of two communicators do not meet. -/
def Apart (s : State) : Prop :=
  ∀ c c' numa, c < maxComms → c' < maxComms → c ≠ c' →
    (s c).bytes numa = 0 ∨ (s c').bytes numa = 0 ∨
      (s c).offset numa + (s c).bytes numa ≤ (s c').offset numa ∨
      (s c').offset numa + (s c').bytes numa ≤ (s c).offset numa

/-- The other communicators whose range ends behind the cursor. -/
def ahead (s : State) (numa cursor : ℕ) : Finset ℕ :=
  (Finset.range maxComms).filter fun other =>
    (s other).bytes numa ≠ 0 ∧ cursor < (s other).offset numa + (s other).bytes numa

theorem nextCursor_some (hf : Fitting s) {numa bytes cursor next : ℕ}
    (h : nextCursor s c numa bytes cursor = some next) :
    ∃ other ∈ ahead s numa cursor, next = (s other).offset numa + (s other).bytes numa := by
  obtain ⟨other, hfind, rfl⟩ := Option.map_eq_some_iff.1 h
  have hmeets := List.find?_some hfind
  have hmem := List.mem_range.1 (List.mem_of_find?_eq_some hfind)
  simp only [meets, Bool.and_eq_true, decide_eq_true_eq] at hmeets
  obtain ⟨⟨⟨-, hbytes⟩, hcursor⟩, -⟩ := hmeets
  obtain ⟨ho, hb, hlt⟩ := hf other numa hbytes
  rw [Nat.mod_eq_of_lt hlt] at hcursor ⊢
  refine ⟨other, ?_, alignUp_of_dvd (Nat.dvd_add ho hb) hlt⟩
  exact Finset.mem_filter.2 ⟨Finset.mem_range.2 hmem, hbytes, hcursor⟩

theorem nextCursor_none {numa bytes cursor : ℕ} (h : nextCursor s c numa bytes cursor = none) :
    ∀ other < maxComms, meets s c numa bytes cursor other = false := by
  intro other hother
  have hnone := List.find?_eq_none.1 (Option.map_eq_none_iff.1 h) other (List.mem_range.2 hother)
  exact Bool.eq_false_iff.2 hnone

/-- **The cursor passes each range at most once,** so the search ends. -/
theorem searchCursor_spec (hf : Fitting s) (numa bytes : ℕ) {fuel cursor : ℕ}
    (hfuel : (ahead s numa cursor).card < fuel) (haligned : alignment ∣ cursor) :
    ∃ found, searchCursor s c numa bytes fuel cursor = some found ∧ alignment ∣ found ∧
      ∀ other < maxComms, meets s c numa bytes found other = false := by
  induction fuel generalizing cursor with
  | zero => exact absurd hfuel (Nat.not_lt_zero _)
  | succ fuel ih =>
    unfold searchCursor
    cases hnext : nextCursor s c numa bytes cursor with
    | none => exact ⟨cursor, rfl, haligned, nextCursor_none hnext⟩
    | some next =>
      obtain ⟨other, hmem, rfl⟩ := nextCursor_some hf hnext
      obtain ⟨hrange, hbytes, hlt⟩ := Finset.mem_filter.1 hmem
      obtain ⟨ho, hb, -⟩ := hf other numa hbytes
      refine ih ?_ (Nat.dvd_add ho hb)
      -- the range that was met is not ahead any more
      have hsub : ahead s numa ((s other).offset numa + (s other).bytes numa) ⊂
          ahead s numa cursor := by
        refine Finset.ssubset_iff_of_subset ?_ |>.2 ⟨other, hmem, ?_⟩
        · intro x hx
          obtain ⟨hx, hxb, hxlt⟩ := Finset.mem_filter.1 hx
          exact Finset.mem_filter.2 ⟨hx, hxb, hlt.trans hxlt⟩
        · intro hx
          exact lt_irrefl _ (Finset.mem_filter.1 hx).2.2
      have hcard := Finset.card_lt_card hsub
      omega

theorem card_ahead (s : State) (numa cursor : ℕ) : (ahead s numa cursor).card ≤ maxComms := by
  have h := Finset.card_filter_le (Finset.range maxComms) fun other =>
    (s other).bytes numa ≠ 0 ∧ cursor < (s other).offset numa + (s other).bytes numa
  rwa [Finset.card_range] at h

/-- **The search ends** where the ranges are aligned. -/
theorem Fitting.searchEnds (hf : Fitting s) : SearchEnds s := by
  intro c numa bytes
  obtain ⟨found, hfound, -⟩ := searchCursor_spec (c := c) hf numa bytes
    (Nat.lt_succ_of_le (card_ahead s numa 0)) (Nat.dvd_zero _)
  rw [hfound]
  rfl

/-- A range for the communicator on a node: nothing, or aligned, inside the pool and away from the
others. -/
def FreeRange (s : State) (c numa capacity offset bytes : ℕ) : Prop :=
  offset + bytes ≤ capacity ∧ alignment ∣ offset ∧
    ∀ other < maxComms, other ≠ c → bytes = 0 ∨ (s other).bytes numa = 0 ∨
      offset + bytes ≤ (s other).offset numa ∨
      (s other).offset numa + (s other).bytes numa ≤ offset

theorem candidate_free (hf : Fitting s) {numa required capacity offset : ℕ}
    (hcap : capacity < 2 ^ 64)
    (h : candidate s c numa required capacity = some (some offset)) :
    FreeRange s c numa capacity offset (alignUp required) := by
  unfold candidate at h
  dsimp only at h
  by_cases h0 : alignUp required = 0
  · rw [if_pos h0] at h
    cases h
    exact ⟨by rw [h0]; exact Nat.zero_le _, Nat.dvd_zero _, fun _ _ _ => .inl h0⟩
  · rw [if_neg h0] at h
    split at h
    · cases h
    · obtain ⟨found, hfound, hfits⟩ := Option.map_eq_some_iff.1 h
      obtain ⟨cursor, hcursor, haligned, hfree⟩ := searchCursor_spec (c := c) hf numa
        (alignUp required) (Nat.lt_succ_of_le (card_ahead s numa 0)) (Nat.dvd_zero _)
      rw [hcursor] at hfound
      cases hfound
      split at hfits
      · cases hfits
      · rename_i hroom
        cases hfits
        rw [not_or, not_lt, not_lt] at hroom
        have hend : offset + alignUp required ≤ capacity := by omega
        refine ⟨hend, haligned, ?_⟩
        intro other hother hne
        by_cases hbytes : (s other).bytes numa = 0
        · exact .inr (.inl hbytes)
        · have hno := hfree other hother
          obtain ⟨-, -, hlt⟩ := hf other numa hbytes
          simp only [meets, Bool.and_eq_false_iff, decide_eq_false_iff_not, not_not,
            Nat.mod_eq_of_lt hlt, Nat.mod_eq_of_lt (Nat.lt_of_le_of_lt hend hcap)] at hno
          omega

/-- **What is published is free on every node.** -/
theorem candidates_free (hf : Fitting s) {required capacity : ℕ → ℕ}
    (hcap : ∀ numa, capacity numa < 2 ^ 64) {numas offsets : List ℕ}
    (h : candidates s c required capacity numas = some (some offsets)) :
    List.Forall₂ (fun numa offset => FreeRange s c numa (capacity numa) offset
      (alignUp (required numa))) numas offsets := by
  induction numas generalizing offsets with
  | nil =>
    cases h
    exact .nil
  | cons numa rest ih =>
    obtain ⟨fits, hfirst, h⟩ := Option.bind_eq_some_iff.1 h
    cases fits with
    | none => cases h
    | some offset =>
      obtain ⟨fits', hrest, hmap⟩ := Option.map_eq_some_iff.1 h
      obtain ⟨offsets', rfl, rfl⟩ := Option.map_eq_some_iff.1 hmap
      exact .cons (candidate_free hf (hcap numa) hfirst) (ih hrest)

theorem candidates_range (hf : Fitting s) {required capacity : ℕ → ℕ}
    (hcap : ∀ numa, capacity numa < 2 ^ 64) {offsets : List ℕ}
    (h : candidates s c required capacity (List.range maxNumaNodes) = some (some offsets)) :
    offsets.length = maxNumaNodes ∧ ∀ numa < maxNumaNodes,
      FreeRange s c numa (capacity numa) (offsets.getD numa 0) (alignUp (required numa)) := by
  have hall := candidates_free hf hcap h
  have hlen : offsets.length = maxNumaNodes := hall.length_eq.symm.trans List.length_range
  refine ⟨hlen, ?_⟩
  intro numa hnuma
  have hin : numa < offsets.length := hlen.symm ▸ hnuma
  have hin' : numa < (List.range maxNumaNodes).length := by rwa [List.length_range]
  have hnumaGet : (List.range maxNumaNodes).get ⟨numa, hin'⟩ = numa := List.getElem_range hin'
  have hget := hall.get hin' hin
  rw [hnumaGet] at hget
  rw [List.getD_eq_getElem _ _ hin]
  exact hget

/-! ## One communicator -/

/-- The acquisition barrier is passed and the release barrier is not. -/
def Stage.inside : Stage → ℕ
  | .reading _ | .holding | .releasing => 1
  | _ => 0

/-- The acquisition has returned. -/
def Stage.got : Stage → ℕ
  | .holding | .releasing => 1
  | _ => 0

/-- The release is called. -/
def Stage.left : Stage → ℕ
  | .releasing => 1
  | _ => 0

/-- Rank 0 has published and is not past the release barrier. -/
def Stage.published : Stage → ℕ
  | .acquiring | .reading _ | .holding | .releasing => 1
  | _ => 0

/-- Rank 0 has published and not given back. -/
def Stage.owns : Stage → Bool
  | .acquiring | .reading _ | .holding | .releasing | .clearing => true
  | _ => false

/-- What a communicator has of one rank. -/
structure View where
  stage : Stage
  acquired : ℕ
  acquirePlace : Gate.Place
  released : ℕ
  releasePlace : Gate.Place
  returned : List (List ℕ)
  called : ℕ

def Comm.view (m : Comm) (r : ℕ) : View :=
  ⟨m.stage r, m.acquire.passed r, m.acquire.place r, m.release.passed r, m.release.place r,
    m.returned r, m.called r⟩

/-- A rank's counts agree with where it stands, and what it has read is what was published. -/
structure View.Ok (granted : List (List ℕ)) (r : ℕ) (v : View) : Prop where
  acquired : v.acquired = v.released + v.stage.inside
  length : v.returned.length = v.released + v.stage.got
  called : v.called = v.released + v.stage.left
  acquirePlace : v.stage ≠ .acquiring → v.acquirePlace = .outside
  releasePlace : v.stage ≠ .releasing → v.releasePlace = .outside
  leader : v.stage = .searching ∨ v.stage = .clearing → r = 0
  seen : ∀ seen, v.stage = .reading seen →
    ∃ offsets, granted[v.released]? = some offsets ∧ seen <+: offsets
  returned : v.returned <+: granted

/-- A communicator's words agree with what rank 0 has published. -/
structure CommOk (cfg : Config) (c : ℕ) (acquire release : ℕ) (m : Comm) : Prop where
  acquire : Gate.Sound (cfg.parties c) acquire m.acquire
  release : Gate.Sound (cfg.parties c) release m.release
  view : ∀ r < cfg.parties c, (m.view r).Ok m.granted r
  published : m.granted.length = m.release.passed 0 + (m.stage 0).published
  width : ∀ offsets ∈ m.granted, offsets.length = maxNumaNodes
  offset : ∀ offsets, m.granted.getLast? = some offsets → ∀ numa, m.offset numa = offsets.getD numa 0
  bytes : ∀ numa, m.bytes numa =
    if (m.stage 0).owns then cfg.regionBytes c (m.granted.length - 1) numa else 0
  inside : (m.stage 0).owns = true → ∀ numa < maxNumaNodes, alignment ∣ m.offset numa ∧
    m.offset numa + m.bytes numa ≤ cfg.capacity c (m.granted.length - 1) numa

namespace CommOk

variable {startA startR : ℕ} {m : Comm}

/-- Rank 0 arrives at the acquisition barrier with a range published. -/
theorem arrived_le (h : CommOk cfg c startA startR m) : m.acquire.arrived 0 ≤ m.granted.length := by
  have hv := h.view 0 (cfg.parties_pos c)
  have hacq : m.acquire.passed 0 = m.release.passed 0 + (m.stage 0).inside := hv.acquired
  have hpub := h.published
  by_cases hst : m.stage 0 = .acquiring
  · have hle := m.acquire.arrived_le 0
    rw [hst] at hacq hpub
    simp only [Stage.inside, Stage.published] at hacq hpub
    omega
  · rw [Gate.State.arrived_outside (hv.acquirePlace hst)]
    cases hs : m.stage 0 <;> rw [hs] at hacq hpub <;>
      simp only [Stage.inside, Stage.published] at hacq hpub <;> omega

/-- Who is past the acquisition barrier has had its range published. -/
theorem acquired_le (h : CommOk cfg c startA startR m) (hr : r < cfg.parties c) :
    m.acquire.passed r ≤ m.granted.length :=
  (h.acquire.passed_le_arrived hr (cfg.parties_pos c)).trans h.arrived_le

/-- Rank 0 is past a release barrier only when everybody has called that release. -/
theorem released_le (h : CommOk cfg c startA startR m) (hq : q < cfg.parties c) :
    m.release.passed 0 ≤ m.called q := by
  have hle := h.release.passed_le_arrived (cfg.parties_pos c) hq
  have hv := h.view q hq
  have hcalled : m.called q = m.release.passed q + (m.stage q).left := hv.called
  by_cases hst : m.stage q = .releasing
  · have harr := m.release.arrived_le q
    rw [hst] at hcalled
    simp only [Stage.left] at hcalled
    omega
  · rw [Gate.State.arrived_outside (hv.releasePlace hst)] at hle
    omega

theorem granted_le (h : CommOk cfg c startA startR m) :
    m.granted.length ≤ m.release.passed 0 + 1 := by
  have hpub := h.published
  have hle : (m.stage 0).published ≤ 1 := by cases m.stage 0 <;> simp [Stage.published]
  omega

/-- **A range is the last one published until everybody has called its release.** -/
theorem current (h : CommOk cfg c startA startR m) (hr : r < cfg.parties c)
    (hq : q < cfg.parties c) {k : ℕ} (hk : k < m.acquire.passed r) (hcalled : m.called q ≤ k) :
    m.granted.length = k + 1 ∧ m.release.passed 0 = k ∧ (m.stage 0).owns = true := by
  have hacq := h.acquired_le hr
  have hrel := h.released_le hq
  have hgr := h.granted_le
  have hpub := h.published
  refine ⟨by omega, by omega, ?_⟩
  have hone : (m.stage 0).published = 1 := by omega
  cases hst : m.stage 0 <;> rw [hst] at hone <;> first | rfl | cases hone

end CommOk

/-! ## The steps of a communicator -/

/-- Published offsets stay. -/
theorem View.Ok.mono {granted granted' : List (List ℕ)} {v : View} (h : v.Ok granted r)
    (hpre : granted <+: granted') : v.Ok granted' r := by
  refine ⟨h.acquired, h.length, h.called, h.acquirePlace, h.releasePlace, h.leader, ?_,
    h.returned.trans hpre⟩
  intro seen hseen
  obtain ⟨offsets, hget, hprefix⟩ := h.seen seen hseen
  obtain ⟨rest, rfl⟩ := hpre
  refine ⟨offsets, ?_, hprefix⟩
  rw [List.getElem?_append_left (List.getElem?_eq_some_iff.1 hget).1]
  exact hget

/-- A rank goes on outside the barriers. -/
theorem View.Ok.restage {granted : List (List ℕ)} {v : View} (h : v.Ok granted r) {stage : Stage}
    (hinside : stage.inside = v.stage.inside) (hgot : stage.got = v.stage.got)
    (hleft : stage.left = v.stage.left) (hacquiring : v.stage ≠ .acquiring)
    (hreleasing : v.stage ≠ .releasing) (hleader : stage = .searching ∨ stage = .clearing → r = 0)
    (hseen : ∀ seen, stage = .reading seen →
      ∃ offsets, granted[v.released]? = some offsets ∧ seen <+: offsets) :
    View.Ok granted r { v with stage := stage } := by
  refine ⟨?_, ?_, ?_, fun _ => h.acquirePlace hacquiring, fun _ => h.releasePlace hreleasing,
    hleader, hseen, h.returned⟩
  · show v.acquired = v.released + stage.inside
    rw [hinside]
    exact h.acquired
  · show v.returned.length = v.released + stage.got
    rw [hgot]
    exact h.length
  · show v.called = v.released + stage.left
    rw [hleft]
    exact h.called

namespace CommOk

variable {startA startR : ℕ} {m m' : Comm}

/-- What is left to check when a rank moves and rank 0 publishes and gives back nothing. -/
theorem move (h : CommOk cfg c startA startR m)
    (hacq : Gate.Sound (cfg.parties c) startA m'.acquire)
    (hrel : Gate.Sound (cfg.parties c) startR m'.release)
    (hview : ∀ q, q ≠ r → m'.view q = m.view q)
    (hgranted : m'.granted = m.granted) (hoffset : m'.offset = m.offset)
    (hbytes : m'.bytes = m.bytes)
    (hself : (m'.view r).Ok m.granted r)
    (hpub : r = 0 → m'.release.passed 0 + (m'.stage 0).published =
      m.release.passed 0 + (m.stage 0).published)
    (howns : r = 0 → (m'.stage 0).owns = (m.stage 0).owns) : CommOk cfg c startA startR m' := by
  have hzero : m'.release.passed 0 + (m'.stage 0).published =
      m.release.passed 0 + (m.stage 0).published ∧ (m'.stage 0).owns = (m.stage 0).owns := by
    by_cases h0 : r = 0
    · exact ⟨hpub h0, howns h0⟩
    · have hv := hview 0 (Ne.symm h0)
      have hst : m'.stage 0 = m.stage 0 := congrArg View.stage hv
      have hpass : m'.release.passed 0 = m.release.passed 0 := congrArg View.released hv
      rw [hst, hpass]
      exact ⟨rfl, rfl⟩
  refine ⟨hacq, hrel, ?_, ?_, ?_, ?_, ?_, ?_⟩
  · intro q hq
    rw [hgranted]
    by_cases hqr : q = r
    · exact hqr ▸ hself
    · rw [hview q hqr]
      exact h.view q hq
  · rw [hgranted, hzero.1]
    exact h.published
  · rw [hgranted]
    exact h.width
  · rw [hgranted, hoffset]
    exact h.offset
  · rw [hgranted, hbytes, hzero.2]
    exact h.bytes
  · rw [hgranted, hoffset, hbytes, hzero.2]
    exact h.inside

theorem view_goto_ne (m : Comm) (stage : Stage) (hqr : q ≠ r) : (m.goto r stage).view q = m.view q := by
  unfold Comm.view Comm.goto
  simp only [Function.update_of_ne hqr]

theorem view_goto_self (m : Comm) (stage : Stage) :
    (m.goto r stage).view r = { m.view r with stage := stage } := by
  unfold Comm.view Comm.goto
  simp only [Function.update_self]

theorem goto_stage_self (m : Comm) (stage : Stage) : (m.goto r stage).stage r = stage :=
  Function.update_self _ _ _

/-- **A rank calls acquire.** -/
theorem call (h : CommOk cfg c startA startR m) (hr : r < cfg.parties c)
    (hst : m.stage r = .idle) :
    CommOk cfg c startA startR (m.goto r (if r = 0 then .searching else .acquiring)) := by
  have hidle : (m.view r).stage = .idle := hst
  refine h.move h.acquire h.release (fun q hq => view_goto_ne m _ hq) rfl rfl rfl ?_ ?_ ?_
  · rw [view_goto_self]
    by_cases h0 : r = 0
    · rw [if_pos h0]
      exact (h.view r hr).restage (by rw [hidle]; rfl) (by rw [hidle]; rfl) (by rw [hidle]; rfl)
        (by rw [hidle]; exact nofun) (by rw [hidle]; exact nofun) (fun _ => h0) nofun
    · rw [if_neg h0]
      exact (h.view r hr).restage (by rw [hidle]; rfl) (by rw [hidle]; rfl) (by rw [hidle]; rfl)
        (by rw [hidle]; exact nofun) (by rw [hidle]; exact nofun)
        (fun hl => hl.elim nofun nofun) nofun
  · rintro rfl
    rw [goto_stage_self, hst]
    rfl
  · rintro rfl
    rw [goto_stage_self, hst]
    rfl

/-- **A rank goes on in the acquisition barrier,** or is past it and starts to read. -/
theorem acquireGate (h : CommOk cfg c startA startR m) (hr : r < cfg.parties c)
    (hst : m.stage r = .acquiring) {gate : Gate.State}
    (hgate : Gate.step (cfg.parties c) m.acquire r = some gate) :
    CommOk cfg c startA startR
      { m.goto r (if gate.place r = .outside then .reading [] else .acquiring) with
        acquire := gate } := by
  obtain ⟨hother, hself⟩ := Gate.step_cases hgate
  have hsound := h.acquire.step hr hgate
  obtain ⟨hacq, hlen, hcalled, -, hrp, -, -, hret⟩ := h.view r hr
  change m.acquire.passed r = m.release.passed r + (m.stage r).inside at hacq
  change (m.returned r).length = m.release.passed r + (m.stage r).got at hlen
  change m.called r = m.release.passed r + (m.stage r).left at hcalled
  change m.stage r ≠ .releasing → m.release.place r = .outside at hrp
  rw [hst] at hacq hlen hcalled hrp
  -- who is past the barrier has met rank 0, which has published before
  have hpub : gate.passed r ≤ m.granted.length := by
    by_cases h0 : r = 0
    · subst h0
      have hpub := h.published
      rw [hst] at hpub
      simp only [Stage.inside, Stage.published] at hacq hpub
      rcases hself with ⟨-, hpass⟩ | ⟨-, hpass, -⟩ <;> omega
    · have hle := hsound.passed_le_arrived hr (cfg.parties_pos c)
      obtain ⟨hplace, hpass⟩ := hother 0 (Ne.symm h0)
      have harr : gate.arrived 0 = m.acquire.arrived 0 := by
        unfold Gate.State.arrived
        rw [hplace, hpass]
      rw [harr] at hle
      exact hle.trans h.arrived_le
  refine h.move (r := r) hsound h.release ?_ rfl rfl rfl ?_ ?_ ?_
  · intro q hq
    obtain ⟨hplace, hpass⟩ := hother q hq
    unfold Comm.view Comm.goto
    simp only [Function.update_of_ne hq, hplace, hpass]
  · have hview : ∀ stage, Comm.view { m.goto r stage with acquire := gate } r =
        ⟨stage, gate.passed r, gate.place r, m.release.passed r, m.release.place r, m.returned r,
          m.called r⟩ := by
      intro stage
      unfold Comm.view Comm.goto
      simp only [Function.update_self]
    rw [hview]
    rcases hself with ⟨hin, hpass⟩ | ⟨hout, hpass, -⟩
    · rw [if_neg hin, hpass]
      exact ⟨hacq, hlen, hcalled, fun hne => absurd rfl hne, fun _ => hrp nofun,
        fun hl => hl.elim nofun nofun, nofun, hret⟩
    · rw [if_pos hout]
      rw [hpass] at hpub ⊢
      refine ⟨?_, hlen, hcalled, fun _ => hout, fun _ => hrp nofun, fun hl => hl.elim nofun nofun,
        ?_, hret⟩
      · rw [hacq]
        rfl
      · intro seen hseen
        cases hseen
        have hlt : m.release.passed r < m.granted.length := by
          simp only [Stage.inside] at hacq
          omega
        exact ⟨_, List.getElem?_eq_getElem hlt, List.nil_prefix⟩
  · rintro rfl
    show m.release.passed 0 + ((m.goto 0 _).stage 0).published = _
    rw [goto_stage_self, hst]
    split <;> rfl
  · rintro rfl
    show ((m.goto 0 _).stage 0).owns = _
    rw [goto_stage_self, hst]
    split <;> rfl

/-- **A rank reads an offset** of the range it has met rank 0 for. -/
theorem readOffset (h : CommOk cfg c startA startR m) (hr : r < cfg.parties c) {seen : List ℕ}
    (hst : m.stage r = .reading seen) (hlen : seen.length < maxNumaNodes) :
    CommOk cfg c startA startR (m.goto r (.reading (seen ++ [m.offset seen.length]))) := by
  have hreading : (m.view r).stage = .reading seen := hst
  have hv := h.view r hr
  have hacq : m.acquire.passed r = m.release.passed r + (m.stage r).inside := hv.acquired
  have hcalled : m.called r = m.release.passed r + (m.stage r).left := hv.called
  rw [hst] at hacq hcalled
  obtain ⟨offsets, hget, rest, hrest⟩ := hv.seen seen hreading
  change m.granted[m.release.passed r]? = some offsets at hget
  obtain ⟨hlength, -, -⟩ := h.current hr hr (k := m.release.passed r) (by rw [hacq]; exact Nat.lt_succ_self _)
    hcalled.le
  have hlast : m.granted.getLast? = some offsets := by
    rw [List.getLast?_eq_getElem?, hlength]
    exact hget
  have hwidth := h.width offsets (List.mem_of_getElem? hget)
  refine h.move h.acquire h.release (fun q hq => view_goto_ne m _ hq) rfl rfl rfl ?_ ?_ ?_
  · rw [view_goto_self]
    refine hv.restage (by rw [hreading]; rfl) (by rw [hreading]; rfl) (by rw [hreading]; rfl)
      (by rw [hreading]; exact nofun) (by rw [hreading]; exact nofun)
      (fun hl => hl.elim nofun nofun) ?_
    intro seen' hseen'
    cases hseen'
    refine ⟨offsets, hget, ?_⟩
    -- the next offset is the one published for the next node
    rw [← hrest, List.length_append] at hwidth
    cases rest with
    | nil =>
      rw [List.length_nil] at hwidth
      omega
    | cons offset rest =>
      rw [h.offset offsets hlast, ← hrest, List.getD_append_right _ _ _ _ (le_refl _), Nat.sub_self]
      exact ⟨rest, by simp⟩
  · rintro rfl
    rw [goto_stage_self, hst]
    rfl
  · rintro rfl
    rw [goto_stage_self, hst]
    rfl

theorem prefix_snoc {α : Type} {l l' : List α} {x : α} (h : l <+: l') (hx : l'[l.length]? = some x) :
    l ++ [x] <+: l' := by
  obtain ⟨rest, rfl⟩ := h
  cases rest with
  | nil => simp at hx
  | cons y rest =>
    rw [List.getElem?_append_right (le_refl _), Nat.sub_self, List.getElem?_cons_zero] at hx
    cases hx
    exact ⟨rest, by simp⟩

/-- **An acquisition returns** the offsets that were published for it. -/
theorem acquired (h : CommOk cfg c startA startR m) (hr : r < cfg.parties c) {seen : List ℕ}
    (hst : m.stage r = .reading seen) (hlen : ¬ seen.length < maxNumaNodes) :
    CommOk cfg c startA startR (m.acquired r seen) := by
  obtain ⟨hacq, hlength, hcalled, hap, hrp, -, hseen, hret⟩ := h.view r hr
  change m.acquire.passed r = m.release.passed r + (m.stage r).inside at hacq
  change (m.returned r).length = m.release.passed r + (m.stage r).got at hlength
  change m.called r = m.release.passed r + (m.stage r).left at hcalled
  change m.stage r ≠ .acquiring → m.acquire.place r = .outside at hap
  change m.stage r ≠ .releasing → m.release.place r = .outside at hrp
  rw [hst] at hacq hlength hcalled hap hrp
  obtain ⟨offsets, hget, hprefix⟩ := hseen seen hst
  change m.granted[m.release.passed r]? = some offsets at hget
  have hwidth := h.width offsets (List.mem_of_getElem? hget)
  have hfull : seen = offsets :=
    hprefix.eq_of_length (le_antisymm hprefix.length_le (hwidth.le.trans (not_lt.1 hlen)))
  subst hfull
  refine h.move (r := r) h.acquire h.release ?_ rfl rfl rfl ?_ ?_ ?_
  · intro q hq
    unfold Comm.view Comm.acquired Comm.goto
    simp only [Function.update_of_ne hq]
  · have hview : (m.acquired r seen).view r =
        ⟨.holding, m.acquire.passed r, m.acquire.place r, m.release.passed r, m.release.place r,
          m.returned r ++ [seen], m.called r⟩ := by
      unfold Comm.view Comm.acquired Comm.goto
      simp only [Function.update_self]
    rw [hview]
    refine ⟨hacq, ?_, hcalled, fun _ => hap nofun, fun _ => hrp nofun, fun hl => hl.elim nofun nofun,
      nofun, prefix_snoc hret ?_⟩
    · show (m.returned r ++ [seen]).length = _
      rw [List.length_append, hlength]
      rfl
    · show m.granted[(m.returned r).length]? = some seen
      rw [hlength]
      exact hget
  · rintro rfl
    show m.release.passed 0 + ((m.goto 0 .holding).stage 0).published = _
    rw [goto_stage_self, hst]
    rfl
  · rintro rfl
    show ((m.goto 0 .holding).stage 0).owns = _
    rw [goto_stage_self, hst]
    rfl

/-- **A rank calls release.** -/
theorem callRelease (h : CommOk cfg c startA startR m) (hr : r < cfg.parties c)
    (hst : m.stage r = .holding) : CommOk cfg c startA startR (m.callRelease r .releasing) := by
  obtain ⟨hacq, hlength, hcalled, hap, hrp, -, -, hret⟩ := h.view r hr
  change m.acquire.passed r = m.release.passed r + (m.stage r).inside at hacq
  change (m.returned r).length = m.release.passed r + (m.stage r).got at hlength
  change m.called r = m.release.passed r + (m.stage r).left at hcalled
  change m.stage r ≠ .acquiring → m.acquire.place r = .outside at hap
  rw [hst] at hacq hlength hcalled hap
  refine h.move (r := r) h.acquire h.release ?_ rfl rfl rfl ?_ ?_ ?_
  · intro q hq
    unfold Comm.view Comm.callRelease Comm.goto
    simp only [Function.update_of_ne hq]
  · have hview : (m.callRelease r .releasing).view r =
        ⟨.releasing, m.acquire.passed r, m.acquire.place r, m.release.passed r, m.release.place r,
          m.returned r, m.called r + 1⟩ := by
      unfold Comm.view Comm.callRelease Comm.goto
      simp only [Function.update_self]
    rw [hview]
    refine ⟨hacq, hlength, ?_, fun _ => hap nofun, fun hne => absurd rfl hne,
      fun hl => hl.elim nofun nofun, nofun, hret⟩
    show m.called r + 1 = _
    rw [hcalled]
    rfl
  · rintro rfl
    show m.release.passed 0 + ((m.goto 0 .releasing).stage 0).published = _
    rw [goto_stage_self, hst]
    rfl
  · rintro rfl
    show ((m.goto 0 .releasing).stage 0).owns = _
    rw [goto_stage_self, hst]
    rfl

/-- **A rank goes on in the release barrier,** or is past it. -/
theorem releaseGate (h : CommOk cfg c startA startR m) (hr : r < cfg.parties c)
    (hst : m.stage r = .releasing) {gate : Gate.State}
    (hgate : Gate.step (cfg.parties c) m.release r = some gate) :
    CommOk cfg c startA startR
      { m.goto r (if gate.place r = .outside then (if r = 0 then .clearing else .idle)
          else .releasing) with release := gate } := by
  obtain ⟨hother, hself⟩ := Gate.step_cases hgate
  have hsound := h.release.step hr hgate
  obtain ⟨hacq, hlen, hcalled, hap, -, -, -, hret⟩ := h.view r hr
  change m.acquire.passed r = m.release.passed r + (m.stage r).inside at hacq
  change (m.returned r).length = m.release.passed r + (m.stage r).got at hlen
  change m.called r = m.release.passed r + (m.stage r).left at hcalled
  change m.stage r ≠ .acquiring → m.acquire.place r = .outside at hap
  rw [hst] at hacq hlen hcalled hap
  refine h.move (r := r) h.acquire hsound ?_ rfl rfl rfl ?_ ?_ ?_
  · intro q hq
    obtain ⟨hplace, hpass⟩ := hother q hq
    unfold Comm.view Comm.goto
    simp only [Function.update_of_ne hq, hplace, hpass]
  · have hview : ∀ stage, Comm.view { m.goto r stage with release := gate } r =
        ⟨stage, m.acquire.passed r, m.acquire.place r, gate.passed r, gate.place r, m.returned r,
          m.called r⟩ := by
      intro stage
      unfold Comm.view Comm.goto
      simp only [Function.update_self]
    rw [hview]
    rcases hself with ⟨hin, hpass⟩ | ⟨hout, hpass, -⟩
    · rw [if_neg hin, hpass]
      exact ⟨hacq, hlen, hcalled, fun _ => hap nofun, fun hne => absurd rfl hne,
        fun hl => hl.elim nofun nofun, nofun, hret⟩
    · rw [if_pos hout, hpass]
      by_cases h0 : r = 0
      · rw [if_pos h0]
        exact ⟨hacq, hlen, hcalled, fun _ => hap nofun, fun _ => hout, fun _ => h0, nofun, hret⟩
      · rw [if_neg h0]
        exact ⟨hacq, hlen, hcalled, fun _ => hap nofun, fun _ => hout,
          fun hl => hl.elim nofun nofun, nofun, hret⟩
  · rintro rfl
    rcases hself with ⟨hin, hpass⟩ | ⟨hout, hpass, -⟩
    · rw [if_neg hin]
      show gate.passed 0 + ((m.goto 0 .releasing).stage 0).published = _
      rw [goto_stage_self, hst, hpass]
    · rw [if_pos hout, if_pos rfl]
      show gate.passed 0 + ((m.goto 0 .clearing).stage 0).published = _
      rw [goto_stage_self, hst, hpass]
      rfl
  · rintro rfl
    show ((m.goto 0 _).stage 0).owns = _
    rw [goto_stage_self, hst, if_pos rfl]
    split <;> rfl

/-- **Rank 0 publishes a range** that is free. -/
theorem publish (h : CommOk cfg c startA startR m) (hst : m.stage 0 = .searching)
    {offsets : List ℕ} (hlen : offsets.length = maxNumaNodes)
    (hfree : ∀ numa < maxNumaNodes, alignment ∣ offsets.getD numa 0 ∧
      offsets.getD numa 0 + alignUp (cfg.required c (m.returned 0).length numa) ≤
        cfg.capacity c (m.returned 0).length numa) :
    CommOk cfg c startA startR (m.publish offsets (cfg.regionBytes c (m.returned 0).length)) := by
  have hpos := cfg.parties_pos c
  have hsearching : (m.view 0).stage = .searching := hst
  have hv := h.view 0 hpos
  have hlength : (m.returned 0).length = m.release.passed 0 + (m.stage 0).got := hv.length
  have hpub := h.published
  rw [hst] at hlength hpub
  have hk : (m.returned 0).length = m.granted.length := hlength.trans hpub.symm
  have hnew : (m.granted ++ [offsets]).length - 1 = (m.returned 0).length := by
    rw [List.length_append, hk]
    rfl
  have hstage : (m.publish offsets (cfg.regionBytes c (m.returned 0).length)).stage 0 = .acquiring := by
    show (m.goto 0 .acquiring).stage 0 = _
    exact goto_stage_self m _
  refine ⟨h.acquire, h.release, ?_, ?_, ?_, ?_, ?_, ?_⟩
  · intro q hq
    show ((m.goto 0 .acquiring).view q).Ok _ _
    by_cases hq0 : q = 0
    · subst hq0
      rw [view_goto_self]
      exact (hv.mono (List.prefix_append _ _)).restage (by rw [hsearching]; rfl)
        (by rw [hsearching]; rfl) (by rw [hsearching]; rfl) (by rw [hsearching]; exact nofun)
        (by rw [hsearching]; exact nofun) (fun hl => hl.elim nofun nofun) nofun
    · rw [view_goto_ne m _ hq0]
      exact (h.view q hq).mono (List.prefix_append _ _)
  · rw [hstage]
    show (m.granted ++ [offsets]).length = m.release.passed 0 + 1
    rw [List.length_append, hpub]
    rfl
  · intro o ho
    rcases List.mem_append.1 ho with ho | ho
    · exact h.width o ho
    · rw [List.mem_singleton.1 ho]
      exact hlen
  · intro o ho numa
    change (m.granted ++ [offsets]).getLast? = some o at ho
    rw [List.getLast?_concat] at ho
    cases ho
    rfl
  · intro numa
    rw [hstage]
    show cfg.regionBytes c (m.returned 0).length numa =
      if Stage.acquiring.owns then cfg.regionBytes c ((m.granted ++ [offsets]).length - 1) numa else 0
    rw [hnew]
    exact (if_pos rfl).symm
  · intro _ numa hnuma
    show alignment ∣ offsets.getD numa 0 ∧
      offsets.getD numa 0 + cfg.regionBytes c (m.returned 0).length numa ≤
        cfg.capacity c ((m.granted ++ [offsets]).length - 1) numa
    rw [hnew, Config.regionBytes, if_pos hnuma]
    exact hfree numa hnuma

/-- **Rank 0 gives its range back.** -/
theorem clear (h : CommOk cfg c startA startR m) (hst : m.stage 0 = .clearing) :
    CommOk cfg c startA startR m.clear := by
  have hclearing : (m.view 0).stage = .clearing := hst
  have hstage : m.clear.stage 0 = .idle := by
    show (m.goto 0 .idle).stage 0 = _
    exact goto_stage_self m _
  refine ⟨h.acquire, h.release, ?_, ?_, h.width, h.offset, ?_, ?_⟩
  · intro q hq
    show ((m.goto 0 .idle).view q).Ok _ _
    by_cases hq0 : q = 0
    · subst hq0
      rw [view_goto_self]
      exact (h.view 0 hq).restage (by rw [hclearing]; rfl)
        (by rw [hclearing]; rfl) (by rw [hclearing]; rfl) (by rw [hclearing]; exact nofun)
        (by rw [hclearing]; exact nofun) (fun hl => hl.elim nofun nofun) nofun
    · rw [view_goto_ne m _ hq0]
      exact h.view q hq
  · have hpub := h.published
    rw [hst] at hpub
    rw [hstage]
    exact hpub
  · intro numa
    rw [hstage]
    exact (if_neg Bool.false_ne_true).symm
  · intro howns
    rw [hstage] at howns
    cases howns

end CommOk

/-! ## All communicators -/

/-- What holds in every state. -/
structure Sound (cfg : Config) (startA startR : ℕ → ℕ) (s : State) : Prop where
  comm : ∀ c, CommOk cfg c (startA c) (startR c) (s c)
  apart : Apart s

variable {startA startR : ℕ → ℕ}

theorem Sound.fitting (hs : Sound cfg startA startR s) : Fitting s := by
  intro c numa hne
  have hc := hs.comm c
  have hbytes := hc.bytes numa
  by_cases howns : ((s c).stage 0).owns = true
  · rw [if_pos howns] at hbytes
    have hnuma : numa < maxNumaNodes := by
      by_contra hno
      rw [Config.regionBytes, if_neg hno] at hbytes
      exact hne hbytes
    obtain ⟨haligned, hle⟩ := hc.inside howns numa hnuma
    refine ⟨haligned, ?_, Nat.lt_of_le_of_lt hle (cfg.capacity_lt _ _ _)⟩
    rw [hbytes, Config.regionBytes, if_pos hnuma]
    exact alignUp_dvd _
  · rw [if_neg howns] at hbytes
    exact absurd hbytes hne

/-- A communicator's range on a node stays, is given back, or is one that meets no other. -/
def Comm.Follows (s : State) (c : ℕ) (m : Comm) : Prop :=
  ∀ numa, m.bytes numa = 0 ∨
    m.offset numa = (s c).offset numa ∧ m.bytes numa = (s c).bytes numa ∨
    ∀ other < maxComms, other ≠ c → m.bytes numa = 0 ∨ (s other).bytes numa = 0 ∨
      m.offset numa + m.bytes numa ≤ (s other).offset numa ∨
      (s other).offset numa + (s other).bytes numa ≤ m.offset numa

/-- **A step of a rank keeps its communicator,** and takes no range of another one. -/
theorem Sound.rankStep (hs : Sound cfg startA startR s) (hlease : cfg.leaseDisabled = false)
    (hparties : cfg.parties c ≤ maxRanks) (hr : r < cfg.parties c) {m : Comm}
    (h : rankStep cfg s c r = some m) :
    CommOk cfg c (startA c) (startR c) m ∧ m.Follows s c := by
  have hc := hs.comm c
  have hexpected : cfg.expected c = cfg.parties c := by
    have hpos := cfg.parties_pos c
    unfold Config.expected
    omega
  have hstays : ∀ {m' : Comm}, m'.offset = (s c).offset → m'.bytes = (s c).bytes →
      m'.Follows s c := by
    intro m' ho hb numa
    exact .inr (.inl ⟨congrFun ho numa, congrFun hb numa⟩)
  unfold StagingRegions.rankStep at h
  dsimp only at h
  rw [hlease, hexpected] at h
  split at h
  case h_1 hst =>
    cases h
    exact ⟨hc.call hr hst, hstays rfl rfl⟩
  case h_2 hst =>
    obtain rfl : r = 0 := (hc.view r hr).leader (.inl hst)
    obtain ⟨fits, hfits, hm⟩ := Option.map_eq_some_iff.1 h
    cases fits with
    | none =>
      subst hm
      exact ⟨hc, hstays rfl rfl⟩
    | some offsets =>
      subst hm
      obtain ⟨hlen, hfree⟩ := candidates_range hs.fitting (cfg.capacity_lt _ _) hfits
      refine ⟨hc.publish hst hlen fun numa hnuma => ⟨(hfree numa hnuma).2.1, (hfree numa hnuma).1⟩, ?_⟩
      intro numa
      by_cases hnuma : numa < maxNumaNodes
      · refine .inr (.inr ?_)
        show ∀ other < maxComms, other ≠ c → cfg.regionBytes c ((s c).returned 0).length numa = 0 ∨
          (s other).bytes numa = 0 ∨
          offsets.getD numa 0 + cfg.regionBytes c ((s c).returned 0).length numa ≤
            (s other).offset numa ∨
          (s other).offset numa + (s other).bytes numa ≤ offsets.getD numa 0
        rw [Config.regionBytes, if_pos hnuma]
        exact (hfree numa hnuma).2.2
      · exact .inl (if_neg hnuma)
  case h_3 hst =>
    obtain ⟨gate, hgate, rfl⟩ := Option.map_eq_some_iff.1 h
    exact ⟨hc.acquireGate hr hst hgate, hstays rfl rfl⟩
  case h_4 seen hst =>
    by_cases hlen : seen.length < maxNumaNodes
    · rw [if_pos hlen] at h
      cases h
      exact ⟨hc.readOffset hr hst hlen, hstays rfl rfl⟩
    · rw [if_neg hlen] at h
      cases h
      exact ⟨hc.acquired hr hst hlen, hstays rfl rfl⟩
  case h_5 hst =>
    cases h
    exact ⟨hc.callRelease hr hst, hstays rfl rfl⟩
  case h_6 hst =>
    obtain ⟨gate, hgate, rfl⟩ := Option.map_eq_some_iff.1 h
    exact ⟨hc.releaseGate hr hst hgate, hstays rfl rfl⟩
  case h_7 hst =>
    obtain rfl : r = 0 := (hc.view r hr).leader (.inr hst)
    cases h
    exact ⟨hc.clear hst, fun numa => .inl rfl⟩

/-- Ranges stay apart. -/
theorem Apart.follow (h : Apart s) {m : Comm} (hc : c < maxComms) (hm : m.Follows s c) :
    Apart (Function.update s c m) := by
  have hnew : ∀ other numa, other < maxComms → other ≠ c →
      m.bytes numa = 0 ∨ (s other).bytes numa = 0 ∨
        m.offset numa + m.bytes numa ≤ (s other).offset numa ∨
        (s other).offset numa + (s other).bytes numa ≤ m.offset numa := by
    intro other numa hother hne
    rcases hm numa with hzero | ⟨ho, hb⟩ | hfree
    · exact .inl hzero
    · rw [ho, hb]
      exact h c other numa hc hother hne.symm
    · exact hfree other hother hne
  intro a b numa ha hb hab
  by_cases hac : a = c
  · subst hac
    rw [Function.update_self, Function.update_of_ne hab.symm]
    exact hnew b numa hb hab.symm
  · rw [Function.update_of_ne hac]
    by_cases hbc : b = c
    · subst hbc
      rw [Function.update_self]
      rcases hnew a numa ha hac with h1 | h2 | h3 | h4
      · exact .inr (.inl h1)
      · exact .inl h2
      · exact .inr (.inr (.inr h3))
      · exact .inr (.inr (.inl h4))
    · rw [Function.update_of_ne hbc]
      exact h a b numa ha hb hab

theorem Sound.step (hs : Sound cfg startA startR s) (hlease : cfg.leaseDisabled = false)
    (hparties : ∀ c, cfg.parties c ≤ maxRanks) {l : Label} (h : step cfg s l = some s') :
    Sound cfg startA startR s' := by
  unfold StagingRegions.step at h
  split at h
  · rename_i hl
    obtain ⟨m, hm, rfl⟩ := Option.map_eq_some_iff.1 h
    obtain ⟨hok, hfollows⟩ := hs.rankStep hlease (hparties _) hl.2 hm
    refine ⟨?_, hs.apart.follow hl.1 hfollows⟩
    intro c
    by_cases hc : c = l.comm
    · subst hc
      rw [Function.update_self]
      exact hok
    · rw [Function.update_of_ne hc]
      exact hs.comm c
  · cases h

theorem Sound.initial (cfg : Config) (offset : ℕ → ℕ → ℕ) (acquire release : ℕ → ℕ) :
    Sound cfg acquire release (initial offset acquire release) := by
  refine ⟨?_, fun _ _ _ _ _ _ => .inl rfl⟩
  intro c
  refine ⟨.init (cfg.parties_pos c) _, .init (cfg.parties_pos c) _, ?_, rfl, ?_, ?_, fun _ => rfl, ?_⟩
  · intro r _
    exact ⟨rfl, rfl, rfl, fun _ => rfl, fun _ => rfl, fun hl => hl.elim nofun nofun, nofun,
      List.nil_prefix⟩
  · intro offsets ho
    cases ho
  · intro offsets ho
    cases ho
  · intro howns
    cases howns

/-- **What is held is what rank 0's words say.** -/
theorem CommOk.held {a b : ℕ} (hc : CommOk cfg c a b (s c)) {k : ℕ} {offsets : List ℕ}
    (hheld : Held cfg s c k offsets) : ∀ numa < maxNumaNodes,
      (s c).offset numa = offsets.getD numa 0 ∧
      (s c).bytes numa = alignUp (cfg.required c k numa) ∧
      (s c).offset numa + (s c).bytes numa ≤ cfg.capacity c k numa := by
  obtain ⟨⟨r, hr, hget⟩, q, hq, hcalled⟩ := hheld
  have hv := hc.view r hr
  have hacquired : (s c).acquire.passed r = (s c).release.passed r + ((s c).stage r).inside :=
    hv.acquired
  have hlength : ((s c).returned r).length = (s c).release.passed r + ((s c).stage r).got := hv.length
  have hlt := (List.getElem?_eq_some_iff.1 hget).1
  have hpassed : k < (s c).acquire.passed r := by
    have hle : ((s c).stage r).got ≤ ((s c).stage r).inside := by
      cases (s c).stage r <;> simp [Stage.got, Stage.inside]
    omega
  obtain ⟨hgranted, -, howns⟩ := hc.current hr hq hpassed hcalled
  have hlast : (s c).granted.getLast? = some offsets := by
    obtain ⟨rest, hrest⟩ : (s c).returned r <+: (s c).granted := hv.returned
    rw [List.getLast?_eq_getElem?, hgranted, ← hrest, Nat.add_sub_cancel,
      List.getElem?_append_left hlt]
    exact hget
  intro numa hnuma
  have hbytes := hc.bytes numa
  have hinside := (hc.inside howns numa hnuma).2
  rw [if_pos howns, hgranted, Nat.add_sub_cancel, Config.regionBytes, if_pos hnuma] at hbytes
  rw [hgranted, Nat.add_sub_cancel] at hinside
  exact ⟨hc.offset offsets hlast numa, hbytes, hinside⟩

theorem Sound.separate (hs : Sound cfg startA startR s) : Separate cfg s := by
  intro c hcc k offsets hheld numa hnuma
  obtain ⟨ho, hb, hle⟩ := (hs.comm c).held hheld numa hnuma
  dsimp only
  rw [← ho, ← hb]
  refine ⟨hle, ?_⟩
  intro c' hc' hne k' offsets' hheld'
  obtain ⟨ho', hb', -⟩ := (hs.comm c').held hheld' numa hnuma
  rw [← ho', ← hb']
  exact hs.apart c c' numa hcc hc' hne.symm

theorem Sound.sameOffsets (hs : Sound cfg startA startR s) : SameOffsets cfg s := by
  intro c _ r hr q hq k offsets offsets' hget hget'
  obtain ⟨rest, hrest⟩ : (s c).returned r <+: (s c).granted := ((hs.comm c).view r hr).returned
  obtain ⟨rest', hrest'⟩ : (s c).returned q <+: (s c).granted := ((hs.comm c).view q hq).returned
  have h : ((s c).returned r ++ rest)[k]? = ((s c).returned r)[k]? :=
    List.getElem?_append_left (List.getElem?_eq_some_iff.1 hget).1
  have h' : ((s c).returned q ++ rest')[k]? = ((s c).returned q)[k]? :=
    List.getElem?_append_left (List.getElem?_eq_some_iff.1 hget').1
  rw [hrest, hget] at h
  rw [hrest', hget', h] at h'
  exact Option.some.inj h'

/-- **Regions are separate.**  With the lease in use and at most `MAX_RANKS` ranks in each
communicator, in every state of every run every search ends, the ranges held by communicators are
disjoint and inside the pool until every rank has called release, and the ranks of a communicator
have the same offsets. -/
theorem regions_separate (cfg : Config) (hlease : cfg.leaseDisabled = false)
    (hparties : ∀ c, cfg.parties c ≤ maxRanks) (offset : ℕ → ℕ → ℕ) (acquire release : ℕ → ℕ)
    {labels : List Label} {s : State}
    (hrun : (machine cfg).runFrom Machine.anyStep (initial offset acquire release) labels = some s) :
    SearchEnds s ∧ Separate cfg s ∧ SameOffsets cfg s := by
  have hs := (machine cfg).invariant (I := Sound cfg acquire release)
    (fun s l s' hs _ hstep => hs.step hlease hparties hstep) (Sound.initial cfg _ _ _) hrun
  exact ⟨hs.fitting.searchEnds, hs.separate, hs.sameOffsets⟩

/-! ## Two communicators -/

/-- Every communicator of `parties` ranks asks for `bytes` on node 0 of a pool of 8 GiB. -/
def uniform (parties : ℕ → ℕ) (hpos : ∀ c, 0 < parties c) (bytes : ℕ) (leaseDisabled : Bool) :
    Config where
  parties := parties
  parties_pos := hpos
  required := fun _ _ numa => if numa = 0 then bytes else 0
  capacity := fun _ _ numa => if numa = 0 then 8589934592 else 0
  capacity_lt := by
    intro _ _ numa
    split <;> decide
  leaseDisabled := leaseDisabled

/-- A rank takes some steps. -/
def rankSteps (c r n : ℕ) : List Label := List.replicate n ⟨c, r⟩

/-- Both ranks of a communicator acquire a region. -/
def acquireBoth (c : ℕ) : List Label :=
  rankSteps c 0 4 ++ rankSteps c 1 5 ++ rankSteps c 0 1 ++ rankSteps c 1 9 ++ rankSteps c 0 9

def noWords : State := initial (fun _ _ => 0) (fun _ => 0) fun _ => 0

/-- Two communicators of two ranks. -/
def twoRanks : Config := uniform (fun _ => 2) (fun _ => Nat.two_pos) 2684354560 false

theorem regions_separate_two : ∃ s,
    (machine twoRanks).runFrom Machine.anyStep noWords (acquireBoth 0 ++ acquireBoth 1) = some s ∧
      ((s 0).returned 0, (s 1).returned 1) =
        ([[0, 0, 0, 0, 0, 0, 0, 0]], [[2684354560, 0, 0, 0, 0, 0, 0, 0]]) ∧
      SearchEnds s ∧ Separate twoRanks s ∧ SameOffsets twoRanks s := by
  have hobs : ((machine twoRanks).runFrom Machine.anyStep noWords
      (acquireBoth 0 ++ acquireBoth 1)).map (fun s => ((s 0).returned 0, (s 1).returned 1)) =
      some ([[0, 0, 0, 0, 0, 0, 0, 0]], [[2684354560, 0, 0, 0, 0, 0, 0, 0]]) := by decide +kernel
  obtain ⟨s, hrun, hret⟩ := Option.map_eq_some_iff.1 hobs
  exact ⟨s, hrun, hret,
    regions_separate twoRanks rfl (fun _ => (by decide : 2 ≤ maxRanks)) (fun _ _ => 0) (fun _ => 0) (fun _ => 0) hrun⟩

/-- Two communicators of one rank, without the lease. -/
def noLease : Config := uniform (fun _ => 1) (fun _ => Nat.one_pos) 4096 true

/-- A communicator of nine ranks and one of one rank. -/
def nineRanks : Config :=
  uniform (fun c => if c = 0 then 9 else 1) (by intro c; split <;> decide) 4096 false

/-- All ranks but rank 0 pass the barrier of the first communicator, then the second one
acquires. -/
def withoutLeader : List Label :=
  (List.range 7).flatMap (fun i => rankSteps 0 (i + 1) 3) ++ rankSteps 0 8 14 ++ rankSteps 1 0 15

theorem alignUp_page : alignUp 4096 = 2097152 := by decide +kernel

/-- Two communicators that hold the first bytes of the pool. -/
theorem not_separate (cfg : Config) {s : State} (r : ℕ) (hr : r < cfg.parties 0)
    (hbytes : ∀ c, alignUp (cfg.required c 0 0) = 2097152)
    (h : ((s 0).returned r, (s 0).called 0, (s 1).returned 0, (s 1).called 0) =
      ([List.replicate 8 0], 0, [List.replicate 8 0], 0)) : ¬ Separate cfg s := by
  intro hsep
  simp only [Prod.mk.injEq] at h
  obtain ⟨h0, hc0, h1, hc1⟩ := h
  have hheld : Held cfg s 0 0 (List.replicate 8 0) :=
    ⟨⟨r, hr, by rw [h0]; rfl⟩, 0, cfg.parties_pos 0, hc0.le⟩
  have hheld' : Held cfg s 1 0 (List.replicate 8 0) :=
    ⟨⟨0, cfg.parties_pos 1, by rw [h1]; rfl⟩, 0, cfg.parties_pos 1, hc1.le⟩
  have hmeet := (hsep 0 (by decide) 0 _ hheld 0 (by decide)).2 1 (by decide) (by decide) 0 _ hheld'
  rw [hbytes, hbytes] at hmeet
  revert hmeet
  decide

/-- **Regions meet** without the lease, and with a ninth rank. -/
theorem regions_meet :
    (¬ ∀ labels s, (machine noLease).runFrom Machine.anyStep noWords labels = some s →
      Separate noLease s) ∧
    ¬ ∀ labels s, (machine nineRanks).runFrom Machine.anyStep noWords labels = some s →
      Separate nineRanks s := by
  constructor
  · intro hall
    have hobs : ((machine noLease).runFrom Machine.anyStep noWords
        (rankSteps 0 0 1 ++ rankSteps 1 0 1)).map (fun s => ((s 0).returned 0, (s 0).called 0,
          (s 1).returned 0, (s 1).called 0)) =
        some ([List.replicate 8 0], 0, [List.replicate 8 0], 0) := by decide +kernel
    obtain ⟨s, hrun, hs⟩ := Option.map_eq_some_iff.1 hobs
    exact not_separate noLease 0 (by decide) (fun _ => alignUp_page) hs (hall _ s hrun)
  · intro hall
    have hobs : ((machine nineRanks).runFrom Machine.anyStep noWords withoutLeader).map
        (fun s => ((s 0).returned 8, (s 0).called 0, (s 1).returned 0, (s 1).called 0)) =
        some ([List.replicate 8 0], 0, [List.replicate 8 0], 0) := by decide +kernel
    obtain ⟨s, hrun, hs⟩ := Option.map_eq_some_iff.1 hobs
    exact not_separate nineRanks 8 (by decide) (fun _ => alignUp_page) hs (hall _ s hrun)

end StagingRegions
end Ascend
end HyLink
