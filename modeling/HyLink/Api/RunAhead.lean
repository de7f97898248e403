import Mathlib.Data.Nat.Count
import HyLink.Api.Binding

/-!
# Whose buffers are found?

A lookup finds what is registered at that time, and a mapping lasts as long as an entry holds it.
So an access goes to the buffer of its own call if ranks do not run ahead of a lookup, do not look
where a rank has not come yet, and keep what is in use.

* `Rank.awaits` — the lookups a rank has still to make.
* `orderly` — the condition on a step.
* `Entries` — what a rank has mapped; `Entries.lookup` is what a lookup keeps.
-/

namespace HyLink
namespace Api
namespace Binding

open Function (update)

section

variable (C : Config)

/-! ## The condition -/

/-- The call may look up the buffer of a peer. -/
def Config.mayLook (rank call peer : ℕ) (kind : Kind) : Bool :=
  match C.path rank call with
  | .small => kind = .input && C.deviceIpcNeeded && C.pairDirectAllowed rank peer
  | .graph => (peer, kind) ∈ C.lookups rank call

def Host.awaits (rank call peer : ℕ) (kind : Kind) : Host → Bool
  | .registered n | .waiting n => call = n && C.mayLook rank call peer kind
  | .binding n rest _ => call = n && (peer, kind) ∈ rest
  | .outside | .failed => false

/-- The worker has still to look up the peer for the call, if it is a direct source. -/
def Worker.awaits (rank call peer : ℕ) : Worker → Bool
  | .begun w | .probing w _ | .resolving w => w.call = call
  | .gathering w allDirect rest _ =>
    w.call = call && peer ∈ rest && C.allowRemoteDirect rank call allDirect
  | .idle | .waiting _ | .failed => false

/-- The rank has still to look up a buffer of the peer for the call. -/
def Rank.awaits (k : Rank) (rank call peer : ℕ) (kind : Kind) : Bool :=
  (k.calls ≤ call && C.mayLook rank call peer kind) ||
    k.host.awaits C rank call peer kind ||
    ((kind = .input && C.deviceIpcNeeded && C.pairDirectAllowed rank peer) &&
      (k.queue.any (fun w => w.call = call) || k.worker.awaits C rank call peer))

/-- Two buffers at one address are in one allocation. -/
def Buffer.consistent (b b' : Buffer) : Bool :=
  (b.base ≠ b'.base || b.allocation = b'.allocation) && (b.ptr ≠ b'.ptr || b.base = b'.base)

/-- Whoever has still to look up a buffer of an earlier call finds the same, and no address is
used again for another allocation. -/
def mayRegister (s : State) (r : ℕ) : Bool :=
  (List.range (s.rank r).calls).all fun n =>
    [Kind.input, .output].all fun kind =>
      (C.buffer r n kind).consistent (C.buffer r (s.rank r).calls kind) &&
        (List.range C.worldSize).all fun q =>
          q = r || !(s.rank q).awaits C q n r kind ||
            C.buffer r (s.rank r).calls kind = C.buffer r n kind

/-- The peer has registered the buffer of the call, or one that is the same. -/
def registeredFor (s : State) (call peer : ℕ) (kind : Kind) : Bool :=
  call < (s.rank peer).calls || s.registered peer kind = some (C.buffer peer call kind)

/-- The address in mapped memory. -/
def Target.base : Target → Option ℕ
  | .own _ => none
  | .mapped base _ => some base

/-- The pointers that the rank may still use, each with its call. -/
def Rank.held (k : Rank) : List (ℕ × Pointer) :=
  (match k.host with
    | .binding n _ bound => bound.map fun p => (n, p)
    | _ => []) ++
  (match k.worker with
    | .gathering w _ _ bound => bound.map fun p => (w.call, p)
    | _ => []) ++
  k.graphs.flatMap fun g => g.bound.map fun p => (g.call, p)

/-- An entry other than the key's holds the address. -/
def Rank.heldElsewhere (k : Rank) (key : ℕ × Kind) (address : ℕ) : Bool :=
  C.keys.any fun other => other ≠ key && (k.entry other).any fun d => d.mappedBase = address

/-- If the lookup unmaps something, no pointer goes there. -/
def mayRelease (s : State) (r : ℕ) (key : ℕ × Kind) : Bool :=
  (s.record key.1 key.2).all fun record =>
    ((s.rank r).entry key).all fun c =>
      c.baseAddr = record.baseAddr ||
        (s.rank r).held.all fun p =>
          p.2.target.base ≠ some c.mappedBase || (s.rank r).heldElsewhere C key c.mappedBase

/-- The condition on a step. -/
def orderly (s : State) : Label → Bool
  | .register r => mayRegister C s r
  | .bind r _ =>
    match (s.rank r).host with
    | .binding n (key :: _) _ =>
      (C.hasRemoteD2d r n || registeredFor C s n key.1 key.2) && mayRelease C s r key
    | _ => true
  | .probe r _ =>
    match (s.rank r).worker with
    | .probing w (source :: _) =>
      registeredFor C s w.call source .input && mayRelease C s r (source, .input)
    | _ => true
  | .gather r _ =>
    match (s.rank r).worker with
    | .gathering _ _ (source :: _) _ => mayRelease C s r (source, .input)
    | _ => true
  | _ => true

/-- The ranks go the same way with every call. -/
def Config.SameCalls : Prop :=
  ∀ r q n, r < C.worldSize → q < C.worldSize →
    C.path r n = C.path q n ∧ C.hasRemoteD2d r n = C.hasRemoteD2d q n

end

variable {C : Config} {s s' : State} {k k' : Rank} {r q : ℕ} {key : ℕ × Kind}

theorem Config.mem_keys : key ∈ C.keys ↔ key.1 < C.worldSize := by
  obtain ⟨q, kind⟩ := key
  cases kind <;> simp [Config.keys]

theorem Config.mem_lookups {n : ℕ} (h : key ∈ C.lookups r n) :
    key.1 < C.worldSize ∧ key.1 ≠ r := by
  obtain ⟨hmem, hkey⟩ := List.mem_filter.1 h
  refine ⟨Config.mem_keys.1 hmem, ?_⟩
  simp only [Bool.and_eq_true, decide_eq_true_eq] at hkey
  exact hkey.1

theorem Config.mem_sources : q ∈ C.sources r ↔ q < C.worldSize ∧ q ≠ r := by
  simp [Config.sources]

/-! ## What is mapped -/

@[simp] theorem Rank.entry_setEntry_self {c : Option Remote} : (k.setEntry key c).entry key = c := by
  simp [Rank.entry, Rank.setEntry]

theorem Rank.entry_setEntry_ne {c : Option Remote} {other : ℕ × Kind} (h : other ≠ key) :
    (k.setEntry key c).entry other = k.entry other := by
  obtain ⟨q, kind⟩ := other
  by_cases hq : q = key.1
  · subst hq
    have hkind : kind ≠ key.2 := fun e => h (by rw [e])
    simp [Rank.entry, Rank.setEntry, Function.update_of_ne hkind]
  · simp [Rank.entry, Rank.setEntry, Function.update_of_ne hq]

/-- The entries of a rank, where every rank has begun so many calls. -/
structure Entries (C : Config) (calls : ℕ → ℕ) (k : Rank) : Prop where
  inWorld : ∀ key c, k.entry key = some c → key.1 < C.worldSize
  /-- An entry has the memory of a buffer that was registered. -/
  origin : ∀ key c, k.entry key = some c →
    ∃ n < calls key.1, c.baseAddr = (C.buffer key.1 n key.2).base ∧
      c.allocation = (C.buffer key.1 n key.2).allocation
  /-- At one address there is one allocation. -/
  shared : ∀ key key' c c', k.entry key = some c → k.entry key' = some c' →
    c.mappedBase = c'.mappedBase → c.allocation = c'.allocation

namespace Entries

variable {calls calls' : ℕ → ℕ} {c : Remote}

theorem initial : Entries C calls .initial where
  inWorld _ _ h := by simp [Rank.initial, Rank.entry] at h
  origin _ _ h := by simp [Rank.initial, Rank.entry] at h
  shared _ _ _ _ h := by simp [Rank.initial, Rank.entry] at h

theorem mono (h : Entries C calls k) (hle : ∀ q, calls q ≤ calls' q) : Entries C calls' k where
  inWorld := h.inWorld
  origin key c hc := by
    obtain ⟨n, hn, horigin⟩ := h.origin key c hc
    exact ⟨n, hn.trans_le (hle _), horigin⟩
  shared := h.shared

theorem congr (h : Entries C calls k) (he : k'.remoteIpc = k.remoteIpc) : Entries C calls k' := by
  have hentry : k'.entry = k.entry := by
    funext key
    simp [Rank.entry, he]
  constructor
  · rw [hentry]; exact h.inWorld
  · rw [hentry]; exact h.origin
  · rw [hentry]; exact h.shared

/-- The memory of an entry is mapped. -/
theorem mappedAt (h : Entries C calls k) (hc : k.entry key = some c) :
    k.mappedAt C c.mappedBase = some c.allocation := by
  have hsome : (k.mappedAt C c.mappedBase).isSome := by
    rw [Rank.mappedAt, List.findSome?_isSome_iff]
    exact ⟨key, Config.mem_keys.2 (h.inWorld key c hc), by simp [hc]⟩
  obtain ⟨a, ha⟩ := Option.isSome_iff_exists.1 hsome
  obtain ⟨key', -, hkey'⟩ := List.exists_of_findSome?_eq_some ha
  obtain ⟨d, hd, rfl⟩ := Option.map_eq_some_iff.1 hkey'
  obtain ⟨hentry, hbase⟩ := Option.filter_eq_some_iff.1 hd
  rw [ha, h.shared key' key d c hentry hc (by simpa using hbase)]

/-- What is mapped is the memory of an entry. -/
theorem of_mappedAt {address a : ℕ} (h : k.mappedAt C address = some a) :
    ∃ key c, k.entry key = some c ∧ c.mappedBase = address ∧ c.allocation = a := by
  obtain ⟨key, -, hkey⟩ := List.exists_of_findSome?_eq_some h
  obtain ⟨c, hc, rfl⟩ := Option.map_eq_some_iff.1 hkey
  obtain ⟨hentry, hbase⟩ := Option.filter_eq_some_iff.1 hc
  exact ⟨key, c, hentry, by simpa using hbase, rfl⟩

/-- Memory stays mapped if an entry still has it. -/
theorem place_of_kept (h : Entries C calls k') {t : Target} {p : Place}
    (hp : k.place C t = some p)
    (hkept : ∀ other d, k.entry other = some d → t.base = some d.mappedBase →
      ∃ other' d', k'.entry other' = some d' ∧ d'.mappedBase = d.mappedBase ∧
        d'.allocation = d.allocation) :
    k'.place C t = some p := by
  cases t with
  | own place => exact hp
  | mapped base offset =>
    obtain ⟨a, ha, rfl⟩ := Option.map_eq_some_iff.1 hp
    obtain ⟨other, d, hd, rfl, rfl⟩ := of_mappedAt ha
    obtain ⟨other', d', hd', hbase, halloc⟩ := hkept other d hd rfl
    have hmapped := h.mappedAt hd'
    rw [hbase, halloc] at hmapped
    simp [Rank.place, hmapped]

/-- Another entry at a key. -/
theorem setEntry (h : Entries C calls k) (hworld : key.1 < C.worldSize)
    (horigin : ∃ n < calls key.1, c.baseAddr = (C.buffer key.1 n key.2).base ∧
      c.allocation = (C.buffer key.1 n key.2).allocation)
    (hshared : ∀ other d, other ≠ key → k.entry other = some d → d.mappedBase = c.mappedBase →
      d.allocation = c.allocation) : Entries C calls (k.setEntry key (some c)) := by
  refine ⟨fun other d hd => ?_, fun other d hd => ?_, fun other other' d d' hd hd' hbase => ?_⟩
  · by_cases hother : other = key
    · rw [hother]; exact hworld
    · rw [Rank.entry_setEntry_ne hother] at hd
      exact h.inWorld other d hd
  · by_cases hother : other = key
    · subst hother
      rw [Rank.entry_setEntry_self, Option.some.injEq] at hd
      rwa [← hd]
    · rw [Rank.entry_setEntry_ne hother] at hd
      exact h.origin other d hd
  · by_cases hother : other = key
    · by_cases hother' : other' = key
      · rw [hother, Rank.entry_setEntry_self, Option.some.injEq] at hd
        rw [hother', Rank.entry_setEntry_self, Option.some.injEq] at hd'
        rw [← hd, ← hd']
      · rw [hother, Rank.entry_setEntry_self, Option.some.injEq] at hd
        rw [Rank.entry_setEntry_ne hother'] at hd'
        subst hd
        exact (hshared other' d' hother' hd' hbase.symm).symm
    · rw [Rank.entry_setEntry_ne hother] at hd
      by_cases hother' : other' = key
      · rw [hother', Rank.entry_setEntry_self, Option.some.injEq] at hd'
        subst hd'
        exact hshared other d hother hd hbase
      · rw [Rank.entry_setEntry_ne hother'] at hd'
        exact h.shared other other' d d' hd hd' hbase

theorem clear (h : Entries C calls k) : Entries C calls (k.setEntry key none) := by
  have hof : ∀ other d, (k.setEntry key none).entry other = some d → k.entry other = some d := by
    intro other d hd
    by_cases hother : other = key
    · rw [hother, Rank.entry_setEntry_self] at hd
      cases hd
    · rwa [Rank.entry_setEntry_ne hother] at hd
  exact ⟨fun other d hd => h.inWorld other d (hof other d hd),
    fun other d hd => h.origin other d (hof other d hd),
    fun other other' d d' hd hd' => h.shared other other' d d' (hof other d hd) (hof other' d' hd')⟩

theorem openHandle {record : Record} {address : ℕ} {found : Rank × Target} (h : Entries C calls k)
    (hworld : key.1 < C.worldSize)
    (horigin : ∃ n < calls key.1, record.baseAddr = (C.buffer key.1 n key.2).base ∧
      record.handle = (C.buffer key.1 n key.2).allocation)
    (hl : k.openHandle C key record address = some found) :
    found = (k.setEntry key (some
        ⟨address, record.handle, record.baseAddr, record.offset, record.seq⟩),
      .mapped address record.offset) ∧ Entries C calls found.1 := by
  obtain ⟨hmap, hfound⟩ := Option.ite_none_right_eq_some.1 hl
  cases hfound
  refine ⟨rfl, h.setEntry hworld horigin fun other d _ hd hbase => ?_⟩
  have hall := List.all_eq_true.1 hmap other (Config.mem_keys.2 (h.inWorld other d hd))
  rw [hd, Option.all_some] at hall
  simpa [hbase] using hall

/-- The target of an entry leads to its memory. -/
theorem place_entry {c : Remote} {offset : ℕ} (h : Entries C calls k) (hc : k.entry key = some c) :
    k.place C (.mapped c.mappedBase offset) = some (c.allocation, offset) := by
  simp [Rank.place, h.mappedAt hc]

end Entries

/-! ## What a lookup finds -/

/-- The buffer is what a lookup of the key finds. -/
structure Found (s : State) (key : ℕ × Kind) (b : Buffer) : Prop where
  registered : s.registered key.1 key.2 = some b
  record : ∀ record, s.record key.1 key.2 = some record →
    record.baseAddr = b.base ∧ record.offset = b.offset ∧ record.handle = b.allocation

/-- The buffers that share a base share an allocation. -/
def Consistent (C : Config) (calls : ℕ → ℕ) : Prop :=
  ∀ q kind n m, n < calls q → m < calls q →
    (C.buffer q n kind).base = (C.buffer q m kind).base →
    (C.buffer q n kind).allocation = (C.buffer q m kind).allocation

/-- What the rank has mapped does not go away under a pointer: if the lookup replaces the entry
that holds the address, another entry holds it too. -/
def Kept (s : State) (k : Rank) (key : ℕ × Kind) (t : Target) : Prop :=
  ∀ record c, s.record key.1 key.2 = some record → k.entry key = some c →
    t.base = some c.mappedBase → c.baseAddr ≠ record.baseAddr →
    ∃ other d, other ≠ key ∧ k.entry other = some d ∧ d.mappedBase = c.mappedBase

/-- A lookup that leads to a place, and what it leaves as it is. -/
structure Looked (C : Config) (calls : ℕ → ℕ) (s : State) (k : Rank) (key : ℕ × Kind)
    (found : Rank × Target) (p : Place) : Prop where
  rank : ∃ entries, found.1 = { k with remoteIpc := entries }
  entries : Entries C calls found.1
  place : found.1.place C found.2 = some p
  kept : ∀ t p, k.place C t = some p → Kept s k key t → found.1.place C t = some p

/-- **A lookup** leads to the buffer that is registered, and a pointer that is in use still goes
where it went. -/
theorem Entries.getRemoteDeviceBuffer {calls : ℕ → ℕ} {m address : ℕ} {record : Record}
    {found : Rank × Target} (h : Entries C calls k) (hcons : Consistent C calls)
    (hworld : key.1 < C.worldSize) (hm : m < calls key.1)
    (hrecord : s.record key.1 key.2 = some record)
    (hfound : Found s key (C.buffer key.1 m key.2))
    (hl : k.getRemoteDeviceBuffer C key record address = some found) :
    Looked C calls s k key found (C.buffer key.1 m key.2).place := by
  obtain ⟨hbase, hoffset, hhandle⟩ := hfound.record record hrecord
  have hplace : (record.handle, record.offset) = (C.buffer key.1 m key.2).place := by
    rw [hhandle, hoffset]
    rfl
  have hnew : ∀ k₀ : Rank, Entries C calls k₀ →
      k₀.openHandle C key record address = some found →
      (∀ other, other ≠ key → k₀.entry other = k.entry other) →
      (∃ entries, found.1 = { k with remoteIpc := entries }) →
      (∀ c, k.entry key = some c → c.baseAddr ≠ record.baseAddr) →
      Looked C calls s k key found (C.buffer key.1 m key.2).place := by
    intro k₀ h₀ hopen hothers hrank hne
    obtain ⟨rfl, hentries⟩ := h₀.openHandle hworld ⟨m, hm, hbase, hhandle⟩ hopen
    refine ⟨hrank, hentries, ?_, fun t p hp hkept => hentries.place_of_kept hp ?_⟩
    · rw [← hplace]
      exact hentries.place_entry Rank.entry_setEntry_self
    · intro other d hd ht
      by_cases hother : other = key
      · subst hother
        obtain ⟨other', d', hother', hd', hd'base⟩ := hkept record d hrecord hd ht (hne d hd)
        refine ⟨other', d', ?_, hd'base, h.shared other' other d' d hd' hd hd'base⟩
        rw [Rank.entry_setEntry_ne hother', hothers other' hother', hd']
      · exact ⟨other, d, by rw [Rank.entry_setEntry_ne hother, hothers other hother, hd], rfl, rfl⟩
  unfold Rank.getRemoteDeviceBuffer at hl
  split at hl
  case h_1 hnone =>
    refine hnew k h hl (fun _ _ => rfl) ?_ fun c hc => by rw [hnone] at hc; cases hc
    obtain ⟨rfl, -⟩ := h.openHandle hworld ⟨m, hm, hbase, hhandle⟩ hl
    exact ⟨_, rfl⟩
  case h_2 c hc =>
    obtain ⟨n, hn, hcbase, hcalloc⟩ := h.origin key c hc
    have halloc : c.baseAddr = record.baseAddr → c.allocation = record.handle := by
      intro heq
      rw [hcalloc, hhandle]
      exact hcons key.1 key.2 n m hn hm (by rw [← hcbase, heq, hbase])
    split at hl
    case isTrue hsame =>
      cases hl
      refine ⟨⟨k.remoteIpc, rfl⟩, h, ?_, fun t p hp _ => hp⟩
      rw [← hplace, ← halloc hsame.2.1, ← hsame.2.2]
      exact h.place_entry hc
    case isFalse =>
      split at hl
      case isTrue heq =>
        cases hl
        have hentries : Entries C calls (k.setEntry key
            (some { c with offset := record.offset, seq := record.seq })) := by
          refine h.setEntry hworld ⟨n, hn, hcbase, hcalloc⟩ fun other d _ hd hdbase => ?_
          exact h.shared other key d c hd hc hdbase
        refine ⟨⟨_, rfl⟩, hentries, ?_, fun t p hp _ => hentries.place_of_kept hp ?_⟩
        · rw [← hplace, ← halloc heq]
          exact hentries.place_entry
            (c := { c with offset := record.offset, seq := record.seq }) Rank.entry_setEntry_self
        · intro other d hd _
          by_cases hother : other = key
          · subst hother
            obtain rfl : c = d := Option.some.inj (hc.symm.trans hd)
            exact ⟨other, _, Rank.entry_setEntry_self, rfl, rfl⟩
          · exact ⟨other, d, by rw [Rank.entry_setEntry_ne hother, hd], rfl, rfl⟩
      case isFalse hne =>
        refine hnew _ h.clear hl (fun other hother => Rank.entry_setEntry_ne hother) ?_ ?_
        · obtain ⟨rfl, -⟩ := h.clear.openHandle hworld ⟨m, hm, hbase, hhandle⟩ hl
          exact ⟨_, rfl⟩
        · intro d hd
          obtain rfl : c = d := Option.some.inj (hc.symm.trans hd)
          exact hne

theorem Entries.lookup {calls : ℕ → ℕ} {m address : ℕ} {found : Rank × Target}
    (h : Entries C calls k) (hcons : Consistent C calls) (hworld : key.1 < C.worldSize)
    (hm : m < calls key.1) (hfound : Found s key (C.buffer key.1 m key.2))
    (hl : lookup C s k key address = some found) :
    Looked C calls s k key found (C.buffer key.1 m key.2).place := by
  unfold Binding.lookup at hl
  split at hl
  · obtain ⟨record, hrecord, hget⟩ := Option.bind_eq_some_iff.1 hl
    exact h.getRemoteDeviceBuffer hcons hworld hm hrecord hfound hget
  · obtain ⟨b, hb, rfl⟩ := Option.map_eq_some_iff.1 hl
    obtain rfl : b = C.buffer key.1 m key.2 := Option.some.inj (hb.symm.trans hfound.registered)
    exact ⟨⟨k.remoteIpc, rfl⟩, h, rfl, fun t p hp _ => hp⟩

end Binding
end Api
end HyLink
