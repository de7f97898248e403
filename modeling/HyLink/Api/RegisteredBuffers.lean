import HyLink.Api.RunAhead

/-!
# What is registered while the ranks go on

The registered buffers of a rank are those of its last call.  In an orderly run, whoever has still
to look finds the buffer of its own call all the same.

* `Order` — how far a rank is, in the numbers of its calls, works and barriers.
* `Inv` — what holds of the ranks and of what is registered.
* `Inv.register` — a rank registers the buffers of its next call.
* `Inv.moved` — a rank does something else, if that keeps what `Moved` says.
-/

namespace HyLink
namespace Api
namespace Binding

open Function (update)

/-! ## How far a rank is -/

section

variable (C : Config)

/-- A call that is handled as a small message. -/
def Config.Small (n : ℕ) : Prop := C.path 0 n = .small

instance : DecidablePred C.Small := fun n => decEq (C.path 0 n) .small

/-- A call with a barrier before its lookups. -/
def Config.Barred (n : ℕ) : Prop := C.path 0 n = .graph ∧ C.hasRemoteD2d 0 n = true

instance : DecidablePred C.Barred := fun n =>
  inferInstanceAs (Decidable (C.path 0 n = .graph ∧ C.hasRemoteD2d 0 n = true))

/-- The sequence number of a work is that of its call. -/
structure Work.Numbered (calls : ℕ) (w : Work) : Prop where
  small : C.Small w.call
  seq : w.seq = Nat.count C.Small w.call + 1
  lt : w.call < calls

/-- Where the host thread of a rank is: the barriers it has entered and the works it has submitted
are those of its calls. -/
def Host.Order (calls : ℕ → ℕ) (r : ℕ) (k : Rank) : Host → Prop
  | .outside =>
    k.entered = Nat.count C.Barred k.calls ∧ k.workSeq = Nat.count C.Small k.calls
  | .registered n =>
    k.calls = n + 1 ∧ k.entered = Nat.count C.Barred n ∧ k.workSeq = Nat.count C.Small n
  | .waiting n =>
    k.calls = n + 1 ∧ k.entered = Nat.count C.Barred (n + 1) ∧
      k.workSeq = Nat.count C.Small (n + 1) ∧ C.Barred n
  | .binding n rest _ =>
    k.calls = n + 1 ∧ k.entered = Nat.count C.Barred (n + 1) ∧
      k.workSeq = Nat.count C.Small (n + 1) ∧ (∀ key ∈ rest, key ∈ C.lookups r n) ∧
      (C.hasRemoteD2d r n = true → ∀ q < C.worldSize, n < calls q)
  | .failed => True

/-- Where the worker is. -/
def Worker.Order (calls r : ℕ) : Worker → Prop
  | .idle | .failed => True
  | .begun w | .resolving w | .waiting w => w.Numbered C calls
  | .probing w rest | .gathering w _ rest _ =>
    w.Numbered C calls ∧ ∀ q ∈ rest, q ∈ C.sources r

structure Order (calls : ℕ → ℕ) (r : ℕ) (k : Rank) : Prop where
  entered_le : k.entered ≤ Nat.count C.Barred k.calls
  host : k.host.Order C calls r k
  queue : ∀ w ∈ k.queue, w.Numbered C k.calls
  worker : k.worker.Order C k.calls r

/-- What a rank has mapped, and the pointers it holds. -/
structure RankOk (calls : ℕ → ℕ) (r : ℕ) (k : Rank) : Prop where
  order : Order C calls r k
  entries : Entries C calls k
  held : ∀ x ∈ k.held, k.place C x.2.target = some (C.buffer x.2.peer x.1 x.2.kind).place

/-- How many calls the ranks have begun. -/
def State.calls (s : State) (q : ℕ) : ℕ := (s.rank q).calls

/-- The record is of the buffer. -/
def Record.Of (record : Record) (b : Buffer) : Prop :=
  record.baseAddr = b.base ∧ record.offset = b.offset ∧ record.handle = b.allocation

/-- What is registered for a rank is of its last call. -/
structure Registered (s : State) (q : ℕ) : Prop where
  empty : s.calls q = 0 → ∀ kind, s.registered q kind = none ∧ s.record q kind = none
  last : ∀ n, s.calls q = n + 1 → ∀ kind,
    s.registered q kind = some (C.buffer q n kind) ∧
      ∀ record, s.record q kind = some record → record.Of (C.buffer q n kind)
  unpublished : (C.multiProcess && C.deviceIpcNeeded) = false →
    ∀ kind, s.record q kind = none
  localIpc : ∀ kind ptr, (s.rank q).localIpc kind = some ptr →
    ∃ n record, s.calls q = n + 1 ∧ ptr = (C.buffer q n kind).ptr ∧
      s.record q kind = some record ∧ record.Of (C.buffer q n kind)

/-- The buffers registered so far agree on what is at an address. -/
def Agreeing (calls : ℕ → ℕ) : Prop :=
  ∀ q kind n m, n < calls q → m < calls q →
    (C.buffer q n kind).consistent (C.buffer q m kind) = true

/-- Whoever has still to look up a buffer of an earlier call finds it. -/
def Findable (s : State) : Prop :=
  ∀ r < C.worldSize, ∀ q < C.worldSize, q ≠ r → ∀ n kind,
    (s.rank r).awaits C r n q kind = true → n < s.calls q →
    ∀ m, s.calls q = m + 1 → C.buffer q m kind = C.buffer q n kind

structure Inv (s : State) : Prop where
  outside : ∀ r, C.worldSize ≤ r → s.rank r = .initial
  registered : ∀ q, Registered C s q
  agreeing : Agreeing C s.calls
  ready : ∀ q i, s.readySeq q i = 0 ∨
    ∃ n < s.calls q, C.Small n ∧ s.readySeq q i = Nat.count C.Small n + 1
  ranks : ∀ r < C.worldSize, RankOk C s.calls r (s.rank r)
  findable : Findable C s
  log : ∀ a ∈ s.log, a.place = some (C.buffer a.peer a.call a.kind).place

end

variable {C : Config} {s s' : State} {k k' : Rank} {r q : ℕ} {key : ℕ × Kind}

theorem Rank.awaits_iff {n : ℕ} {kind : Kind} : k.awaits C r n q kind = true ↔
    k.calls ≤ n ∧ C.mayLook r n q kind = true ∨ k.host.awaits C r n q kind = true ∨
      (kind = .input ∧ C.deviceIpcNeeded = true ∧ C.pairDirectAllowed r q = true) ∧
        ((∃ w ∈ k.queue, w.call = n) ∨ k.worker.awaits C r n q = true) := by
  unfold Rank.awaits
  simp only [Bool.or_eq_true, Bool.and_eq_true, decide_eq_true_eq, List.any_eq_true, or_assoc,
    and_assoc]

theorem Buffer.consistent_iff {b b' : Buffer} : b.consistent b' = true ↔
    (b.base = b'.base → b.allocation = b'.allocation) ∧ (b.ptr = b'.ptr → b.base = b'.base) := by
  unfold Buffer.consistent
  simp only [Bool.and_eq_true, Bool.or_eq_true, decide_eq_true_eq, ne_eq]
  constructor <;> rintro ⟨h1, h2⟩ <;> constructor <;> tauto

theorem Agreeing.consistent {calls : ℕ → ℕ} (h : Agreeing C calls) : Consistent C calls :=
  fun q kind n m hn hm => (Buffer.consistent_iff.1 (h q kind n m hn hm)).1

/-- A buffer at the same pointer is the same. -/
theorem Record.Of.congr {record : Record} {b b' : Buffer} (h : record.Of b)
    (hcons : b.consistent b' = true) (hptr : b.ptr = b'.ptr) : record.Of b' := by
  obtain ⟨halloc, hbase⟩ := Buffer.consistent_iff.1 hcons
  have hb := hbase hptr
  obtain ⟨h1, h2, h3⟩ := h
  refine ⟨h1.trans hb, ?_, h3.trans (halloc hb)⟩
  unfold Buffer.ptr at hptr
  omega

/-! ## Registering -/

theorem Registered.found (h : Registered C s q) {n : ℕ} (hn : s.calls q = n + 1) (kind : Kind) :
    Found s (q, kind) (C.buffer q n kind) :=
  ⟨(h.last n hn kind).1, (h.last n hn kind).2⟩

theorem mayRegister_iff : mayRegister C s r = true ↔ ∀ n < s.calls r, ∀ kind,
    (C.buffer r n kind).consistent (C.buffer r (s.calls r) kind) = true ∧
      ∀ q < C.worldSize, q ≠ r → (s.rank q).awaits C q n r kind = true →
        C.buffer r (s.calls r) kind = C.buffer r n kind := by
  have hkinds : ∀ P : Kind → Prop, (∀ kind ∈ [Kind.input, .output], P kind) ↔ ∀ kind, P kind := by
    refine fun P => ⟨fun h kind => ?_, fun h kind _ => h kind⟩
    cases kind
    · exact h _ (by simp)
    · exact h _ (by simp)
  unfold mayRegister
  simp only [List.all_eq_true, List.mem_range, Bool.and_eq_true, hkinds, Bool.or_eq_true,
    decide_eq_true_eq, Bool.not_eq_true']
  refine forall₂_congr fun n _ => forall_congr' fun kind => and_congr Iff.rfl ?_
  refine forall₂_congr fun q _ => ?_
  show (q = r ∨ _) ∨ C.buffer r (s.calls r) kind = _ ↔ _
  rcases Bool.eq_false_or_eq_true ((s.rank q).awaits C q n r kind) with h | h
  · simp only [h]
    tauto
  · simp only [h]
    tauto

theorem Buffer.consistent_symm {b b' : Buffer} (h : b.consistent b' = true) :
    b'.consistent b = true := by
  obtain ⟨h1, h2⟩ := Buffer.consistent_iff.1 h
  exact Buffer.consistent_iff.2 ⟨fun e => (h1 e.symm).symm, fun e => (h2 e.symm).symm⟩

theorem Buffer.consistent_refl (b : Buffer) : b.consistent b = true :=
  Buffer.consistent_iff.2 ⟨fun _ => rfl, fun _ => rfl⟩

/-- The rank after it has registered its buffers. -/
def Rank.registering (k : Rank) (localIpc : Kind → Option ℕ) : Rank :=
  { k with calls := k.calls + 1, host := .registered k.calls, localIpc }

/-- What a rank registers is of its next call, and nothing of another rank changes. -/
theorem register_eq (s : State) (r : ℕ) : ∃ record localIpc,
    register C s r =
      { s with
        registered := update s.registered r fun kind => some (C.buffer r (s.calls r) kind)
        record := update s.record r record
        rank := update s.rank r ((s.rank r).registering localIpc) } ∧
    if (C.multiProcess && C.deviceIpcNeeded) = true then
      ∀ kind, (record kind, localIpc kind) =
        publishDeviceBuffer (s.record r kind) ((s.rank r).localIpc kind)
          (C.buffer r (s.calls r) kind)
    else record = s.record r ∧ localIpc = (s.rank r).localIpc := by
  unfold register
  by_cases hpublish : (C.multiProcess && C.deviceIpcNeeded) = true
  · refine ⟨fun kind => (publishDeviceBuffer (s.record r kind) ((s.rank r).localIpc kind)
      (C.buffer r (s.calls r) kind)).1, fun kind => (publishDeviceBuffer (s.record r kind)
      ((s.rank r).localIpc kind) (C.buffer r (s.calls r) kind)).2, ?_, ?_⟩
    · rw [if_pos hpublish]
      rfl
    · rw [if_pos hpublish]
      exact fun kind => rfl
  · refine ⟨s.record r, (s.rank r).localIpc, ?_, ?_⟩
    · rw [if_neg hpublish, Function.update_eq_self]
      rfl
    · rw [if_neg hpublish]
      exact ⟨rfl, rfl⟩

theorem calls_registering {record : Kind → Option Record} {localIpc : Kind → Option ℕ}
    {registered : ℕ → Kind → Option Buffer} (q : ℕ) :
    State.calls { s with registered, record := update s.record r record,
                         rank := update s.rank r ((s.rank r).registering localIpc) } q =
      if q = r then s.calls r + 1 else s.calls q := by
  unfold State.calls
  by_cases hq : q = r
  · subst hq
    rw [if_pos rfl]
    dsimp only
    rw [Function.update_self]
    rfl
  · rw [if_neg hq]
    dsimp only
    rw [Function.update_of_ne hq]

/-- What is published is of the buffer. -/
theorem publishDeviceBuffer_of {old : Option Record} {localPtr : Option ℕ} {b : Buffer}
    (hskip : localPtr = some b.ptr → ∃ record, old = some record ∧ record.Of b) :
    ∃ record, publishDeviceBuffer old localPtr b = (some record, some b.ptr) ∧ record.Of b := by
  unfold publishDeviceBuffer
  by_cases hsame : localPtr = some b.ptr
  · obtain ⟨record, hrecord, hof⟩ := hskip hsame
    refine ⟨record, ?_, hof⟩
    rw [if_pos hsame, hrecord, hsame]
  · rw [if_neg hsame]
    exact ⟨_, rfl, rfl, rfl, rfl⟩

theorem Registered.register (h : Registered C s r)
    (hcons : ∀ n < s.calls r, ∀ kind,
      (C.buffer r n kind).consistent (C.buffer r (s.calls r) kind) = true) :
    Registered C (register C s r) r := by
  obtain ⟨record, localIpc, heq, hpublish⟩ := register_eq (C := C) s r
  have hcalls : (Binding.register C s r).calls r = s.calls r + 1 := by
    rw [heq, calls_registering, if_pos rfl]
  have hregistered : ∀ kind, (Binding.register C s r).registered r kind =
      some (C.buffer r (s.calls r) kind) := by
    intro kind
    rw [heq]
    simp
  have hrecord : (Binding.register C s r).record r = record := by
    rw [heq]
    simp
  have hlocal : ((Binding.register C s r).rank r).localIpc = localIpc := by
    rw [heq]
    simp [Rank.registering]
  have hpublished : (C.multiProcess && C.deviceIpcNeeded) = true → ∀ kind, ∃ new,
      record kind = some new ∧ localIpc kind = some (C.buffer r (s.calls r) kind).ptr ∧
        new.Of (C.buffer r (s.calls r) kind) := by
    intro hneeded kind
    rw [if_pos hneeded] at hpublish
    have hskip : (s.rank r).localIpc kind = some (C.buffer r (s.calls r) kind).ptr →
        ∃ old, s.record r kind = some old ∧ old.Of (C.buffer r (s.calls r) kind) := by
      intro hsame
      obtain ⟨n, old, hn, hptr, hold, hof⟩ := h.localIpc kind _ hsame
      exact ⟨old, hold, hof.congr (hcons n (by omega) kind) hptr.symm⟩
    obtain ⟨new, hnew, hof⟩ := publishDeviceBuffer_of hskip
    have hpair := hpublish kind
    rw [hnew] at hpair
    exact ⟨new, (Prod.mk.inj hpair).1, (Prod.mk.inj hpair).2, hof⟩
  refine ⟨fun h0 => by omega, fun n hn kind => ?_, fun hneeded kind => ?_, fun kind ptr hptr => ?_⟩
  · obtain rfl : n = s.calls r := by omega
    refine ⟨hregistered kind, fun new hnew => ?_⟩
    rw [hrecord] at hnew
    by_cases hneeded : (C.multiProcess && C.deviceIpcNeeded) = true
    · obtain ⟨new', hnew', -, hof⟩ := hpublished hneeded kind
      rw [hnew'] at hnew
      rwa [← Option.some.inj hnew]
    · rw [if_neg hneeded] at hpublish
      rw [hpublish.1, h.unpublished (by simpa using hneeded)] at hnew
      cases hnew
  · rw [hrecord]
    rw [if_neg (by simp [hneeded])] at hpublish
    rw [hpublish.1]
    exact h.unpublished hneeded kind
  · rw [hlocal] at hptr
    by_cases hneeded : (C.multiProcess && C.deviceIpcNeeded) = true
    · obtain ⟨new, hnew, hlocalIpc, hof⟩ := hpublished hneeded kind
      rw [hlocalIpc] at hptr
      exact ⟨s.calls r, new, hcalls, (Option.some.inj hptr).symm, by rw [hrecord, hnew], hof⟩
    · -- nothing has been published
      rw [if_neg hneeded] at hpublish
      rw [hpublish.2] at hptr
      obtain ⟨n, old, -, -, hold, -⟩ := h.localIpc kind ptr hptr
      rw [h.unpublished (by simpa using hneeded)] at hold
      cases hold

/-! ## Other ranks go on -/

theorem Host.Order.mono {calls calls' : ℕ → ℕ} {host : Host} (h : host.Order C calls r k)
    (hle : ∀ q, calls q ≤ calls' q) : host.Order C calls' r k := by
  cases host with
  | binding n rest bound =>
    obtain ⟨h1, h2, h3, h4, h5⟩ := h
    exact ⟨h1, h2, h3, h4, fun hb q hq => (h5 hb q hq).trans_le (hle q)⟩
  | _ => exact h

theorem Order.mono {calls calls' : ℕ → ℕ} (h : Order C calls r k) (hle : ∀ q, calls q ≤ calls' q) :
    Order C calls' r k :=
  ⟨h.entered_le, h.host.mono hle, h.queue, h.worker⟩

theorem RankOk.mono {calls calls' : ℕ → ℕ} (h : RankOk C calls r k)
    (hle : ∀ q, calls q ≤ calls' q) : RankOk C calls' r k :=
  ⟨h.order.mono hle, h.entries.mono hle, h.held⟩

theorem Work.Numbered.mono {n m : ℕ} {w : Work} (h : w.Numbered C n) (hle : n ≤ m) :
    w.Numbered C m :=
  ⟨h.small, h.seq, h.lt.trans_le hle⟩

theorem Worker.Order.mono {n m : ℕ} {worker : Worker} (h : worker.Order C n r) (hle : n ≤ m) :
    worker.Order C m r := by
  cases worker with
  | idle => trivial
  | failed => trivial
  | begun w => exact Work.Numbered.mono h hle
  | resolving w => exact Work.Numbered.mono h hle
  | waiting w => exact Work.Numbered.mono h hle
  | probing w rest => exact ⟨Work.Numbered.mono h.1 hle, h.2⟩
  | gathering w allDirect rest bound => exact ⟨Work.Numbered.mono h.1 hle, h.2⟩

/-- The memory a pointer goes to depends on the entries alone. -/
theorem Rank.place_congr (he : k'.remoteIpc = k.remoteIpc) (t : Target) :
    k'.place C t = k.place C t := by
  have hentry : k'.entry = k.entry := by
    funext key
    simp [Rank.entry, he]
  unfold Rank.place Rank.mappedAt
  rw [hentry]

/-- A rank that maps nothing, and holds no other pointers. -/
theorem RankOk.of_same {calls : ℕ → ℕ} (h : RankOk C calls r k)
    (he : k'.remoteIpc = k.remoteIpc) (hheld : ∀ x ∈ k'.held, x ∈ k.held)
    (horder : Order C calls r k') : RankOk C calls r k' :=
  ⟨horder, h.entries.congr he, fun x hx => by
    rw [Rank.place_congr he]
    exact h.held x (hheld x hx)⟩

theorem mem_held {x : ℕ × Pointer} : x ∈ k.held ↔
    (∃ rest bound, k.host = .binding x.1 rest bound ∧ x.2 ∈ bound) ∨
    (∃ w allDirect rest bound, k.worker = .gathering w allDirect rest bound ∧ w.call = x.1 ∧
      x.2 ∈ bound) ∨
    ∃ g ∈ k.graphs, g.call = x.1 ∧ x.2 ∈ g.bound := by
  obtain ⟨n, p⟩ := x
  unfold Rank.held
  simp only [List.mem_append, List.mem_flatMap, List.mem_map, Prod.mk.injEq, exists_eq_right_right,
    or_assoc]
  refine or_congr ?_ (or_congr ?_ ?_)
  · cases k.host with
    | binding m rest bound =>
      simp only [List.mem_map, Prod.mk.injEq, exists_eq_right_right, Host.binding.injEq]
      constructor
      · rintro ⟨hp, rfl⟩
        exact ⟨rest, bound, ⟨rfl, rfl, rfl⟩, hp⟩
      · rintro ⟨_, _, ⟨rfl, rfl, rfl⟩, hp⟩
        exact ⟨hp, rfl⟩
    | _ => simp
  · cases k.worker with
    | gathering w allDirect rest bound =>
      simp only [List.mem_map, Prod.mk.injEq, exists_eq_right_right, Worker.gathering.injEq]
      constructor
      · rintro ⟨hp, rfl⟩
        exact ⟨w, allDirect, rest, bound, ⟨rfl, rfl, rfl, rfl⟩, rfl, hp⟩
      · rintro ⟨_, _, _, _, ⟨rfl, rfl, rfl, rfl⟩, rfl, hp⟩
        exact ⟨hp, rfl⟩
    | _ => simp
  · constructor
    · rintro ⟨g, hg, hp, rfl⟩
      exact ⟨g, hg, rfl, hp⟩
    · rintro ⟨g, hg, rfl, hp⟩
      exact ⟨g, hg, hp, rfl⟩

/-- **A rank registers the buffers of its next call.** -/
theorem Inv.register (h : Inv C s) (hr : r < C.worldSize) (hhost : (s.rank r).host = .outside)
    (hmay : mayRegister C s r = true) : Inv C (register C s r) := by
  have hregister := mayRegister_iff.1 hmay
  have hreg := (h.registered r).register fun n hn kind => (hregister n hn kind).1
  obtain ⟨record, localIpc, heq, -⟩ := register_eq (C := C) s r
  have hcalls : ∀ q, (Binding.register C s r).calls q =
      if q = r then s.calls r + 1 else s.calls q := by
    intro q
    rw [heq]
    exact calls_registering q
  have hle : ∀ q, s.calls q ≤ (Binding.register C s r).calls q := by
    intro q
    rw [hcalls]
    split
    · rename_i hq
      rw [hq]
      omega
    · exact le_rfl
  have hrank : ∀ q, q ≠ r → (Binding.register C s r).rank q = s.rank q := by
    intro q hq
    rw [heq]
    exact Function.update_of_ne hq ..
  have hself : (Binding.register C s r).rank r = (s.rank r).registering localIpc := by
    rw [heq]
    exact Function.update_self ..
  have hok := (h.ranks r hr)
  refine ⟨fun q hq => ?_, fun q => ?_, ?_, fun q i => ?_, fun q hq => ?_, ?_, ?_⟩
  · rw [hrank q (by omega)]
    exact h.outside q hq
  · by_cases hq : q = r
    · rw [hq]
      exact hreg
    · have hother := h.registered q
      have hcallsq : (Binding.register C s r).calls q = s.calls q := by rw [hcalls, if_neg hq]
      have hregistered : (Binding.register C s r).registered q = s.registered q := by
        rw [heq]
        exact Function.update_of_ne hq ..
      have hrecord : (Binding.register C s r).record q = s.record q := by
        rw [heq]
        exact Function.update_of_ne hq ..
      constructor
      · rw [hcallsq, hregistered, hrecord]
        exact hother.empty
      · rw [hcallsq, hregistered, hrecord]
        exact hother.last
      · rw [hrecord]
        exact hother.unpublished
      · rw [hcallsq, hrecord, hrank q hq]
        exact hother.localIpc
  · intro q kind n m hn hm
    by_cases hq : q = r
    · subst hq
      rw [hcalls, if_pos rfl] at hn hm
      rcases Nat.lt_succ_iff_lt_or_eq.1 hn with hn | rfl <;>
        rcases Nat.lt_succ_iff_lt_or_eq.1 hm with hm | rfl
      · exact h.agreeing q kind n m hn hm
      · exact (hregister n hn kind).1
      · exact Buffer.consistent_symm (hregister m hm kind).1
      · exact Buffer.consistent_refl _
    · rw [hcalls, if_neg hq] at hn hm
      exact h.agreeing q kind n m hn hm
  · have hready : (Binding.register C s r).readySeq = s.readySeq := by rw [heq]
    rw [hready]
    rcases h.ready q i with h0 | ⟨n, hn, hrest⟩
    · exact .inl h0
    · exact .inr ⟨n, hn.trans_le (hle q), hrest⟩
  · by_cases hqr : q = r
    · subst hqr
      rw [hself]
      have horder := hok.order
      have hout := horder.host
      rw [hhost] at hout
      refine (hok.mono hle).of_same rfl (fun x hx => ?_) ?_
      · rw [mem_held] at hx ⊢
        rcases hx with ⟨rest, bound, hbad, -⟩ | hx
        · cases hbad
        · exact .inr hx
      · refine ⟨horder.entered_le.trans (Nat.count_monotone _ (Nat.le_succ _)),
          ⟨rfl, hout.1, hout.2⟩, fun w hw => (horder.queue w hw).mono (Nat.le_succ _),
          horder.worker.mono (Nat.le_succ _)⟩
    · rw [hrank q hqr]
      exact (h.ranks q hq).mono hle
  · intro p hp q hq hne n kind hawaits hn m hm
    by_cases hpr : p = r
    · subst hpr
      rw [hcalls, if_neg hne] at hn hm
      refine h.findable p hp q hq hne n kind ?_ hn m hm
      rw [hself, Rank.awaits_iff] at hawaits
      rw [Rank.awaits_iff]
      rcases hawaits with ⟨hle', hlook⟩ | hreg' | hsmall
      · exact .inl ⟨Nat.le_of_succ_le hle', hlook⟩
      · left
        have hand : (decide (n = (s.rank p).calls) && C.mayLook p n q kind) = true := hreg'
        rw [Bool.and_eq_true, decide_eq_true_eq] at hand
        exact ⟨hand.1.ge, hand.2⟩
      · exact .inr (.inr hsmall)
    · rw [hrank p hpr] at hawaits
      by_cases hqr : q = r
      · subst hqr
        rw [hcalls, if_pos rfl] at hn hm
        obtain rfl : m = s.calls q := by omega
        rcases Nat.lt_succ_iff_lt_or_eq.1 hn with hn | rfl
        · exact (hregister n hn kind).2 p hp hpr hawaits
        · rfl
      · rw [hcalls, if_neg hqr] at hn hm
        exact h.findable p hp q hq hne n kind hawaits hn m hm
  · rw [heq]
    exact h.log

/-! ## A rank moves -/

/-- What a rank does by itself keeps. -/
structure Moved (C : Config) (begun : ℕ → ℕ) (r : ℕ) (k k' : Rank) (accesses : List Access) :
    Prop where
  calls : k'.calls = k.calls
  localIpc : k'.localIpc = k.localIpc
  ok : RankOk C begun r k'
  /-- No lookup is new. -/
  awaits : ∀ n q kind, k'.awaits C r n q kind = true → k.awaits C r n q kind = true
  log : ∀ a ∈ accesses, a.place = some (C.buffer a.peer a.call a.kind).place

theorem Inv.moved {accesses : List Access} (h : Inv C s) (hr : r < C.worldSize)
    (hm : Moved C s.calls r (s.rank r) k' accesses) :
    Inv C { s with rank := update s.rank r k', log := s.log ++ accesses } := by
  generalize hs' : { s with rank := update s.rank r k', log := s.log ++ accesses } = s'
  have hself : s'.rank r = k' := by
    rw [← hs']
    exact Function.update_self ..
  have hrank : ∀ q, q ≠ r → s'.rank q = s.rank q := by
    intro q hq
    rw [← hs']
    exact Function.update_of_ne hq ..
  have hcalls : s'.calls = s.calls := by
    funext q
    show (s'.rank q).calls = (s.rank q).calls
    by_cases hq : q = r
    · rw [hq, hself, hm.calls]
    · rw [hrank q hq]
  have hlocal : ∀ q, (s'.rank q).localIpc = (s.rank q).localIpc := by
    intro q
    by_cases hq : q = r
    · rw [hq, hself, hm.localIpc]
    · rw [hrank q hq]
  have hrecord : s'.record = s.record := by rw [← hs']
  have hregistered : s'.registered = s.registered := by rw [← hs']
  have hready : s'.readySeq = s.readySeq := by rw [← hs']
  have hlog : s'.log = s.log ++ accesses := by rw [← hs']
  refine ⟨fun q hq => ?_, fun q => ?_, ?_, ?_, fun q hq => ?_,
    fun p hp q hq hne n kind hawaits => ?_, fun a ha => ?_⟩
  · rw [hrank q (by omega)]
    exact h.outside q hq
  · obtain ⟨h1, h2, h3, h4⟩ := h.registered q
    constructor
    · rw [hcalls, hregistered, hrecord]
      exact h1
    · rw [hcalls, hregistered, hrecord]
      exact h2
    · rw [hrecord]
      exact h3
    · rw [hcalls, hrecord, hlocal]
      exact h4
  · rw [hcalls]
    exact h.agreeing
  · rw [hcalls, hready]
    exact h.ready
  · rw [hcalls]
    by_cases hqr : q = r
    · subst hqr
      rw [hself]
      exact hm.ok
    · rw [hrank q hqr]
      exact h.ranks q hq
  · rw [hcalls]
    refine h.findable p hp q hq hne n kind ?_
    by_cases hpr : p = r
    · subst hpr
      rw [hself] at hawaits
      exact hm.awaits n q kind hawaits
    · rwa [hrank p hpr] at hawaits
  · rw [hlog] at ha
    rcases List.mem_append.1 ha with ha | ha
    · exact h.log a ha
    · exact hm.log a ha

end Binding
end Api
end HyLink
