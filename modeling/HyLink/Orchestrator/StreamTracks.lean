import HyLink.Orchestrator.CallOrder
import HyLink.Theory.Sequence

/-!
# What a collective has established on its streams

The device may work through the streams in any order.  A token or an event is there only
when it was written, so a wait that is over means that its write is over, and with it
what comes before the write on its stream.

* `Values`, `Events`, `Callbacks` — what a finished wait says.
* `InputOk`, `Closed`, `Merges` — the dependencies of a collective, as they stand on the
  streams.
* `Tracks` — what a fact of a script means for the streams.
-/

namespace HyLink
namespace Orchestrator
namespace Streams

open Theory

variable {cfg : Config} {st st' : State} {q : Queue} {op : Op} {s c n : ℕ}

/-- The stream on which a token is written. -/
def Token.home (s : ℕ) : Token → Queue
  | .inputReady => .user s
  | .completion => .pcie

/-- The callbacks among some operations. -/
def callbacks (l : List Op) : ℕ := l.countP fun op => decide (op = .callback)

/-! ## Waits -/

/-- The tokens and who waits for them. -/
structure Values (ops : Queue → List Op) (done : Queue → ℕ) (tokens : Token → ℕ → ℕ → ℕ) :
    Prop where
  home : ∀ q t s n, .write t s n ∈ ops q → q = t.home s
  sorted : ∀ q, (ops q).Pairwise fun a b => ∀ t s n n', a = .write t s n → b = .write t s n' → n < n'
  /-- A wait is put on its stream after the write it waits for. -/
  wait : ∀ q t s n, .wait t s n ∈ ops q → 1 ≤ n ∧ .write t s n ∈ ops (t.home s)
  token : ∀ t s slot, tokens t s slot = 0 ∨
    .write t s (tokens t s slot) ∈ (ops (t.home s)).take (done (t.home s))
  /-- The write of a finished wait is finished. -/
  waited : ∀ q t s n, .wait t s n ∈ (ops q).take (done q) →
    .write t s n ∈ (ops (t.home s)).take (done (t.home s))

/-- The events and who waits for them. -/
structure Events (ops : Queue → List Op) (done : Queue → ℕ) (event : ℕ → Bool) : Prop where
  event : ∀ c, event c = true → .record c ∈ (ops .pcie).take (done .pcie)
  waited : ∀ q c, .waitEvent c ∈ (ops q).take (done q) →
    .record c ∈ (ops .pcie).take (done .pcie)

/-- The callbacks and what they take. -/
structure Callbacks (ops : Queue → List Op) (done : Queue → ℕ) (registered : ℕ → List Pending)
    (taken : ℕ → ℕ) : Prop where
  le : ∀ s, callbacks (ops (.user s)) ≤ (registered s).length
  count : ∀ s, taken s = callbacks ((ops (.user s)).take (done (.user s)))
  waited : ∀ s i p, i < taken s → (registered s)[i]? = some p → p.waits = true →
    .record p.call ∈ (ops .pcie).take (done .pcie)

theorem callbacks_append (l l' : List Op) : callbacks (l ++ l') = callbacks l + callbacks l' :=
  List.countP_append

theorem callbacks_take_le {l : List Op} {d d' : ℕ} (h : d ≤ d') :
    callbacks (l.take d) ≤ callbacks (l.take d') :=
  List.Sublist.countP_le (List.take_sublist_take_left h)

section Update

variable {ops : Queue → List Op} {done : Queue → ℕ} {tokens : Token → ℕ → ℕ → ℕ}
  {event : ℕ → Bool} {registered : ℕ → List Pending} {taken : ℕ → ℕ}

theorem mem_ops_append {x : Op} {q' : Queue} (h : x ∈ ops q') :
    x ∈ Function.update ops q (ops q ++ [op]) q' := by
  by_cases hq : q' = q
  · subst hq
    rw [Function.update_self]
    exact List.mem_append_left _ h
  · rw [Function.update_of_ne hq]
    exact h

theorem mem_ops_of_append {x : Op} {q' : Queue}
    (h : x ∈ Function.update ops q (ops q ++ [op]) q') : x ∈ ops q' ∨ q' = q ∧ x = op := by
  by_cases hq : q' = q
  · subst hq
    rw [Function.update_self] at h
    simpa using h
  · rw [Function.update_of_ne hq] at h
    exact .inl h

theorem mem_take_ops_append {x : Op} {q' : Queue} {d : ℕ} (h : x ∈ (ops q').take d) :
    x ∈ (Function.update ops q (ops q ++ [op]) q').take d := by
  by_cases hq : q' = q
  · subst hq
    rw [Function.update_self]
    exact mem_take_append h
  · rw [Function.update_of_ne hq]
    exact h

theorem take_ops_append {q' : Queue} {d : ℕ} (hd : d ≤ (ops q').length) :
    (Function.update ops q (ops q ++ [op]) q').take d = (ops q').take d := by
  by_cases hq : q' = q
  · subst hq
    rw [Function.update_self, take_append_of_le hd]
  · rw [Function.update_of_ne hq]

/-- An operation is put on a stream: a write is newer than the writes there, a wait has
its write. -/
theorem Values.enqueue (h : Values ops done tokens) (hdone : ∀ q, done q ≤ (ops q).length)
    (hwrite : ∀ t s n, op = .write t s n → q = t.home s ∧ ∀ m, .write t s m ∈ ops q → m < n)
    (hwait : ∀ t s n, op = .wait t s n → 1 ≤ n ∧ .write t s n ∈ ops (t.home s)) :
    Values (Function.update ops q (ops q ++ [op])) done tokens := by
  refine ⟨fun q' t s n hmem => ?_, fun q' => ?_, fun q' t s n hmem => ?_, fun t s slot => ?_,
    fun q' t s n hmem => ?_⟩
  · rcases mem_ops_of_append hmem with hmem | ⟨rfl, heq⟩
    · exact h.home q' t s n hmem
    · exact (hwrite t s n heq.symm).1
  · by_cases hq : q' = q
    · subst hq
      rw [Function.update_self]
      refine List.pairwise_append.2 ⟨h.sorted q', List.pairwise_singleton _ _, ?_⟩
      intro a ha b hb t s n n' hn hn'
      rw [List.mem_singleton] at hb
      rw [hn] at ha
      exact (hwrite t s n' (by rw [← hb, hn'])).2 n ha
    · rw [Function.update_of_ne hq]
      exact h.sorted q'
  · rcases mem_ops_of_append hmem with hmem | ⟨rfl, heq⟩
    · obtain ⟨hn, hmem⟩ := h.wait q' t s n hmem
      exact ⟨hn, mem_ops_append hmem⟩
    · obtain ⟨hn, hmem⟩ := hwait t s n heq.symm
      exact ⟨hn, mem_ops_append hmem⟩
  · rcases h.token t s slot with hz | hmem
    · exact .inl hz
    · exact .inr (mem_take_ops_append hmem)
  · rw [take_ops_append (hdone q')] at hmem
    exact mem_take_ops_append (h.waited q' t s n hmem)

theorem Events.enqueue (h : Events ops done event) (hdone : ∀ q, done q ≤ (ops q).length) :
    Events (Function.update ops q (ops q ++ [op])) done event := by
  refine ⟨fun c hc => mem_take_ops_append (h.event c hc), fun q' c hmem => ?_⟩
  rw [take_ops_append (hdone q')] at hmem
  exact mem_take_ops_append (h.waited q' c hmem)

theorem Callbacks.enqueue (h : Callbacks ops done registered taken)
    (hdone : ∀ q, done q ≤ (ops q).length)
    (hroom : ∀ s, op = .callback → q = .user s →
      callbacks (ops (.user s)) < (registered s).length) :
    Callbacks (Function.update ops q (ops q ++ [op])) done registered taken := by
  refine ⟨fun s => ?_, fun s => ?_, fun s i p hi hp hw => ?_⟩
  · by_cases hq : Queue.user s = q
    · subst hq
      rw [Function.update_self, callbacks_append]
      by_cases hop : op = .callback
      · have hlt := hroom s hop rfl
        have hone : callbacks [op] = 1 := by simp [callbacks, hop]
        omega
      · simpa [callbacks, hop] using h.le s
    · rw [Function.update_of_ne hq]
      exact h.le s
  · rw [take_ops_append (hdone _)]
    exact h.count s
  · exact mem_take_ops_append (h.waited s i p hi hp hw)

theorem Callbacks.register {p : Pending} (h : Callbacks ops done registered taken)
    (hdone : ∀ q, done q ≤ (ops q).length) :
    Callbacks ops done (Function.update registered s (registered s ++ [p])) taken := by
  have hlt : ∀ s' i, i < taken s' → i < (registered s').length := by
    intro s' i hi
    have hle := callbacks_take_le (l := ops (.user s')) (hdone (.user s'))
    rw [List.take_length] at hle
    have hle' := h.le s'
    have htaken := h.count s'
    omega
  refine ⟨fun s' => ?_, h.count, fun s' i p' hi hp' hw => ?_⟩
  · by_cases hs : s' = s
    · subst hs
      rw [Function.update_self, List.length_append]
      exact (h.le s').trans (Nat.le_add_right _ _)
    · rw [Function.update_of_ne hs]
      exact h.le s'
  · by_cases hs : s' = s
    · subst hs
      rw [Function.update_self, List.getElem?_append_left (hlt s' i hi)] at hp'
      exact h.waited s' i p' hi hp' hw
    · rw [Function.update_of_ne hs] at hp'
      exact h.waited s' i p' hi hp' hw

theorem mem_take_finish {x : Op} {q' : Queue} (h : x ∈ (ops q').take (done q')) :
    x ∈ (ops q').take (Function.update done q (done q + 1) q') := by
  by_cases hq : q' = q
  · subst hq
    rw [Function.update_self]
    exact mem_take_of_le (Nat.le_succ _) h
  · rw [Function.update_of_ne hq]
    exact h

theorem mem_take_of_finish {x : Op} {q' : Queue} (hop : (ops q)[done q]? = some op)
    (h : x ∈ (ops q').take (Function.update done q (done q + 1) q')) :
    x ∈ (ops q').take (done q') ∨ q' = q ∧ x = op := by
  by_cases hq : q' = q
  · subst hq
    rw [Function.update_self] at h
    rcases mem_take_succ.1 h with h | h
    · exact .inl h
    · rw [hop] at h
      exact .inr ⟨rfl, (Option.some.inj h).symm⟩
  · rw [Function.update_of_ne hq] at h
    exact .inl h

theorem mem_take_self (hop : (ops q)[done q]? = some op) :
    op ∈ (ops q).take (Function.update done q (done q + 1) q) := by
  rw [Function.update_self]
  exact mem_take_succ.2 (.inr hop)

/-- A wait for `n` is over when the token is at least `n`, and then the write of `n`, which
comes no later than the one of the token, is finished. -/
theorem Values.finish {tokens' : Token → ℕ → ℕ → ℕ} (h : Values ops done tokens)
    (hop : (ops q)[done q]? = some op)
    (htokens : ∀ t s slot, tokens' t s slot = tokens t s slot ∨ op = .write t s (tokens' t s slot))
    (hready : ∀ t s n, op = .wait t s n → n ≤ tokens t s (n % kRingSize)) :
    Values ops (Function.update done q (done q + 1)) tokens' := by
  refine ⟨h.home, h.sorted, h.wait, fun t s slot => ?_, fun q' t s n hmem => ?_⟩
  · rcases htokens t s slot with heq | heq
    · rw [heq]
      rcases h.token t s slot with hz | hmem
      · exact .inl hz
      · exact .inr (mem_take_finish hmem)
    · have hhome : q = t.home s := h.home q t s _ (heq ▸ List.mem_of_getElem? hop)
      refine .inr ?_
      rw [← heq, ← hhome]
      exact mem_take_self hop
  · rcases mem_take_of_finish hop hmem with hmem | ⟨rfl, rfl⟩
    · exact mem_take_finish (h.waited q' t s n hmem)
    · obtain ⟨hn, hwrite⟩ := h.wait q' t s n (List.mem_of_getElem? hop)
      have hle := hready t s n rfl
      rcases h.token t s (n % kRingSize) with hz | htoken
      · omega
      · refine mem_take_finish ?_
        rw [← List.take_append_drop (done (t.home s)) (ops (t.home s)), List.mem_append] at hwrite
        rcases hwrite with hwrite | hwrite
        · exact hwrite
        · have hsorted := h.sorted (t.home s)
          rw [← List.take_append_drop (done (t.home s)) (ops (t.home s)),
            List.pairwise_append] at hsorted
          have hlt := hsorted.2.2 _ htoken _ hwrite t s _ _ rfl rfl
          omega

theorem Events.finish {event' : ℕ → Bool} (h : Events ops done event)
    (hop : (ops q)[done q]? = some op) (hhome : ∀ c, op = .record c → q = .pcie)
    (hevent : ∀ c, event' c = true → event c = true ∨ op = .record c)
    (hready : ∀ c, op = .waitEvent c → event c = true) :
    Events ops (Function.update done q (done q + 1)) event' := by
  refine ⟨fun c hc => ?_, fun q' c hmem => ?_⟩
  · rcases hevent c hc with hc | rfl
    · exact mem_take_finish (h.event c hc)
    · obtain rfl := hhome c rfl
      exact mem_take_self hop
  · rcases mem_take_of_finish hop hmem with hmem | ⟨rfl, rfl⟩
    · exact mem_take_finish (h.waited q' c hmem)
    · exact mem_take_finish (h.event c (hready c rfl))

theorem callbacks_take_succ {l : List Op} {d : ℕ} (hop : l[d]? = some op) :
    callbacks (l.take (d + 1)) = callbacks (l.take d) + if op = .callback then 1 else 0 := by
  rw [List.take_add_one, hop, callbacks_append]
  by_cases h : op = .callback <;> simp [callbacks, h]

/-- An operation that is not a callback of stream `s` leaves its pending collectives. -/
theorem Callbacks.finish {taken' : ℕ → ℕ} (h : Callbacks ops done registered taken)
    (hop : (ops q)[done q]? = some op)
    (htaken : ∀ s, taken' s = taken s + if q = .user s ∧ op = .callback then 1 else 0)
    (hwaited : ∀ s p, q = .user s → op = .callback → (registered s)[taken s]? = some p →
      p.waits = true → .record p.call ∈ (ops .pcie).take (done .pcie)) :
    Callbacks ops (Function.update done q (done q + 1)) registered taken' := by
  refine ⟨h.le, fun s => ?_, fun s i p hi hp hw => ?_⟩
  · rw [htaken, h.count s]
    by_cases hq : Queue.user s = q
    · subst hq
      rw [Function.update_self, callbacks_take_succ hop]
      simp
    · rw [Function.update_of_ne hq, if_neg fun hc => hq hc.1.symm, Nat.add_zero]
  · refine mem_take_finish ?_
    rw [htaken] at hi
    by_cases hi' : i < taken s
    · exact h.waited s i p hi' hp hw
    · split at hi
      · rename_i hq
        obtain rfl : i = taken s := by omega
        exact hwaited s p hq.1 hq.2 hp hw
      · omega

end Update

/-! ## The dependencies of a collective -/

/-- The PCIe stream does not start the transfer before the operations that were on the
user's stream at the call. -/
def InputOk (st : State) (call : Call) (before : ℕ) : Prop :=
  .pcie call.c ∈ st.ops .pcie →
    before ≤ st.done (.user call.s) ∨
      Precedes (st.ops .pcie) (.wait .inputReady call.s call.seq) (.pcie call.c) ∧
        .write .inputReady call.s call.seq ∉ (st.ops (.user call.s)).take before

/-- The transfer is through, or among the first `a` operations of the user's stream is one
that waits for it. -/
def Closed (st : State) (call : Call) (a : ℕ) : Prop :=
  .pcie call.c ∉ (st.ops .pcie).drop (st.done .pcie) ∨
  .wait .completion call.s call.seq ∈ (st.ops (.user call.s)).take a ∧
    NeverAfter (st.ops .pcie) (.pcie call.c) (.write .completion call.s call.seq) ∨
  .waitEvent call.c ∈ (st.ops (.user call.s)).take a ∧
    NeverAfter (st.ops .pcie) (.pcie call.c) (.record call.c) ∨
  (∃ (i : ℕ) (p : Pending), (st.registered call.s)[i]? = some p ∧ p.call = call.c ∧
    p.waits = true ∧ i < callbacks ((st.ops (.user call.s)).take a)) ∧
    NeverAfter (st.ops .pcie) (.pcie call.c) (.record call.c)

/-- Among the first `a` operations of the user's stream is the callback that merges. -/
def Merges (st : State) (call : Call) (a : ℕ) : Prop :=
  ∃ (i : ℕ) (p : Pending), (st.registered call.s)[i]? = some p ∧ p.call = call.c ∧
    p.merges = true ∧ i < callbacks ((st.ops (.user call.s)).take a)

/-- The streams go on, without another transfer of the collective. -/
structure Grows (call : Call) (st st' : State) : Prop where
  user : ∃ l, st'.ops (.user call.s) = st.ops (.user call.s) ++ l
  pcie : ∃ l, st'.ops .pcie = st.ops .pcie ++ l ∧ .pcie call.c ∉ l
  done : ∀ q, st.done q ≤ st'.done q
  registered : ∃ l, st'.registered call.s = st.registered call.s ++ l

section Grow

variable {call : Call} {before a a' : ℕ}

theorem InputOk.grow (h : InputOk st call before) (hg : Grows call st st')
    (hbefore : before ≤ (st.ops (.user call.s)).length) : InputOk st' call before := by
  obtain ⟨l, hpcie, hnot⟩ := hg.pcie
  obtain ⟨l', huser⟩ := hg.user
  unfold InputOk
  intro hmem
  rw [hpcie, List.mem_append] at hmem
  rcases h (hmem.resolve_right hnot) with hle | ⟨hprecedes, hwrite⟩
  · exact .inl (hle.trans (hg.done _))
  · refine .inr ⟨?_, ?_⟩
    · rw [hpcie]
      exact hprecedes.append
    · rw [huser, take_append_of_le hbefore]
      exact hwrite

theorem registered_grow {i : ℕ} {p : Pending} (hg : Grows call st st')
    (h : (st.registered call.s)[i]? = some p) : (st'.registered call.s)[i]? = some p := by
  obtain ⟨l, hl⟩ := hg.registered
  rw [hl, List.getElem?_append_left (List.getElem?_eq_some_iff.1 h).1]
  exact h

theorem callbacks_grow (hg : Grows call st st') :
    callbacks ((st.ops (.user call.s)).take a) ≤ callbacks ((st'.ops (.user call.s)).take a) := by
  obtain ⟨l, hl⟩ := hg.user
  rw [hl, List.take_append]
  exact (List.sublist_append_left _ _).countP_le

theorem Closed.grow (h : Closed st call a) (hg : Grows call st st')
    (hdone : st.done .pcie ≤ (st.ops .pcie).length) : Closed st' call a := by
  obtain ⟨l, hpcie, hnot⟩ := hg.pcie
  obtain ⟨l', huser⟩ := hg.user
  unfold Closed
  rw [hpcie, huser]
  rcases h with hdrop | ⟨hmem, hnever⟩ | ⟨hmem, hnever⟩ | ⟨⟨i, p, hp, hcall, hwaits, hi⟩, hnever⟩
  · refine .inl fun hmem => ?_
    have hmem' := (List.drop_sublist_drop_left _ (hg.done .pcie)).subset hmem
    rw [List.drop_append_of_le_length hdone, List.mem_append] at hmem'
    rcases hmem' with hmem' | hmem'
    · exact hdrop hmem'
    · exact hnot hmem'
  · exact .inr (.inl ⟨mem_take_append hmem, hnever.append hnot⟩)
  · exact .inr (.inr (.inl ⟨mem_take_append hmem, hnever.append hnot⟩))
  · refine .inr (.inr (.inr ⟨⟨i, p, registered_grow hg hp, hcall, hwaits, ?_⟩, hnever.append hnot⟩))
    rw [← huser]
    exact hi.trans_le (callbacks_grow hg)

theorem Closed.mono (h : Closed st call a) (ha : a ≤ a') : Closed st call a' := by
  rcases h with hdrop | ⟨hmem, hnever⟩ | ⟨hmem, hnever⟩ | ⟨⟨i, p, hp, hcall, hwaits, hi⟩, hnever⟩
  · exact .inl hdrop
  · exact .inr (.inl ⟨mem_take_of_le ha hmem, hnever⟩)
  · exact .inr (.inr (.inl ⟨mem_take_of_le ha hmem, hnever⟩))
  · exact .inr (.inr (.inr ⟨⟨i, p, hp, hcall, hwaits, hi.trans_le (callbacks_take_le ha)⟩, hnever⟩))

theorem Merges.grow (h : Merges st call a) (hg : Grows call st st') : Merges st' call a := by
  obtain ⟨i, p, hp, hcall, hmerges, hi⟩ := h
  exact ⟨i, p, registered_grow hg hp, hcall, hmerges, hi.trans_le (callbacks_grow hg)⟩

theorem Merges.mono (h : Merges st call a) (ha : a ≤ a') : Merges st call a' := by
  obtain ⟨i, p, hp, hcall, hmerges, hi⟩ := h
  exact ⟨i, p, hp, hcall, hmerges, hi.trans_le (callbacks_take_le ha)⟩

theorem Grows.length_le (hg : Grows call st st') :
    (st.ops (.user call.s)).length ≤ (st'.ops (.user call.s)).length := by
  obtain ⟨l, hl⟩ := hg.user
  rw [hl, List.length_append]
  exact Nat.le_add_right _ _

end Grow

/-! ## What a fact means -/

section Tracks

variable (st : State) (call : Call) (before : ℕ) (f : Facts)

/-- The facts about the user's stream. -/
structure InputTrack : Prop where
  le : before ≤ (st.ops (.user call.s)).length
  ticket : f.ticket = true → st.nextSequence call.s = call.seq + 1 ∧ 1 ≤ call.seq
  early : f.ticket = true → ∀ m,
    .write .inputReady call.s m ∈ (st.ops (.user call.s)).take before → m < call.seq
  written : f.written = true → .write .inputReady call.s call.seq ∈ st.ops (.user call.s)
  unwritten : f.ticket = true → f.written = false → ∀ m,
    .write .inputReady call.s m ∈ st.ops (.user call.s) → m < call.seq
  inputDone : f.inputDone = true → before ≤ st.done (.user call.s) ∨
    f.ticket = true ∧ .wait .inputReady call.s call.seq ∈ st.ops .pcie

/-- The facts about the PCIe stream. -/
structure TransferTrack : Prop where
  untransferred : f.transfer = false → .pcie call.c ∉ st.ops .pcie
  transfer : InputOk st call before
  recorded : f.recorded = true → NeverAfter (st.ops .pcie) (.pcie call.c) (.record call.c)
  unrecorded : f.recorded = false → .record call.c ∉ st.ops .pcie
  answered : f.answered = true → .write .completion call.s call.seq ∈ st.ops .pcie ∧
    NeverAfter (st.ops .pcie) (.pcie call.c) (.write .completion call.s call.seq)
  unanswered : f.ticket = true → f.answered = false → ∀ m,
    .write .completion call.s m ∈ st.ops .pcie → m < call.seq

/-- The facts about what comes after the collective. -/
structure CloseTrack : Prop where
  closed : f.closed = true → Closed st call (st.ops (.user call.s)).length
  kept : f.kept = true → callbacks (st.ops (.user call.s)) = (st.registered call.s).length
  merged : f.merged = true → Merges st call (st.ops (.user call.s)).length

end Tracks

/-- What a thread knows in the middle of a collective. -/
structure Tracks (st : State) (t : Thread) (f : Facts) : Prop where
  input : InputTrack st t.call t.before f
  transfer : TransferTrack st t.call t.before f
  close : CloseTrack st t.call f
  awaiting : ∀ n, t.awaiting = some n → ∃ q rest, t.rest = .synchronize q :: rest ∧
    (q = .user t.call.s → t.before ≤ n) ∧
    (q = .pcie → n ≤ (st.ops .pcie).length ∧ .pcie t.call.c ∉ (st.ops .pcie).drop n)

section Steps

variable {call : Call} {before : ℕ} {f f' : Facts}

/-! ### Steps of others -/

/-- A step that is none of the collective's own. -/
structure Foreign (call : Call) (st st' : State) : Prop where
  user : st'.ops (.user call.s) = st.ops (.user call.s)
  pcie : ∃ l, st'.ops .pcie = st.ops .pcie ++ l ∧ .pcie call.c ∉ l ∧ .record call.c ∉ l ∧
    ∀ m, .write .completion call.s m ∉ l
  done : ∀ q, st.done q ≤ st'.done q
  registered : st'.registered call.s = st.registered call.s
  nextSequence : st'.nextSequence call.s = st.nextSequence call.s

theorem Foreign.grows (h : Foreign call st st') : Grows call st st' := by
  obtain ⟨l, hpcie, hnot, _⟩ := h.pcie
  exact ⟨⟨[], by rw [h.user, List.append_nil]⟩, ⟨l, hpcie, hnot⟩, h.done,
    ⟨[], by rw [h.registered, List.append_nil]⟩⟩

theorem InputTrack.foreign (h : InputTrack st call before f) (hf : Foreign call st st') :
    InputTrack st' call before f := by
  obtain ⟨l, hpcie, _⟩ := hf.pcie
  refine ⟨?_, ?_, ?_, ?_, ?_, fun hd => ?_⟩
  · rw [hf.user]
    exact h.le
  · rw [hf.nextSequence]
    exact h.ticket
  · rw [hf.user]
    exact h.early
  · rw [hf.user]
    exact h.written
  · rw [hf.user]
    exact h.unwritten
  · rcases h.inputDone hd with hle | ⟨hticket, hmem⟩
    · exact .inl (hle.trans (hf.done _))
    · refine .inr ⟨hticket, ?_⟩
      rw [hpcie]
      exact List.mem_append_left _ hmem

theorem TransferTrack.foreign (h : TransferTrack st call before f) (hf : Foreign call st st')
    (hle : before ≤ (st.ops (.user call.s)).length) : TransferTrack st' call before f := by
  obtain ⟨l, hpcie, hnot, hrecord, hwrite⟩ := hf.pcie
  refine ⟨fun ht hmem => ?_, h.transfer.grow hf.grows hle, fun hr => ?_, fun hr hmem => ?_,
    fun ha => ?_, fun ht ha m hmem => ?_⟩
  · rw [hpcie, List.mem_append] at hmem
    exact h.untransferred ht (hmem.resolve_right hnot)
  · rw [hpcie]
    exact (h.recorded hr).append hnot
  · rw [hpcie, List.mem_append] at hmem
    exact h.unrecorded hr (hmem.resolve_right hrecord)
  · obtain ⟨hmem, hnever⟩ := h.answered ha
    rw [hpcie]
    exact ⟨List.mem_append_left _ hmem, hnever.append hnot⟩
  · rw [hpcie, List.mem_append] at hmem
    exact h.unanswered ht ha m (hmem.resolve_right (hwrite m))

theorem CloseTrack.foreign (h : CloseTrack st call f) (hf : Foreign call st st')
    (hdone : st.done .pcie ≤ (st.ops .pcie).length) : CloseTrack st' call f := by
  refine ⟨fun hc => ?_, ?_, fun hm => ?_⟩
  · rw [hf.user]
    exact (h.closed hc).grow hf.grows hdone
  · rw [hf.user, hf.registered]
    exact h.kept
  · rw [hf.user]
    exact (h.merged hm).grow hf.grows

theorem Tracks.foreign {t : Thread} (h : Tracks st t f) (hf : Foreign t.call st st')
    (hdone : st.done .pcie ≤ (st.ops .pcie).length) : Tracks st' t f := by
  refine ⟨h.input.foreign hf, h.transfer.foreign hf h.input.le, h.close.foreign hf hdone,
    fun n hn => ?_⟩
  obtain ⟨q, rest, hrest, huser, hdrop⟩ := h.awaiting n hn
  obtain ⟨l, hpcie, hnot, _⟩ := hf.pcie
  refine ⟨q, rest, hrest, huser, fun hq => ?_⟩
  obtain ⟨hle, hdrop⟩ := hdrop hq
  rw [hpcie, List.length_append, List.drop_append_of_le_length hle, List.mem_append]
  exact ⟨hle.trans (Nat.le_add_right _ _), not_or.2 ⟨hdrop, hnot⟩⟩

/-! ### Operations the collective puts on the user's stream -/

/-- Nothing but `op` on the user's stream is new. -/
structure PutsUser (call : Call) (op : Op) (st st' : State) : Prop where
  user : st'.ops (.user call.s) = st.ops (.user call.s) ++ [op]
  pcie : st'.ops .pcie = st.ops .pcie
  done : ∀ q, st'.done q = st.done q
  registered : st'.registered call.s = st.registered call.s
  nextSequence : st'.nextSequence call.s = st.nextSequence call.s

theorem PutsUser.grows (h : PutsUser call op st st') : Grows call st st' :=
  ⟨⟨[op], h.user⟩, ⟨[], by rw [h.pcie, List.append_nil], List.not_mem_nil⟩,
    fun q => (h.done q).ge, ⟨[], by rw [h.registered, List.append_nil]⟩⟩

theorem InputTrack.putUser (h : InputTrack st call before f) (hp : PutsUser call op st st')
    (hticket : f'.ticket = f.ticket) (hinput : f'.inputDone = f.inputDone)
    (hwritten : f'.written = f.written ∧ (∀ m, op ≠ .write .inputReady call.s m) ∨
      f'.written = true ∧ op = .write .inputReady call.s call.seq) :
    InputTrack st' call before f' := by
  refine ⟨h.le.trans hp.grows.length_le, ?_, ?_, fun hw => ?_, fun ht hw m hmem => ?_, fun hd => ?_⟩
  · rw [hp.nextSequence, hticket]
    exact h.ticket
  · rw [hp.user, take_append_of_le h.le, hticket]
    exact h.early
  · rw [hp.user, List.mem_append, List.mem_singleton]
    rcases hwritten with ⟨heq, _⟩ | ⟨_, hop⟩
    · exact .inl (h.written (heq ▸ hw))
    · exact .inr hop.symm
  · rcases hwritten with ⟨heq, hne⟩ | ⟨htrue, _⟩
    · rw [hp.user, List.mem_append, List.mem_singleton] at hmem
      exact h.unwritten (hticket ▸ ht) (heq ▸ hw) m (hmem.resolve_right fun hop => hne m hop.symm)
    · rw [htrue] at hw
      cases hw
  · rw [hp.pcie, hp.done, hticket]
    exact h.inputDone (hinput ▸ hd)

theorem TransferTrack.putUser (h : TransferTrack st call before f) (hp : PutsUser call op st st')
    (hle : before ≤ (st.ops (.user call.s)).length)
    (hf : f'.ticket = f.ticket ∧ f'.transfer = f.transfer ∧ f'.recorded = f.recorded ∧
      f'.answered = f.answered) : TransferTrack st' call before f' := by
  obtain ⟨hticket, htransfer, hrecorded, hanswered⟩ := hf
  refine ⟨?_, h.transfer.grow hp.grows hle, ?_, ?_, ?_, ?_⟩
  · rw [hp.pcie, htransfer]
    exact h.untransferred
  · rw [hp.pcie, hrecorded]
    exact h.recorded
  · rw [hp.pcie, hrecorded]
    exact h.unrecorded
  · rw [hp.pcie, hanswered]
    exact h.answered
  · rw [hp.pcie, hanswered, hticket]
    exact h.unanswered

theorem CloseTrack.putUser (h : CloseTrack st call f) (hp : PutsUser call op st st')
    (hdone : st.done .pcie ≤ (st.ops .pcie).length) (hop : op ≠ .callback)
    (hf : f'.kept = f.kept ∧ f'.merged = f.merged)
    (hclosed : f'.closed = true → f.closed = true ∨
      Closed st' call (st'.ops (.user call.s)).length) : CloseTrack st' call f' := by
  refine ⟨fun hc => ?_, fun hk => ?_, fun hm => ?_⟩
  · rcases hclosed hc with hc | hc
    · exact ((h.closed hc).grow hp.grows hdone).mono hp.grows.length_le
    · exact hc
  · have hone : callbacks [op] = 0 := by simp [callbacks, hop]
    rw [hp.user, hp.registered, callbacks_append, hone]
    exact h.kept (hf.1 ▸ hk)
  · exact ((h.merged (hf.2 ▸ hm)).grow hp.grows).mono hp.grows.length_le

/-! ### Operations the collective puts on the PCIe stream -/

/-- Nothing but `op` on the PCIe stream is new. -/
structure PutsPcie (call : Call) (op : Op) (st st' : State) : Prop where
  user : st'.ops (.user call.s) = st.ops (.user call.s)
  pcie : st'.ops .pcie = st.ops .pcie ++ [op]
  done : ∀ q, st'.done q = st.done q
  registered : st'.registered call.s = st.registered call.s
  nextSequence : st'.nextSequence call.s = st.nextSequence call.s

theorem PutsPcie.grows (h : PutsPcie call op st st') (hop : op ≠ .pcie call.c) :
    Grows call st st' :=
  ⟨⟨[], by rw [h.user, List.append_nil]⟩,
    ⟨[op], h.pcie, by rw [List.mem_singleton]; exact fun heq => hop heq.symm⟩,
    fun q => (h.done q).ge, ⟨[], by rw [h.registered, List.append_nil]⟩⟩

theorem InputTrack.putPcie (h : InputTrack st call before f) (hp : PutsPcie call op st st')
    (hticket : f'.ticket = f.ticket) (hwritten : f'.written = f.written)
    (hinput : f'.inputDone = true → f.inputDone = true ∨
      f.ticket = true ∧ op = .wait .inputReady call.s call.seq) :
    InputTrack st' call before f' := by
  refine ⟨?_, ?_, ?_, ?_, ?_, fun hd => ?_⟩
  · rw [hp.user]
    exact h.le
  · rw [hp.nextSequence, hticket]
    exact h.ticket
  · rw [hp.user, hticket]
    exact h.early
  · rw [hp.user, hwritten]
    exact h.written
  · rw [hp.user, hwritten, hticket]
    exact h.unwritten
  · rw [hp.done, hp.pcie, hticket, List.mem_append, List.mem_singleton]
    rcases hinput hd with hd | ⟨ht, hop⟩
    · rcases h.inputDone hd with hle | ⟨ht, hmem⟩
      · exact .inl hle
      · exact .inr ⟨ht, .inl hmem⟩
    · exact .inr ⟨ht, .inr hop.symm⟩

theorem CloseTrack.putPcie (h : CloseTrack st call f) (hp : PutsPcie call op st st')
    (hdone : st.done .pcie ≤ (st.ops .pcie).length)
    (hf : f'.closed = f.closed ∧ f'.kept = f.kept ∧ f'.merged = f.merged)
    (hop : op ≠ .pcie call.c ∨ f.closed = false) : CloseTrack st' call f' := by
  obtain ⟨hclosed, hkept, hmerged⟩ := hf
  refine ⟨fun hc => ?_, ?_, fun hm => ?_⟩
  · rw [hclosed] at hc
    rcases hop with hop | hno
    · rw [hp.user]
      exact (h.closed hc).grow (hp.grows hop) hdone
    · rw [hc] at hno
      cases hno
  · rw [hp.user, hp.registered, hkept]
    exact h.kept
  · obtain ⟨i, p, hi, hcall, hmerges, hlt⟩ := h.merged (hmerged ▸ hm)
    refine ⟨i, p, ?_, hcall, hmerges, ?_⟩
    · rw [hp.registered]
      exact hi
    · rw [hp.user]
      exact hlt

/-- Not the transfer, the record or the answer. -/
theorem TransferTrack.putOther (h : TransferTrack st call before f) (hp : PutsPcie call op st st')
    (hle : before ≤ (st.ops (.user call.s)).length)
    (hf : f'.ticket = f.ticket ∧ f'.transfer = f.transfer ∧ f'.recorded = f.recorded ∧
      f'.answered = f.answered)
    (hop : op ≠ .pcie call.c ∧ op ≠ .record call.c ∧ ∀ m, op ≠ .write .completion call.s m) :
    TransferTrack st' call before f' := by
  have hforeign : Foreign call st st' := by
    refine ⟨hp.user, ⟨[op], hp.pcie, ?_, ?_, ?_⟩, fun q => (hp.done q).ge, hp.registered,
      hp.nextSequence⟩
    · rw [List.mem_singleton]
      exact fun heq => hop.1 heq.symm
    · rw [List.mem_singleton]
      exact fun heq => hop.2.1 heq.symm
    · intro m
      rw [List.mem_singleton]
      exact fun heq => hop.2.2 m heq.symm
  obtain ⟨hticket, htransfer, hrecorded, hanswered⟩ := hf
  have h' := h.foreign hforeign hle
  refine ⟨?_, h'.transfer, ?_, ?_, ?_, ?_⟩
  · rw [htransfer]
    exact h'.untransferred
  · rw [hrecorded]
    exact h'.recorded
  · rw [hrecorded]
    exact h'.unrecorded
  · rw [hanswered]
    exact h'.answered
  · rw [hanswered, hticket]
    exact h'.unanswered

/-- The transfer itself: its input dependency is made, and nothing after it yet. -/
theorem TransferTrack.putTransfer (h : TransferTrack st call before f)
    (hi : InputTrack st call before f) (hp : PutsPcie call (.pcie call.c) st st')
    (hinput : f.inputDone = true) (htransfer : f.transfer = false) (hrecorded : f.recorded = false)
    (hanswered : f.answered = false) :
    TransferTrack st' call before { f with transfer := true } := by
  refine ⟨nofun, fun _ => ?_, fun hr => ?_, fun _ hmem => ?_, fun ha => ?_, fun ht ha m hmem => ?_⟩
  · rcases hi.inputDone hinput with hle | ⟨ht, hwait⟩
    · refine .inl ?_
      rw [hp.done]
      exact hle
    · refine .inr ⟨?_, fun hmem => ?_⟩
      · rw [hp.pcie]
        exact Precedes.concat hwait (h.untransferred htransfer)
      · rw [hp.user] at hmem
        exact absurd (hi.early ht _ hmem) (Nat.lt_irrefl _)
  · change f.recorded = true at hr
    rw [hrecorded] at hr
    cases hr
  · rw [hp.pcie, List.mem_append, List.mem_singleton] at hmem
    exact h.unrecorded hrecorded (hmem.resolve_right nofun)
  · change f.answered = true at ha
    rw [hanswered] at ha
    cases ha
  · rw [hp.pcie, List.mem_append, List.mem_singleton] at hmem
    exact h.unanswered ht hanswered m (hmem.resolve_right nofun)

theorem TransferTrack.putRecord (h : TransferTrack st call before f)
    (hp : PutsPcie call (.record call.c) st st') (hle : before ≤ (st.ops (.user call.s)).length)
    (hrecorded : f.recorded = false) :
    TransferTrack st' call before { f with recorded := true } := by
  have hnot : Op.pcie call.c ∉ [Op.record call.c] := by simp
  refine ⟨fun ht hmem => ?_, h.transfer.grow (hp.grows nofun) hle, fun _ => ?_, nofun, fun ha => ?_,
    fun ht ha m hmem => ?_⟩
  · rw [hp.pcie, List.mem_append] at hmem
    exact h.untransferred ht (hmem.resolve_right hnot)
  · rw [hp.pcie]
    exact .concat (h.unrecorded hrecorded)
  · obtain ⟨hmem, hnever⟩ := h.answered ha
    rw [hp.pcie]
    exact ⟨List.mem_append_left _ hmem, hnever.append hnot⟩
  · rw [hp.pcie, List.mem_append, List.mem_singleton] at hmem
    exact h.unanswered ht ha m (hmem.resolve_right nofun)

theorem TransferTrack.putAnswer (h : TransferTrack st call before f)
    (hp : PutsPcie call (.write .completion call.s call.seq) st st')
    (hle : before ≤ (st.ops (.user call.s)).length) (hticket : f.ticket = true)
    (hanswered : f.answered = false) :
    TransferTrack st' call before { f with answered := true } := by
  have hnot : Op.pcie call.c ∉ [Op.write .completion call.s call.seq] := by simp
  refine ⟨fun ht hmem => ?_, h.transfer.grow (hp.grows nofun) hle, fun hr => ?_, fun hr hmem => ?_,
    fun _ => ?_, nofun⟩
  · rw [hp.pcie, List.mem_append] at hmem
    exact h.untransferred ht (hmem.resolve_right hnot)
  · rw [hp.pcie]
    exact (h.recorded hr).append hnot
  · rw [hp.pcie, List.mem_append, List.mem_singleton] at hmem
    exact h.unrecorded hr (hmem.resolve_right nofun)
  · rw [hp.pcie]
    refine ⟨List.mem_append_right _ (List.mem_singleton.2 rfl), .concat fun hmem => ?_⟩
    exact Nat.lt_irrefl _ (h.unanswered hticket hanswered _ hmem)

/-! ### The steps of a thread -/

/-- A thread that does not synchronise waits for nothing. -/
theorem Tracks.not_awaiting {t : Thread} {a : Action} {rest : List Action} (h : Tracks st t f)
    (hrest : t.rest = a :: rest) (ha : ∀ q, a ≠ .synchronize q) : t.awaiting = none := by
  cases hw : t.awaiting with
  | none => rfl
  | some n =>
    obtain ⟨q, rest', hrest', _⟩ := h.awaiting n hw
    rw [hrest] at hrest'
    exact absurd (List.cons.inj hrest').1 (ha q)

theorem Tracks.enqueue {t : Thread} {rest : List Action} (h : Tracks st t f)
    (hrest : t.rest = .enqueue q op :: rest) (hf : f.enqueue t.call q op = some f')
    (huser : q = .user t.call.s → PutsUser t.call op st st')
    (hpcie : q = .pcie → PutsPcie t.call op st st')
    (hdone : st.done .pcie ≤ (st.ops .pcie).length) :
    Tracks st' { t with rest := rest } f' := by
  have hnone := h.not_awaiting hrest (by simp)
  have hawaiting : ∀ {P : ℕ → Prop} (n : ℕ), t.awaiting = some n → P n := by
    intro P n hn
    rw [hnone] at hn
    cases hn
  have hle := h.input.le
  -- one case for every operation, each with the facts it needs
  cases op with
  | work | callback => cases hf
  | fast c =>
    simp only [Facts.enqueue] at hf
    split at hf <;> cases hf
    rename_i hcond
    have hp := huser hcond.1
    exact ⟨h.input.putUser hp rfl rfl (.inl ⟨rfl, by simp⟩),
      h.transfer.putUser hp hle ⟨rfl, rfl, rfl, rfl⟩,
      h.close.putUser hp hdone (by simp) ⟨rfl, rfl⟩ .inl, hawaiting⟩
  | pcie c =>
    simp only [Facts.enqueue] at hf
    split at hf <;> cases hf
    rename_i hcond
    obtain ⟨hq, rfl, hinput, htransfer, hrecorded, hanswered, hclosed⟩ := hcond
    have hp := hpcie hq
    exact ⟨h.input.putPcie hp rfl rfl .inl,
      h.transfer.putTransfer h.input hp hinput htransfer hrecorded hanswered,
      h.close.putPcie hp hdone ⟨rfl, rfl, rfl⟩ (.inr hclosed), hawaiting⟩
  | write token s' seq =>
    cases token with
    | inputReady =>
      simp only [Facts.enqueue] at hf
      split at hf <;> cases hf
      rename_i hcond
      obtain ⟨hq, rfl, rfl, hticket, hwritten⟩ := hcond
      have hp := huser hq
      exact ⟨h.input.putUser hp rfl rfl (.inr ⟨rfl, rfl⟩),
        h.transfer.putUser hp hle ⟨rfl, rfl, rfl, rfl⟩,
        h.close.putUser hp hdone (by simp) ⟨rfl, rfl⟩ .inl, hawaiting⟩
    | completion =>
      simp only [Facts.enqueue] at hf
      split at hf <;> cases hf
      rename_i hcond
      obtain ⟨hq, rfl, rfl, hticket, hanswered⟩ := hcond
      have hp := hpcie hq
      exact ⟨h.input.putPcie hp rfl rfl .inl, h.transfer.putAnswer hp hle hticket hanswered,
        h.close.putPcie hp hdone ⟨rfl, rfl, rfl⟩ (.inl (by simp)), hawaiting⟩
  | wait token s' seq =>
    cases token with
    | inputReady =>
      simp only [Facts.enqueue] at hf
      split at hf <;> cases hf
      rename_i hcond
      obtain ⟨hq, rfl, rfl, hticket, hwritten⟩ := hcond
      have hp := hpcie hq
      exact ⟨h.input.putPcie hp rfl rfl fun _ => .inr ⟨hticket, rfl⟩,
        h.transfer.putOther hp hle ⟨rfl, rfl, rfl, rfl⟩ ⟨by simp, by simp, by simp⟩,
        h.close.putPcie hp hdone ⟨rfl, rfl, rfl⟩ (.inl (by simp)), hawaiting⟩
    | completion =>
      simp only [Facts.enqueue] at hf
      split at hf <;> cases hf
      rename_i hcond
      obtain ⟨hq, rfl, rfl, hticket, hanswered⟩ := hcond
      have hp := huser hq
      refine ⟨h.input.putUser hp rfl rfl (.inl ⟨rfl, by simp⟩),
        h.transfer.putUser hp hle ⟨rfl, rfl, rfl, rfl⟩,
        h.close.putUser hp hdone (by simp) ⟨rfl, rfl⟩
          fun _ => .inr (.inr (.inl ⟨?_, ?_⟩)), hawaiting⟩
      · rw [List.take_length, hp.user]
        exact List.mem_append_right _ (List.mem_singleton.2 rfl)
      · rw [hp.pcie]
        exact (h.transfer.answered hanswered).2
  | record c =>
    simp only [Facts.enqueue] at hf
    split at hf <;> cases hf
    rename_i hcond
    obtain ⟨hq, rfl, hrecorded⟩ := hcond
    have hp := hpcie hq
    exact ⟨h.input.putPcie hp rfl rfl .inl, h.transfer.putRecord hp hle hrecorded,
      h.close.putPcie hp hdone ⟨rfl, rfl, rfl⟩ (.inl (by simp)), hawaiting⟩
  | waitEvent c =>
    simp only [Facts.enqueue] at hf
    split at hf <;> cases hf
    rename_i hcond
    obtain ⟨hq, rfl, hrecorded⟩ := hcond
    have hp := huser hq
    refine ⟨h.input.putUser hp rfl rfl (.inl ⟨rfl, by simp⟩),
      h.transfer.putUser hp hle ⟨rfl, rfl, rfl, rfl⟩,
      h.close.putUser hp hdone (by simp) ⟨rfl, rfl⟩
        fun _ => .inr (.inr (.inr (.inl ⟨?_, ?_⟩))), hawaiting⟩
    · rw [List.take_length, hp.user]
      exact List.mem_append_right _ (List.mem_singleton.2 rfl)
    · rw [hp.pcie]
      exact h.transfer.recorded hrecorded

/-- The thread begins to synchronise. -/
theorem Tracks.synchronize {t : Thread} {rest : List Action} (h : Tracks st t f)
    (hrest : t.rest = .synchronize q :: rest) :
    Tracks st { t with awaiting := some (st.ops q).length } f := by
  refine ⟨h.input, h.transfer, h.close, fun n hn => ⟨q, rest, hrest, ?_, ?_⟩⟩
  · intro hq
    change q = .user t.call.s at hq
    subst hq
    cases hn
    exact h.input.le
  · rintro rfl
    cases hn
    refine ⟨Nat.le_refl _, ?_⟩
    rw [List.drop_length]
    exact List.not_mem_nil

/-- What it has waited for is finished. -/
theorem Tracks.synchronized {t : Thread} {rest : List Action} (h : Tracks st t f)
    (hrest : t.rest = .synchronize q :: rest) (hn : t.awaiting = some n) (hdone : n ≤ st.done q)
    (hf : f.next t.call (.synchronize q) = some f') :
    Tracks st { t with rest := rest, awaiting := none } f' := by
  obtain ⟨q', rest', hrest', huser, hpcie⟩ := h.awaiting n hn
  rw [hrest] at hrest'
  cases hrest'
  cases q with
  | pcie =>
    cases hf
    refine ⟨⟨h.input.le, h.input.ticket, h.input.early, h.input.written, h.input.unwritten,
      h.input.inputDone⟩, ⟨h.transfer.untransferred, h.transfer.transfer, h.transfer.recorded,
      h.transfer.unrecorded, h.transfer.answered, h.transfer.unanswered⟩,
      ⟨fun _ => .inl fun hmem => ?_, h.close.kept, h.close.merged⟩, nofun⟩
    exact (hpcie rfl).2 ((List.drop_sublist_drop_left _ hdone).subset hmem)
  | user s =>
    simp only [Facts.next] at hf
    split at hf <;> cases hf
    rename_i hs
    subst hs
    exact ⟨⟨h.input.le, h.input.ticket, h.input.early, h.input.written, h.input.unwritten,
      fun _ => .inl ((huser rfl).trans hdone)⟩, ⟨h.transfer.untransferred, h.transfer.transfer,
      h.transfer.recorded, h.transfer.unrecorded, h.transfer.answered, h.transfer.unanswered⟩,
      ⟨h.close.closed, h.close.kept, h.close.merged⟩, nofun⟩

/-- The collective is registered, and its callback launched or not. -/
structure Completes (call : Call) (p : Pending) (launched : Bool) (st st' : State) : Prop where
  user : st'.ops (.user call.s) =
    st.ops (.user call.s) ++ if launched = true then [.callback] else []
  pcie : st'.ops .pcie = st.ops .pcie
  done : ∀ q, st'.done q = st.done q
  registered : st'.registered call.s = st.registered call.s ++ [p]
  nextSequence : st'.nextSequence call.s = st.nextSequence call.s

theorem Completes.grows {p : Pending} {launched : Bool} (h : Completes call p launched st st') :
    Grows call st st' :=
  ⟨⟨_, h.user⟩, ⟨[], by rw [h.pcie, List.append_nil], List.not_mem_nil⟩, fun q => (h.done q).ge,
    ⟨_, h.registered⟩⟩

/-- With no callback lost, the one that is launched takes the collective it is launched for. -/
theorem Completes.takes {p : Pending} (h : Completes call p true st st')
    (hkept : callbacks (st.ops (.user call.s)) = (st.registered call.s).length) :
    (st'.registered call.s)[(st.registered call.s).length]? = some p ∧
      (st.registered call.s).length <
        callbacks ((st'.ops (.user call.s)).take (st'.ops (.user call.s)).length) := by
  have hone : callbacks [Op.callback] = 1 := rfl
  rw [List.take_length, h.registered, h.user, callbacks_append, hkept, if_pos rfl, hone]
  exact ⟨by simp, Nat.lt_succ_self _⟩

theorem Tracks.complete {t : Thread} {p : Pending} {launched : Bool} {rest : List Action}
    (h : Tracks st t f) (hrest : t.rest = .complete p launched :: rest)
    (hf : f.next t.call (.complete p launched) = some f') (hc : Completes t.call p launched st st')
    (hdone : st.done .pcie ≤ (st.ops .pcie).length) : Tracks st' { t with rest := rest } f' := by
  have hnone := h.not_awaiting hrest nofun
  simp only [Facts.next] at hf
  split at hf <;> cases hf
  rename_i hcond
  obtain ⟨hcall, hwaits⟩ := hcond
  have hg := hc.grows
  refine ⟨⟨h.input.le.trans hg.length_le, ?_, ?_, fun hw => ?_, fun ht hw m hmem => ?_, fun hd => ?_⟩,
    ⟨?_, h.transfer.transfer.grow hg h.input.le, ?_, ?_, ?_, ?_⟩,
    ⟨fun hcl => ?_, fun hk => ?_, fun hm => ?_⟩, fun n hn => ?_⟩
  · rw [hc.nextSequence]
    exact h.input.ticket
  · rw [hc.user, take_append_of_le h.input.le]
    exact h.input.early
  · rw [hc.user]
    exact List.mem_append_left _ (h.input.written hw)
  · rw [hc.user, List.mem_append] at hmem
    refine h.input.unwritten ht hw m (hmem.resolve_right fun hmem => ?_)
    split at hmem <;> simp at hmem
  · rw [hc.done, hc.pcie]
    exact h.input.inputDone hd
  · rw [hc.pcie]
    exact h.transfer.untransferred
  · rw [hc.pcie]
    exact h.transfer.recorded
  · rw [hc.pcie]
    exact h.transfer.unrecorded
  · rw [hc.pcie]
    exact h.transfer.answered
  · rw [hc.pcie]
    exact h.transfer.unanswered
  · simp only [Bool.or_eq_true, Bool.and_eq_true] at hcl
    rcases hcl with hcl | ⟨⟨hw, rfl⟩, hk⟩
    · exact ((h.close.closed hcl).grow hg hdone).mono hg.length_le
    · obtain ⟨hp, hlt⟩ := hc.takes (h.close.kept hk)
      refine .inr (.inr (.inr ⟨⟨_, p, hp, hcall, hw, hlt⟩, ?_⟩))
      rw [hc.pcie]
      exact h.transfer.recorded (hwaits hw)
  · simp only [Bool.and_eq_true] at hk
    obtain ⟨hk, rfl⟩ := hk
    have hone : callbacks [Op.callback] = 1 := rfl
    rw [hc.user, hc.registered, callbacks_append, h.close.kept hk, if_pos rfl, hone,
      List.length_append]
    rfl
  · simp only [Bool.and_eq_true] at hm
    obtain ⟨⟨hm, rfl⟩, hk⟩ := hm
    obtain ⟨hp, hlt⟩ := hc.takes (h.close.kept hk)
    exact ⟨_, p, hp, hcall, hm, hlt⟩
  · change t.awaiting = some n at hn
    rw [hnone] at hn
    cases hn

end Steps

end Streams
end Orchestrator
end HyLink
