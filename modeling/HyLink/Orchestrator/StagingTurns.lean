import HyLink.Orchestrator.SharedStaging

/-!
# One user of the shared staging buffer at a time

Two collectives that stage in the same buffer are apart: the first one is through before the second
one is called, or its operations come first on their stream, the callback that merges included.

* `Counted.step` — what a step of the streams adds is of the calls that are under way.
* `Apart` — how two collectives share the buffer, and that they go on so.
* `staging_exclusive` — what holds in every run whose calls are ordered.
-/

namespace HyLink
namespace Orchestrator
namespace Streams

variable {cfg : Config} {nranks : ℕ} {st st' : State} {sh sh' : Shared} {u v : Call} {s : ℕ}

/-! ## One step of the streams -/

/-- Where the calls and the callbacks of the streams are. -/
structure Counted (st : State) : Prop where
  done_le : ∀ q, st.done q ≤ (st.ops q).length
  callbacks_le : ∀ s, callbacks (st.ops (.user s)) ≤ (st.registered s).length
  taken : ∀ s, st.taken s = callbacks ((st.ops (.user s)).take (st.done (.user s)))
  thread : ∀ s t, st.thread s = some t →
    t.call.s = s ∧ t.call.c < st.calls ∧ ∀ a ∈ t.rest, a.Of t.call
  distinct : ∀ s s' t t', st.thread s = some t → st.thread s' = some t' → t.call.c = t'.call.c →
    s = s'
  fast : ∀ q c, .fast c ∈ st.ops q → c < st.calls

/-- What a step adds is of the calls that are under way. -/
structure Adds (st st' : State) : Prop where
  ops : ∀ s, ∃ l, st'.ops (.user s) = st.ops (.user s) ++ l ∧
    ∀ c, .fast c ∈ l → ∃ t, st.thread s = some t ∧ t.call.c = c
  done : ∀ q, st.done q ≤ st'.done q
  taken : ∀ s, st.taken s ≤ st'.taken s
  registered : ∀ s, ∃ l, st'.registered s = st.registered s ++ l ∧
    ∀ p ∈ l, ∃ t, st.thread s = some t ∧ p.call = t.call.c
  thread : ∀ s t', st'.thread s = some t' →
    t'.call.c = st.calls ∧ st.calls < st'.calls ∨ ∃ t, st.thread s = some t ∧ t'.call = t.call
  calls : st.calls ≤ st'.calls

theorem Counted.init : Counted start where
  done_le _ := le_rfl
  callbacks_le _ := le_rfl
  taken _ := rfl
  thread _ _ h := by cases h
  distinct _ _ _ _ h := by cases h
  fast _ _ h := by cases h

theorem Adds.refl_of (hops : st'.ops = st.ops) (hdone : ∀ q, st.done q ≤ st'.done q)
    (htaken : ∀ s, st.taken s ≤ st'.taken s) (hregistered : st'.registered = st.registered)
    (hthread : ∀ s t', st'.thread s = some t' →
      t'.call.c = st.calls ∧ st.calls < st'.calls ∨ ∃ t, st.thread s = some t ∧ t'.call = t.call)
    (hcalls : st.calls ≤ st'.calls) : Adds st st' :=
  ⟨fun s => ⟨[], by rw [hops, List.append_nil], nofun⟩, hdone, htaken,
    fun s => ⟨[], by rw [hregistered, List.append_nil], nofun⟩, hthread, hcalls⟩

/-- An operation that is not a callback. -/
theorem Counted.enqueue {q : Queue} {op : Op} (h : Counted st) (hop : op ≠ .callback)
    (hfast : ∀ c, op = .fast c → c < st.calls) : Counted (st.enqueue q op) := by
  have hcallbacks : callbacks [op] = 0 := by simp [callbacks, hop]
  refine ⟨done_enqueue h.done_le, fun s => ?_, fun s => ?_, h.thread, h.distinct,
    fun q' c hmem => ?_⟩
  · show callbacks (Function.update st.ops q (st.ops q ++ [op]) (.user s)) ≤ _
    by_cases hq : Queue.user s = q
    · subst hq
      rw [Function.update_self, callbacks_append, hcallbacks]
      exact h.callbacks_le s
    · rw [Function.update_of_ne hq]
      exact h.callbacks_le s
  · show st.taken s =
      callbacks ((Function.update st.ops q (st.ops q ++ [op]) (.user s)).take (st.done (.user s)))
    rw [take_ops_append (h.done_le _)]
    exact h.taken s
  · rcases mem_ops_of_append hmem with hmem | ⟨-, heq⟩
    · exact h.fast q' c hmem
    · exact hfast c heq.symm

/-- A thread goes on with its call, or returns. -/
theorem Counted.setThread {x : Option Thread} {t : Thread} (h : Counted st)
    (ht : st.thread s = some t)
    (hx : ∀ t', x = some t' → t'.call = t.call ∧ ∀ a ∈ t'.rest, a ∈ t.rest) :
    Counted (st.setThread s x) := by
  have hof : ∀ s' t', (st.setThread s x).thread s' = some t' →
      ∃ t, st.thread s' = some t ∧ t'.call = t.call ∧ ∀ a ∈ t'.rest, a ∈ t.rest := by
    intro s' t' ht'
    by_cases hs : s' = s
    · subst hs
      rw [setThread_self] at ht'
      exact ⟨t, ht, hx t' ht'⟩
    · rw [setThread_ne hs] at ht'
      exact ⟨t', ht', rfl, fun _ ha => ha⟩
  refine ⟨h.done_le, h.callbacks_le, h.taken, fun s' t' ht' => ?_,
    fun s₁ s₂ t₁ t₂ ht₁ ht₂ hc => ?_, h.fast⟩
  · obtain ⟨t₀, ht₀, hcall, hrest⟩ := hof s' t' ht'
    obtain ⟨hs, hlt, hall⟩ := h.thread s' t₀ ht₀
    rw [hcall]
    exact ⟨hs, hlt, fun a ha => hall a (hrest a ha)⟩
  · obtain ⟨t₀, ht₀, hcall, -⟩ := hof s₁ t₁ ht₁
    obtain ⟨t₀', ht₀', hcall', -⟩ := hof s₂ t₂ ht₂
    exact h.distinct s₁ s₂ t₀ t₀' ht₀ ht₀' (by rw [← hcall, ← hcall', hc])

/-- `RegisterStreamPending`, and the callback where it is launched. -/
theorem Counted.completed {p : Pending} {launched : Bool} (h : Counted st) :
    Counted (st.completed s p launched) := by
  have hlength : ∀ s', (st.registered s').length ≤
      (Function.update st.registered s (st.registered s ++ [p]) s').length := by
    intro s'
    by_cases hs : s' = s
    · subst hs
      rw [Function.update_self, List.length_append]
      exact Nat.le_add_right _ _
    · rw [Function.update_of_ne hs]
  unfold State.completed
  cases launched with
  | false =>
    exact ⟨h.done_le, fun s' => (h.callbacks_le s').trans (hlength s'), h.taken, h.thread,
      h.distinct, h.fast⟩
  | true =>
    refine ⟨done_enqueue h.done_le, fun s' => ?_, fun s' => ?_, h.thread, h.distinct,
      fun q c hmem => ?_⟩
    · show callbacks (Function.update st.ops (.user s) (st.ops (.user s) ++ [.callback]) (.user s'))
        ≤ (Function.update st.registered s (st.registered s ++ [p]) s').length
      by_cases hs : s' = s
      · subst hs
        rw [Function.update_self, Function.update_self, callbacks_append, List.length_append]
        exact Nat.add_le_add_right (h.callbacks_le s') 1
      · rw [Function.update_of_ne (fun heq => hs (Queue.user.inj heq)), Function.update_of_ne hs]
        exact h.callbacks_le s'
    · show st.taken s' = callbacks ((Function.update st.ops (.user s)
        (st.ops (.user s) ++ [.callback]) (.user s')).take (st.done (.user s')))
      rw [take_ops_append (h.done_le _)]
      exact h.taken s'
    · rcases mem_ops_of_append hmem with hmem | ⟨-, heq⟩
      · exact h.fast q c hmem
      · cases heq

theorem Counted.device {q : Queue} (h : Counted st) (hstep : step cfg st (.device q) = some st') :
    Counted st' ∧ Adds st st' := by
  unfold Streams.step at hstep
  dsimp only at hstep
  split at hstep
  · cases hstep
  · rename_i op hop
    split at hstep
    · split at hstep <;> cases hstep
      obtain ⟨hops, hregistered, -, hthread, hcalls, -⟩ := effect_frame q op st
      have htaken := effect_taken h.callbacks_le h.taken hop
      have hdone : ∀ q', st.done q' ≤ Function.update st.done q (st.done q + 1) q' := by
        intro q'
        by_cases hq : q' = q
        · subst hq
          rw [Function.update_self]
          exact Nat.le_succ _
        · rw [Function.update_of_ne hq]
      refine ⟨⟨fun q' => ?_, fun s => ?_, fun s => ?_, ?_, ?_, ?_⟩,
        .refl_of hops hdone (fun s => ?_) hregistered (fun s t' ht' => ?_) hcalls.ge⟩
      · show Function.update st.done q (st.done q + 1) q' ≤ ((st.effect q op).ops q').length
        rw [hops]
        by_cases hq : q' = q
        · subst hq
          rw [Function.update_self]
          exact (List.getElem?_eq_some_iff.1 hop).1
        · rw [Function.update_of_ne hq]
          exact h.done_le q'
      · show callbacks ((st.effect q op).ops _) ≤ ((st.effect q op).registered s).length
        rw [hops, hregistered]
        exact h.callbacks_le s
      · show (st.effect q op).taken s = callbacks (((st.effect q op).ops _).take
          (Function.update st.done q (st.done q + 1) (.user s)))
        rw [htaken, hops, h.taken s]
        by_cases hq : Queue.user s = q
        · subst hq
          rw [Function.update_self, callbacks_take_succ hop]
          simp
        · rw [Function.update_of_ne hq, if_neg fun hc => hq hc.1.symm, Nat.add_zero]
      · show ∀ s t, (st.effect q op).thread s = some t →
          t.call.s = s ∧ t.call.c < (st.effect q op).calls ∧ ∀ a ∈ t.rest, a.Of t.call
        rw [hthread, hcalls]
        exact h.thread
      · show ∀ s s' t t', (st.effect q op).thread s = some t →
          (st.effect q op).thread s' = some t' → t.call.c = t'.call.c → s = s'
        rw [hthread]
        exact h.distinct
      · show ∀ q' c, .fast c ∈ (st.effect q op).ops q' → c < (st.effect q op).calls
        rw [hops, hcalls]
        exact h.fast
      · show st.taken s ≤ (st.effect q op).taken s
        rw [htaken]
        exact Nat.le_add_right _ _
      · rw [show ({ st.effect q op with done := _, running := _ } : State).thread = st.thread from
          hthread] at ht'
        exact .inr ⟨t', ht', rfl⟩
    · cases hstep
      exact ⟨⟨h.done_le, h.callbacks_le, h.taken, h.thread, h.distinct, h.fast⟩,
        .refl_of rfl (fun _ => le_rfl) (fun _ => le_rfl) rfl (fun s t' ht' => .inr ⟨t', ht', rfl⟩)
          le_rfl⟩

/-- A thread puts an operation of its own on a stream, and goes on. -/
theorem Adds.enqueue {q : Queue} {op : Op} {x : Option Thread} {t : Thread}
    (ht : st.thread s = some t) (hs : t.call.s = s)
    (hfast : ∀ c, op = .fast c → q = .user t.call.s ∧ c = t.call.c)
    (hx : ∀ t', x = some t' → t'.call = t.call) : Adds st ((st.enqueue q op).setThread s x) := by
  refine ⟨fun s' => ?_, fun _ => le_rfl, fun _ => le_rfl,
    fun s' => ⟨[], (List.append_nil _).symm, nofun⟩, fun s' t' ht' => ?_, le_rfl⟩
  · by_cases hq : Queue.user s' = q
    · subst hq
      refine ⟨[op], Function.update_self .., fun c hc => ?_⟩
      obtain ⟨hq, rfl⟩ := hfast c (List.mem_singleton.1 hc).symm
      obtain rfl : s' = s := by rw [Queue.user.inj hq, hs]
      exact ⟨t, ht, rfl⟩
    · exact ⟨[], by rw [List.append_nil]; exact Function.update_of_ne hq .., nofun⟩
  · by_cases hs' : s' = s
    · subst hs'
      rw [setThread_self] at ht'
      exact .inr ⟨t, ht, hx t' ht'⟩
    · rw [setThread_ne hs'] at ht'
      exact .inr ⟨t', ht', rfl⟩

theorem Adds.setThread {x : Option Thread} {t : Thread} (ht : st.thread s = some t)
    (hx : ∀ t', x = some t' → t'.call = t.call) : Adds st (st.setThread s x) := by
  refine .refl_of rfl (fun _ => le_rfl) (fun _ => le_rfl) rfl (fun s' t' ht' => ?_) le_rfl
  by_cases hs' : s' = s
  · subst hs'
    rw [setThread_self] at ht'
    exact .inr ⟨t, ht, hx t' ht'⟩
  · rw [setThread_ne hs'] at ht'
    exact .inr ⟨t', ht', rfl⟩

theorem Adds.completed {p : Pending} {launched : Bool} {x : Option Thread} {t : Thread}
    (ht : st.thread s = some t) (hp : p.call = t.call.c)
    (hx : ∀ t', x = some t' → t'.call = t.call) :
    Adds st ((st.completed s p launched).setThread s x) := by
  have hplain := Plain.complete s p launched st x
  have htaken : (st.completed s p launched).taken = st.taken := by
    unfold State.completed
    cases launched <;> rfl
  have hthread : (st.completed s p launched).thread = st.thread := by
    unfold State.completed
    cases launched <;> rfl
  have hcalls : (st.completed s p launched).calls = st.calls := by
    unfold State.completed
    cases launched <;> rfl
  have hregistered : (st.completed s p launched).registered =
      Function.update st.registered s (st.registered s ++ [p]) := by
    unfold State.completed
    cases launched <;> rfl
  refine ⟨fun s' => ?_, hplain.done, fun s' => ?_, fun s' => ?_, fun s' t' ht' => ?_, ?_⟩
  · by_cases hs' : s' = s
    · subst hs'
      obtain ⟨l, hl, hmem⟩ := hplain.user
      refine ⟨l, hl, fun c hc => ?_⟩
      rcases hmem _ hc with heq | heq <;> cases heq
    · exact ⟨[], by rw [List.append_nil]; exact hplain.ops _ fun heq => hs' (Queue.user.inj heq),
        nofun⟩
  · show st.taken s' ≤ (st.completed s p launched).taken s'
    rw [htaken]
  · show ∃ l, (st.completed s p launched).registered s' = _ ∧ _
    rw [hregistered]
    by_cases hs' : s' = s
    · subst hs'
      refine ⟨[p], Function.update_self .., fun p' hp' => ⟨t, ht, ?_⟩⟩
      rw [List.mem_singleton.1 hp', hp]
    · exact ⟨[], by rw [List.append_nil, Function.update_of_ne hs'], nofun⟩
  · by_cases hs' : s' = s
    · subst hs'
      rw [setThread_self] at ht'
      exact .inr ⟨t, ht, hx t' ht'⟩
    · rw [setThread_ne hs', hthread] at ht'
      exact .inr ⟨t', ht', rfl⟩
  · show st.calls ≤ (st.completed s p launched).calls
    rw [hcalls]

theorem Counted.work (h : Counted st) (hstep : step cfg st (.work s) = some st') :
    Counted st' ∧ Adds st st' := by
  obtain ⟨-, heq⟩ := Option.ite_none_right_eq_some.1 hstep
  cases heq
  refine ⟨h.enqueue nofun nofun, fun s' => ?_, fun _ => le_rfl, fun _ => le_rfl,
    fun s' => ⟨[], (List.append_nil _).symm, nofun⟩, fun s' t' ht' => .inr ⟨t', ht', rfl⟩, le_rfl⟩
  by_cases hs : s' = s
  · subst hs
    exact ⟨[.work], Function.update_self .., fun c hc => by simp at hc⟩
  · exact ⟨[], by
      rw [List.append_nil]
      exact Function.update_of_ne (fun heq => hs (Queue.user.inj heq)) .., nofun⟩

theorem Counted.called {kind : Kind} {plan : Plan} {outcome : Outcome} (h : Counted st)
    (hstep : step cfg st (.call s kind plan outcome) = some st') : Counted st' ∧ Adds st st' := by
  obtain ⟨-, heq⟩ := Option.ite_none_right_eq_some.1 hstep
  cases heq
  have hof : ∀ s' t', Function.update st.thread s
      (some ⟨st.newCall s kind plan outcome, script cfg (st.newCall s kind plan outcome), none,
        (st.ops (.user s)).length⟩) s' = some t' →
      s' = s ∧ t'.call = st.newCall s kind plan outcome ∧
          t'.rest = script cfg (st.newCall s kind plan outcome) ∨
        s' ≠ s ∧ st.thread s' = some t' := by
    intro s' t' ht'
    by_cases hs : s' = s
    · subst hs
      rw [Function.update_self] at ht'
      cases ht'
      exact .inl ⟨rfl, rfl, rfl⟩
    · rw [Function.update_of_ne hs] at ht'
      exact .inr ⟨hs, ht'⟩
  refine ⟨⟨h.done_le, h.callbacks_le, h.taken, fun s' t' ht' => ?_,
    fun s₁ s₂ t₁ t₂ ht₁ ht₂ hc => ?_, fun q c hmem => (h.fast q c hmem).trans (Nat.lt_succ_self _)⟩,
    .refl_of rfl (fun _ => le_rfl) (fun _ => le_rfl) rfl (fun s' t' ht' => ?_) (Nat.le_succ _)⟩
  · rcases hof s' t' ht' with ⟨rfl, hcall, hrest⟩ | ⟨-, ht⟩
    · rw [hcall, hrest]
      exact ⟨rfl, Nat.lt_succ_self _, of_script⟩
    · obtain ⟨hs, hlt, hall⟩ := h.thread s' t' ht
      exact ⟨hs, hlt.trans (Nat.lt_succ_self _), hall⟩
  · rcases hof s₁ t₁ ht₁ with ⟨rfl, hcall, -⟩ | ⟨-, ht₁⟩ <;>
      rcases hof s₂ t₂ ht₂ with ⟨hs, hcall', -⟩ | ⟨-, ht₂⟩
    · exact hs.symm
    · -- the new number is larger
      have hlt := (h.thread s₂ t₂ ht₂).2.1
      rw [← hc, hcall] at hlt
      exact absurd hlt (lt_irrefl _)
    · have hlt := (h.thread s₁ t₁ ht₁).2.1
      rw [hc, hcall'] at hlt
      exact absurd hlt (lt_irrefl _)
    · exact h.distinct s₁ s₂ t₁ t₂ ht₁ ht₂ hc
  · rcases hof s' t' ht' with ⟨-, hcall, -⟩ | ⟨-, ht⟩
    · rw [hcall]
      exact .inl ⟨rfl, Nat.lt_succ_self _⟩
    · exact .inr ⟨t', ht, rfl⟩

theorem Counted.returned (h : Counted st) (l : List (Call × ℕ × ℕ)) :
    Counted { st with returned := l } :=
  ⟨h.done_le, h.callbacks_le, h.taken, h.thread, h.distinct, h.fast⟩

theorem Adds.returned (h : Adds st st') (l : List (Call × ℕ × ℕ)) :
    Adds st { st' with returned := l } :=
  ⟨h.ops, h.done, h.taken, h.registered, h.thread, h.calls⟩

theorem Counted.host (h : Counted st) (hstep : step cfg st (.host s) = some st') :
    Counted st' ∧ Adds st st' := by
  unfold Streams.step at hstep
  dsimp only at hstep
  cases ht : st.thread s with
  | none =>
    rw [ht] at hstep
    cases hstep
  | some t =>
    obtain ⟨hs, hlt, hall⟩ := h.thread s t ht
    rw [ht] at hstep
    dsimp only at hstep
    cases hrest : t.rest with
    | nil =>
      rw [hrest] at hstep
      cases hstep
      have hnone : ∀ t', (none : Option Thread) = some t' → False := fun t' ht' => by cases ht'
      exact ⟨(h.setThread ht fun t' ht' => (hnone t' ht').elim).returned _,
        (Adds.setThread ht fun t' ht' => (hnone t' ht').elim).returned _⟩
    | cons a rest =>
      have hmem : ∀ b ∈ rest, b ∈ t.rest := fun b hb => by
        rw [hrest]
        exact List.mem_cons_of_mem _ hb
      have hof := hall a (by rw [hrest]; exact List.mem_cons_self ..)
      cases a with
      | enqueue q op =>
        simp only [hrest] at hstep
        cases hstep
        refine ⟨(h.enqueue hof.1 fun c hc => ?_).setThread ht fun t' ht' => ?_,
          .enqueue ht hs hof.2 fun t' ht' => ?_⟩
        · rw [(hof.2 c hc).2]
          exact hlt
        · cases ht'
          exact ⟨rfl, hmem⟩
        · cases ht'
          rfl
      | synchronize q =>
        simp only [hrest] at hstep
        split at hstep
        · cases hstep
          refine ⟨h.setThread ht fun t' ht' => ?_, .setThread ht fun t' ht' => ?_⟩
          · cases ht'
            exact ⟨rfl, fun b hb => by rw [hrest]; exact hb⟩
          · cases ht'
            rfl
        · obtain ⟨-, heq⟩ := Option.ite_none_right_eq_some.1 hstep
          cases heq
          refine ⟨h.setThread ht fun t' ht' => ?_, .setThread ht fun t' ht' => ?_⟩
          · cases ht'
            exact ⟨rfl, hmem⟩
          · cases ht'
            rfl
      | complete p launched =>
        simp only [hrest] at hstep
        have heq : st' = (st.completed s p launched).setThread s (some { t with rest := rest }) :=
          (Option.some.inj hstep).symm
        rw [heq]
        have hthread : (st.completed s p launched).thread s = some t := by
          rw [← ht]
          unfold State.completed
          cases launched <;> rfl
        refine ⟨h.completed.setThread hthread fun t' ht' => ?_,
          .completed ht hof fun t' ht' => ?_⟩
        · cases ht'
          exact ⟨rfl, hmem⟩
        · cases ht'
          rfl

/-- **One step** adds operations and pending collectives of the calls that are under way. -/
theorem Counted.step {l : Label} (h : Counted st) (hstep : Streams.step cfg st l = some st') :
    Counted st' ∧ Adds st st' := by
  cases l with
  | work s => exact h.work hstep
  | call s kind plan outcome => exact h.called hstep
  | host s => exact h.host hstep
  | device q => exact h.device hstep

/-! ## Two collectives that stage in the buffer -/

/-- The collective is through with the buffer: `State.through`, with no thread anywhere. -/
structure Gone (st : State) (u : Call) : Prop where
  host : ∀ s t, st.thread s = some t → t.call.c ≠ u.c
  ops : .fast u.c ∉ (st.ops (.user u.s)).drop (st.done (.user u.s))
  merge : ∀ i p, st.taken u.s ≤ i → (st.registered u.s)[i]? = some p → p.mergeOf u.c = false

/-- All that `u` does is among the first `b` operations of the stream, and nothing of `v` is. -/
structure Ahead (st : State) (u v : Call) (b : ℕ) : Prop where
  stream : u.s = v.s
  host : ∀ s t, st.thread s = some t → t.call.c ≠ u.c
  le : b ≤ (st.ops (.user u.s)).length
  ops : .fast u.c ∉ (st.ops (.user u.s)).drop b
  merge : ∀ i p, (st.registered u.s)[i]? = some p → p.mergeOf u.c = true →
    i < callbacks ((st.ops (.user u.s)).take b)
  later : .fast v.c ∉ (st.ops (.user u.s)).take b

/-- The first collective is through before the second one begins. -/
def Apart (st : State) (u v : Call) : Prop := Gone st u ∨ ∃ b, Ahead st u v b

theorem mem_drop_of_getElem? {l : List Op} {x : Op} {d p : ℕ} (hx : l[p]? = some x) (hd : d ≤ p) :
    x ∈ l.drop d := by
  refine List.mem_of_getElem? (i := p - d) ?_
  rw [List.getElem?_drop, Nat.add_sub_cancel' hd, hx]

theorem mem_take_of_getElem? {l : List Op} {x : Op} {d p : ℕ} (hx : l[p]? = some x) (hd : p < d) :
    x ∈ l.take d := by
  refine List.mem_of_getElem? (i := p) ?_
  rw [List.getElem?_take_of_lt hd, hx]

theorem Apart.not_writing_later (h : Counted st) (ha : Apart st u v) (hread : st.ToRead u) :
    ¬ st.Writing v := by
  rintro ⟨-, hop, -⟩
  rcases ha with hgone | ⟨b, hahead⟩
  · rcases hread with ⟨p, hp, hfast, -⟩ | ⟨i, p, hi, hp, hcall, hmerges⟩ | ⟨t, ht, hc, -⟩
    · exact hgone.ops (mem_drop_of_getElem? hfast hp)
    · have hnot := hgone.merge i p hi hp
      simp [Pending.mergeOf, hcall, hmerges] at hnot
    · exact hgone.host _ t ht hc
  · -- the stream has come to `v`, past all of `u`
    rw [← hahead.stream] at hop
    have hb : b ≤ st.done (.user u.s) := by
      by_contra hlt
      exact hahead.later (mem_take_of_getElem? hop (not_le.1 hlt))
    rcases hread with ⟨p, hp, hfast, -⟩ | ⟨i, p, hi, hp, hcall, hmerges⟩ | ⟨t, ht, hc, -⟩
    · exact hahead.ops (mem_drop_of_getElem? hfast (hb.trans hp))
    · have hlt := hahead.merge i p hp (by simp [Pending.mergeOf, hcall, hmerges])
      have htaken := h.taken u.s
      have hle := callbacks_take_le (l := st.ops (.user u.s)) hb
      omega
    · exact hahead.host _ t ht hc

theorem Apart.not_writing_earlier (ha : Apart st u v) (hwritten : st.Written v) :
    ¬ st.Writing u := by
  rintro ⟨-, hop, -⟩
  rcases ha with hgone | ⟨b, hahead⟩
  · exact hgone.ops (mem_drop_of_getElem? hop le_rfl)
  · obtain ⟨p, hp, hfast, -⟩ := hwritten
    rw [← hahead.stream] at hp hfast
    have hb : b ≤ p := by
      by_contra hlt
      exact hahead.later (mem_take_of_getElem? hfast (not_le.1 hlt))
    exact hahead.ops (mem_drop_of_getElem? hop (by omega))

/-! ### The streams go on -/

theorem Adds.host (h : Adds st st') (hlt : u.c < st.calls)
    (hhost : ∀ s t, st.thread s = some t → t.call.c ≠ u.c) :
    ∀ s t, st'.thread s = some t → t.call.c ≠ u.c := by
  intro s t' ht'
  rcases h.thread s t' ht' with ⟨hnew, -⟩ | ⟨t, ht, hcall⟩
  · omega
  · rw [hcall]
    exact hhost s t ht

theorem Adds.drop (h : Adds st st') (hhost : ∀ s t, st.thread s = some t → t.call.c ≠ u.c)
    {d d' : ℕ} (hd : d ≤ d') (hnot : .fast u.c ∉ (st.ops (.user u.s)).drop d) :
    .fast u.c ∉ (st'.ops (.user u.s)).drop d' := by
  obtain ⟨l, hl, hnew⟩ := h.ops u.s
  intro hmem
  have hmem := (List.drop_sublist_drop_left (st'.ops (.user u.s)) hd).subset hmem
  rw [hl, List.drop_append, List.mem_append] at hmem
  rcases hmem with hmem | hmem
  · exact hnot hmem
  · obtain ⟨t, ht, hc⟩ := hnew u.c (List.mem_of_mem_drop hmem)
    exact hhost _ t ht hc

theorem Adds.mergeOf (h : Adds st st') (hhost : ∀ s t, st.thread s = some t → t.call.c ≠ u.c)
    {i : ℕ} {p : Pending} (hp : (st'.registered u.s)[i]? = some p) (hmerge : p.mergeOf u.c = true) :
    (st.registered u.s)[i]? = some p := by
  obtain ⟨l, hl, hnew⟩ := h.registered u.s
  rw [hl] at hp
  by_cases hi : i < (st.registered u.s).length
  · rwa [List.getElem?_append_left hi] at hp
  · rw [List.getElem?_append_right (by omega)] at hp
    obtain ⟨t, ht, hcall⟩ := hnew p (List.mem_of_getElem? hp)
    simp only [Pending.mergeOf, Bool.and_eq_true, decide_eq_true_eq] at hmerge
    exact absurd (hcall.symm.trans hmerge.1) (hhost _ t ht)

theorem Gone.adds (h : Gone st u) (ha : Adds st st') (hlt : u.c < st.calls) : Gone st' u := by
  refine ⟨ha.host hlt h.host, ha.drop h.host (ha.done _) h.ops, fun i p hi hp => ?_⟩
  by_contra hmerge
  rw [Bool.not_eq_false] at hmerge
  rw [h.merge i p ((ha.taken _).trans hi) (ha.mergeOf h.host hp hmerge)] at hmerge
  cases hmerge

theorem Ahead.adds {b : ℕ} (h : Ahead st u v b) (ha : Adds st st') (hlt : u.c < st.calls) :
    Ahead st' u v b := by
  have htake : (st'.ops (.user u.s)).take b = (st.ops (.user u.s)).take b := by
    obtain ⟨l, hl, -⟩ := ha.ops u.s
    rw [hl, Theory.take_append_of_le h.le]
  refine ⟨h.stream, ha.host hlt h.host, ?_, ha.drop h.host le_rfl h.ops,
    fun i p hp hmerge => ?_, ?_⟩
  · obtain ⟨l, hl, -⟩ := ha.ops u.s
    rw [hl, List.length_append]
    exact h.le.trans (Nat.le_add_right _ _)
  · rw [htake]
    exact h.merge i p (ha.mergeOf h.host hp hmerge) hmerge
  · rw [htake]
    exact h.later

theorem Apart.adds (h : Apart st u v) (ha : Adds st st') (hlt : u.c < st.calls) :
    Apart st' u v := by
  rcases h with hgone | ⟨b, hahead⟩
  · exact .inl (hgone.adds ha hlt)
  · exact .inr ⟨b, hahead.adds ha hlt⟩

/-! ## Runs -/

/-- What holds of the collectives that stage in `pcie_recvbuf`. -/
structure Shared.Inv (sh : Shared) : Prop where
  counted : Counted sh.streams
  lt : ∀ u ∈ sh.users, u.1.c < sh.streams.calls
  mine : ∀ u ∈ sh.users, ∀ s t, sh.streams.thread s = some t → t.call.c = u.1.c → t.call = u.1
  apart : ∀ u ∈ sh.users, ∀ v ∈ sh.users, u.1.c ≠ v.1.c →
    Apart sh.streams u.1 v.1 ∨ Apart sh.streams v.1 u.1
  buffer : ∀ u ∈ sh.users, sh.recvbuf.map Recvbuf.buffer = some u.2

theorem Shared.Inv.exclusive (h : sh.Inv) : sh.Exclusive := by
  intro u hu v hv hc hwritten hread
  rcases h.apart u hu v hv hc with hapart | hapart
  · exact hapart.not_writing_later h.counted hread
  · exact hapart.not_writing_earlier hwritten

theorem Shared.Inv.start (recvbuf : Option Recvbuf) : (Shared.start recvbuf).Inv where
  counted := Counted.init
  lt _ h := absurd h List.not_mem_nil
  mine _ h := absurd h List.not_mem_nil
  apart _ h := absurd h List.not_mem_nil
  buffer _ h := absurd h List.not_mem_nil

theorem Shared.Inv.gone (h : sh.Inv) {w : Call × ℕ} (hw : w ∈ sh.users)
    (hthrough : sh.streams.through w.1 = true) : Gone sh.streams w.1 := by
  simp only [State.through, Bool.and_eq_true, Option.all_eq_true, List.all_eq_true,
    decide_eq_true_eq, Bool.not_eq_true'] at hthrough
  obtain ⟨⟨hhost, hops⟩, hmerge⟩ := hthrough
  refine ⟨fun s t ht hc => ?_, fun hmem => hops _ hmem rfl, fun i p hi hp => ?_⟩
  · have hcall := h.mine w hw s t ht hc
    have hs := (h.counted.thread s t ht).1
    rw [hcall] at hs
    subst hs
    exact hhost t ht hc
  · refine hmerge p (List.mem_of_getElem? (i := i - sh.streams.taken w.1.s) ?_)
    rw [List.getElem?_drop, Nat.add_sub_cancel' hi, hp]

theorem Shared.Inv.ahead (h : sh.Inv) {w : Call × ℕ} (hw : w ∈ sh.users)
    (hahead : sh.streams.ahead w.1 s = true) (hnone : sh.streams.thread s = none)
    (hs : v.s = s) (hc : v.c = sh.streams.calls) :
    Ahead sh.streams w.1 v (sh.streams.ops (.user s)).length := by
  simp only [State.ahead, Bool.and_eq_true, List.all_eq_true, decide_eq_true_eq,
    Bool.not_eq_true'] at hahead
  obtain ⟨rfl, hmerge⟩ := hahead
  refine ⟨hs.symm, fun s t ht hcall => ?_, le_rfl, ?_, fun i p hp hm => ?_, ?_⟩
  · have heq := h.mine w hw s t ht hcall
    have hts := (h.counted.thread s t ht).1
    rw [heq] at hts
    subst hts
    rw [hnone] at ht
    cases ht
  · rw [List.drop_length]
    exact List.not_mem_nil
  · by_contra hlt
    rw [List.take_length, not_lt] at hlt
    have hmem : p ∈ (sh.streams.registered w.1.s).drop
        (callbacks (sh.streams.ops (.user w.1.s))) := by
      refine List.mem_of_getElem? (i := i - callbacks (sh.streams.ops (.user w.1.s))) ?_
      rw [List.getElem?_drop, Nat.add_sub_cancel' hlt, hp]
    rw [hmerge p hmem] at hm
    cases hm
  · intro hmem
    have hlt := h.counted.fast _ _ (List.mem_of_mem_take hmem)
    omega

/-- The streams go on, and no collective is new. -/
theorem Shared.Inv.next (h : sh.Inv) (hcounted : Counted st') (ha : Adds sh.streams st') :
    Shared.Inv { sh with streams := st' } := by
  refine ⟨hcounted, fun w hw => (h.lt w hw).trans_le ha.calls, fun w hw s t' ht' hc => ?_,
    fun w hw x hx hc => ?_, h.buffer⟩
  · rcases ha.thread s t' ht' with ⟨hnew, -⟩ | ⟨t, ht, hcall⟩
    · have hlt := h.lt w hw
      omega
    · rw [hcall] at hc ⊢
      exact h.mine w hw s t ht hc
  · rcases h.apart w hw x hx hc with hapart | hapart
    · exact .inl (hapart.adds ha (h.lt w hw))
    · exact .inr (hapart.adds ha (h.lt x hx))

/-- **A collective takes the shared buffer** when those that are not through with it are ahead on
its stream. -/
theorem Shared.Inv.add {kind : Kind} {plan : Plan} {outcome : Outcome} {buffer : ℕ} (h : sh.Inv)
    (hstep : Streams.step cfg sh.streams (.call s kind plan outcome) = some st')
    (hbuffer : sh.recvbuf.map Recvbuf.buffer = some buffer)
    (hall : ∀ w ∈ sh.users, sh.streams.through w.1 = true ∨ sh.streams.ahead w.1 s = true) :
    Shared.Inv { sh with
      streams := st'
      users := (sh.streams.newCall s kind plan outcome, buffer) :: sh.users } := by
  obtain ⟨hcounted, ha⟩ := h.counted.called hstep
  obtain ⟨hnone, heq⟩ := Option.ite_none_right_eq_some.1 hstep
  rw [Option.isNone_iff_eq_none] at hnone
  have hcalls : st'.calls = sh.streams.calls + 1 := by
    rw [← Option.some.inj heq]
  have hself : ∀ s' t', st'.thread s' = some t' → t'.call.c = sh.streams.calls →
      t'.call = sh.streams.newCall s kind plan outcome := by
    intro s' t' ht' hc
    by_cases hs : s' = s
    · subst hs
      rw [← Option.some.inj heq] at ht'
      simp only [Function.update_self, Option.some.injEq] at ht'
      rw [← ht']
    · rw [← Option.some.inj heq] at ht'
      simp only [Function.update_of_ne hs] at ht'
      have hlt := (h.counted.thread s' t' ht').2.1
      omega
  have hnew : ∀ w ∈ sh.users, Apart st' w.1 (sh.streams.newCall s kind plan outcome) := by
    intro w hw
    refine Apart.adds ?_ ha (h.lt w hw)
    rcases hall w hw with hthrough | hahead
    · exact .inl (h.gone hw hthrough)
    · exact .inr ⟨_, h.ahead hw hahead hnone rfl rfl⟩
  have hold := h.next hcounted ha
  refine ⟨hcounted, fun w hw => ?_, fun w hw s' t' ht' hc => ?_, fun w hw x hx hc => ?_,
    fun w hw => ?_⟩
  · rcases List.mem_cons.1 hw with rfl | hw
    · show sh.streams.calls < st'.calls
      omega
    · exact hold.lt w hw
  · rcases List.mem_cons.1 hw with rfl | hw
    · exact hself s' t' ht' hc
    · exact hold.mine w hw s' t' ht' hc
  · rcases List.mem_cons.1 hw with rfl | hw <;> rcases List.mem_cons.1 hx with rfl | hx
    · exact absurd rfl hc
    · exact .inr (hnew x hx)
    · exact .inl (hnew w hw)
    · exact hold.apart w hw x hx hc
  · rcases List.mem_cons.1 hw with rfl | hw
    · exact hbuffer
    · exact h.buffer w hw

theorem Shared.Inv.step {l : Label} (h : sh.Inv) (hord : sh.ordered cfg nranks l = true)
    (hstep : sh.step cfg nranks l = some sh') : sh'.Inv := by
  have hother : ∀ st', Streams.step cfg sh.streams l = some st' →
      Shared.Inv { sh with streams := st' } := fun st' hst' =>
    h.next (h.counted.step hst').1 (h.counted.step hst').2
  cases l with
  | call s kind plan outcome =>
    simp only [Shared.step] at hstep
    split at hstep
    · cases hstep
    · obtain ⟨next, hnext, rfl⟩ := Option.map_eq_some_iff.1 hstep
      by_cases htakes : (stages cfg (sh.streams.newCall s kind plan outcome) &&
          fits nranks sh.recvbuf plan) = true
      · have hfits := (Bool.and_eq_true_iff.1 htakes).2
        obtain ⟨b, hb, -⟩ := (Option.any_eq_true _ _).1 hfits
        have hnew : sh.newUsers cfg nranks (sh.streams.newCall s kind plan outcome) =
            [(sh.streams.newCall s kind plan outcome, b.buffer)] := by
          refine (if_pos htakes).trans ?_
          rw [hb]
          rfl
        rw [hnew]
        refine h.add hnext (by rw [hb]; rfl) fun w hw => ?_
        simp only [Shared.ordered, htakes, Bool.not_true, Bool.false_or, List.all_eq_true,
          Bool.or_eq_true] at hord
        exact hord w hw
      · have hnew : sh.newUsers cfg nranks (sh.streams.newCall s kind plan outcome) = [] := by
          unfold Shared.newUsers
          exact if_neg htakes
        rw [hnew]
        exact hother next hnext
  | work s =>
    obtain ⟨next, hnext, rfl⟩ := Option.map_eq_some_iff.1 hstep
    exact hother next hnext
  | host s =>
    obtain ⟨next, hnext, rfl⟩ := Option.map_eq_some_iff.1 hstep
    exact hother next hnext
  | device q =>
    obtain ⟨next, hnext, rfl⟩ := Option.map_eq_some_iff.1 hstep
    exact hother next hnext

/-- **The staging buffer has one user at a time.**  In every run whose calls are ordered, nobody
else writes to `pcie_recvbuf` between the first write and the last read of a collective, and it is
the allocation that the collective has taken. -/
theorem staging_exclusive (cfg : Config) (nranks : ℕ) (recvbuf : Option Recvbuf) {ls : List Label}
    (hrun : (sharedMachine cfg nranks).runFrom (Shared.ordered cfg nranks) (.start recvbuf) ls =
      some sh) :
    sh.Exclusive ∧ ∀ u ∈ sh.users, sh.recvbuf.map Recvbuf.buffer = some u.2 := by
  have hinv : sh.Inv := (sharedMachine cfg nranks).invariant (I := Shared.Inv)
    (fun _ _ _ h hord hstep => h.step hord hstep) (.start recvbuf) hrun
  exact ⟨hinv.exclusive, hinv.buffer⟩

/-- A domain without V-collectives. -/
def unpacked : Config := ⟨.cuda, true, true, false, false, false, fun _ => false⟩

/-- What the host does for a hybrid gather of a stream. -/
def gatherCall (s : ℕ) : List Label :=
  .call s .allGather ⟨8, 8, true⟩ succeeds :: List.replicate 9 (.host s)

/-- A gather, and another one on its stream. -/
def inTurn : List Label :=
  gatherCall 1 ++ List.replicate 2 (.device (.user 1)) ++ List.replicate 4 (.device .pcie) ++
    List.replicate 6 (.device (.user 1)) ++ gatherCall 1

theorem staging_exclusive_in_turn : ∃ sh : Shared,
    (sharedMachine unpacked 2).runFrom (Shared.ordered unpacked 2) (.start (some ⟨1, 64⟩)) inTurn =
      some sh ∧
    sh.users.length = 2 ∧ sh.Exclusive ∧
    ∀ u ∈ sh.users, sh.recvbuf.map Recvbuf.buffer = some u.2 := by
  have hseen : ((sharedMachine unpacked 2).runFrom (Shared.ordered unpacked 2)
      (.start (some ⟨1, 64⟩)) inTurn).map (fun sh => sh.users.length) = some 2 := by
    decide +kernel
  obtain ⟨sh, hrun, husers⟩ := Option.map_eq_some_iff.1 hseen
  exact ⟨sh, hrun, husers, staging_exclusive unpacked 2 (some ⟨1, 64⟩) hrun⟩

/-- Two gathers on two streams: the second one gathers where the first one has still to read. -/
def twoStreams : List Label :=
  gatherCall 1 ++ List.replicate 2 (.device (.user 1)) ++ gatherCall 2 ++ [.device (.user 2)]

/-- **Two streams share the buffer.** -/
theorem staging_exclusive_two_streams : ¬ ∀ (ls : List Label) (sh : Shared),
    (sharedMachine unpacked 2).runFrom Theory.Machine.anyStep (.start (some ⟨1, 64⟩)) ls =
      some sh → sh.Exclusive := by
  intro hall
  have hfirst : ((sharedMachine unpacked 2).runFrom Theory.Machine.anyStep (.start (some ⟨1, 64⟩))
      twoStreams).map (fun sh => (sh.users.map Prod.fst, sh.streams.ops (.user 1),
        sh.streams.done (.user 1))) =
      some ([⟨1, 2, 1, .allGather, ⟨8, 8, true⟩, succeeds⟩,
          ⟨0, 1, 1, .allGather, ⟨8, 8, true⟩, succeeds⟩],
        [.fast 0, .waitEvent 0, .fast 0, .callback], 1) := by
    decide +kernel
  have hsecond : ((sharedMachine unpacked 2).runFrom Theory.Machine.anyStep
      (.start (some ⟨1, 64⟩)) twoStreams).map (fun sh => (sh.streams.ops (.user 2),
        sh.streams.done (.user 2), sh.streams.running (.user 2))) =
      some ([.fast 1, .waitEvent 1, .fast 1, .callback], 0, true) := by
    decide +kernel
  obtain ⟨sh, hrun, heq⟩ := Option.map_eq_some_iff.1 hfirst
  rw [hrun] at hsecond
  simp only [Option.map_some, Option.some.injEq, Prod.mk.injEq] at heq hsecond
  obtain ⟨husers, hops, hdone⟩ := heq
  obtain ⟨hops', hdone', hrunning⟩ := hsecond
  obtain ⟨v, hv, hvcall⟩ := List.mem_map.1 (show
    (⟨1, 2, 1, .allGather, ⟨8, 8, true⟩, succeeds⟩ : Call) ∈ sh.users.map Prod.fst by simp [husers])
  obtain ⟨u, hu, hucall⟩ := List.mem_map.1 (show
    (⟨0, 1, 1, .allGather, ⟨8, 8, true⟩, succeeds⟩ : Call) ∈ sh.users.map Prod.fst by simp [husers])
  refine hall twoStreams sh hrun u hu v hv ?_ ?_ ?_ ?_
  · rw [hucall, hvcall]
    decide
  · rw [hucall]
    refine ⟨0, .inl (by rw [hdone]; decide), by rw [hops]; rfl, ?_⟩
    simp [Call.writesStaging, State.turn, succeeds]
  · rw [hucall]
    refine .inl ⟨2, by rw [hdone]; decide, by rw [hops]; rfl, ?_⟩
    simp [Call.readsStaging, State.turn, hops]
  · rw [hvcall]
    refine ⟨hrunning, by rw [hops', hdone']; rfl, ?_⟩
    simp [Call.writesStaging, State.turn, hdone', succeeds]

end Streams
end Orchestrator
end HyLink
