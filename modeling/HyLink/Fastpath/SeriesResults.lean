import HyLink.Fastpath.SeriesKernels

/-!
# Every request of a series comes out right

The ranks read one another's buffers while they work through a series of requests, and use their
slots, staging buffers and scratch over and over.

* `Comm.Orderly` — the lists, words and the barrier of all ranks belong together.
* `Comm.Resolved`, `Comm.Fed`, `Comm.Staged` — the ranks agree on the mode, what a launched kernel
  reads is there, and what is staged is the data of the request.
* `Comm.Holds` — the device of a rank whose user waits, before, during and after a request.
* `Comm.release_outcome` — in every run, when the user's stream of a rank goes past a request, its
  device is the outcome of the request.
* `Comm.reads_given` — in every run, whatever a kernel reads of a rank is what that rank's user
  gave for the same request.
-/

namespace HyLink
namespace Fastpath
namespace Series
namespace Comm

variable {V : Type} {c : Comm V} {st st' : State V} {k r s : ℕ} {w w' w'' : Worker} {op x : HostOp}
  {rest : List HostOp} {mem mem' : Place → ℕ → V} {words words' : Words} {l : Label V}

/-! ## Order -/

/-- All ranks are in order. -/
structure Orderly (c : Comm V) (st : State V) : Prop where
  lists : ∀ r, c.Lists r (st.worker r)
  user : ∀ r, c.UserTurn r st.words (st.worker r)
  words : ∀ r, c.OwnWords r st.words (st.worker r)
  barrier : c.Barrier st

theorem UserTurn.other (h : c.UserTurn s words w) (hm : c.Move r mem words w' mem' words' w'')
    (hs : s ≠ r) : c.UserTurn s words' w :=
  have hwords := hm.words_eq hs
  h.congr rfl rfl rfl rfl rfl rfl hwords.2.2.2.2.1 hwords.2.2.2.2.2

theorem OwnWords.other (h : c.OwnWords s words w) (hm : c.Move r mem words w' mem' words' w'')
    (hs : s ≠ r) : c.OwnWords s words' w :=
  have hwords := hm.words_eq hs
  h.congr rfl rfl rfl rfl hwords.1 hwords.2.1 hwords.2.2.1 hwords.2.2.2.1

theorem Orderly.step (h : c.Orderly st) (hstep : c.step st l = some st') : c.Orderly st' := by
  obtain ⟨hrank, mem, words, w, hm, rfl⟩ := step_cases hstep
  refine ⟨fun s => ?_, fun s => ?_, fun s => ?_, h.barrier.move (h.lists _) hrank hm⟩
  all_goals
    by_cases hs : s = l.rank
    · subst hs
      simp only [Function.update_self]
      first
        | exact (h.lists _).move hm
        | exact (h.user _).move (h.lists _) hm
        | exact (h.words _).move (h.lists _) hm
    · simp only [Function.update_of_ne hs]
      first
        | exact h.lists s
        | exact (h.user s).other hm hs
        | exact (h.words s).other hm hs

theorem Orderly.init (mem : Place → ℕ → V) : c.Orderly (State.init mem) where
  lists := fun r =>
    { todo := List.nil_suffix
      finished := le_rfl
      busy := fun h => absurd rfl h
      room := Nat.zero_le _
      idle := fun _ => rfl
      processed := fun i hi => by cases hi
      staged := fun _ => rfl
      drained := fun _ => rfl }
  user := fun r =>
    { released := le_rfl
      reached := Nat.zero_le _
      submitted := le_rfl
      signalled := Nat.zero_le _
      began := le_rfl
      hostLe := fun _ => le_rfl
      host := fun h => absurd h (lt_irrefl _)
      completeLe := fun _ => Nat.zero_le _ }
  words := fun r =>
    { readyLe := fun _ => Nat.zero_le _
      ready := fun h => absurd h (lt_irrefl _)
      stageLe := fun _ => Nat.zero_le _
      stage := fun h => absurd h (lt_irrefl _)
      okLe := fun _ => Nat.zero_le _
      missingLe := fun _ => Nat.zero_le _
      ok := fun h => absurd h.symm (Nat.succ_ne_zero _)
      missing := fun h => absurd h.symm (Nat.succ_ne_zero _)
      status := fun _ h => absurd h (lt_irrefl _) }
  barrier :=
    { bounds := fun _ _ => ⟨le_rfl, Nat.zero_le _⟩
      waiting := fun _ _ h => absurd h.symm (Nat.succ_ne_zero _)
      raised := fun _ _ _ h => absurd h (lt_irrefl _)
      count := by simp [State.init, Worker.passed]
      lt_worldSize := Nat.zero_lt_one.trans c.one_lt_worldSize }

/-- A worker that has operations left past `op` has not arrived. -/
theorem arrive_mem (h : c.Lists r w) (htodo : w.todo = op :: rest) (hpart : op.part < 6) :
    .arrive ∈ w.todo := by
  rw [htodo]
  exact List.mem_cons_of_mem _ (mem_rest (htodo ▸ h.todo) (end_mem (by simp)) hpart)

/-- **A word with the number of a request comes from that request.** -/
theorem Orderly.same_request (h : c.Orderly st) (hr : r < c.worldSize) (hs : s < c.worldSize)
    (harrive : .arrive ∈ (st.worker r).todo) {word : ℕ} (hle : word ≤ (st.worker s).passed x)
    (hword : word = workSeq (st.worker r).finished) :
    (st.worker s).finished = (st.worker r).finished ∧
      (st.worker r).finished < (st.worker s).passed x := by
  have hpassed := passed_le (st.worker s) x
  rw [hword, workSeq] at hle
  exact ⟨h.barrier.same_request hr hs harrive (by omega), hle⟩

/-- The direct status that a rank reads is the peer's for the same request. -/
theorem Orderly.status_eq (h : c.Orderly st) (hr : r < c.worldSize) {p : ℕ} {ok : Bool}
    (hp : p < c.worldSize) (harrive : .arrive ∈ (st.worker r).todo)
    (hok : c.getFastpathDirectStatus st.words (st.worker r).finished p = some ok) :
    ok = c.localNeedsAllDirectSources (st.worker r).finished p := by
  have hsame : ∀ word : ℕ, word ≤ (st.worker p).finished + 1 →
      word = workSeq (st.worker r).finished → (st.worker p).finished = (st.worker r).finished :=
    fun word hle hword =>
      h.barrier.same_request hr hp harrive (by rw [hword, workSeq] at hle; omega)
  unfold getFastpathDirectStatus at hok
  split at hok
  · next hword =>
    have hfinished := hsame _ ((h.words p).okLe _) hword
    cases hok
    rw [← hfinished] at hword ⊢
    exact ((h.words p).ok hword).symm
  · split at hok
    · next hword =>
      have hfinished := hsame _ ((h.words p).missingLe _) hword
      cases hok
      rw [← hfinished] at hword ⊢
      exact ((h.words p).missing hword).symm
    · cases hok

/-- How far a worker has come never goes back. -/
theorem Move.passed_le_passed (h : c.Lists r w) (hm : c.Move r mem words w mem' words' w')
    (x : HostOp) : w.passed x ≤ w'.passed x := by
  have hpop : ∀ {op : HostOp} {rest : List HostOp} {w' : Worker}, w.todo = op :: rest →
      op ≠ .finish → w'.todo = rest → w'.finished = w.finished → w.passed x ≤ w'.passed x := by
    intro op rest w' htodo hne htodo' hfinished
    rw [passed_pop (htodo ▸ h.todo) htodo hne htodo' hfinished]
    split
    · exact passed_le w x
    · exact le_rfl
  cases hm with
  | take hidle =>
    rw [passed_of_idle hidle]
    exact finished_le_passed { w with
      todo := c.execute w.finished r
      allDirect := c.collectiveTopologyCanAllDirect w.finished } x
  | ready htodo => exact hpop htodo (by simp) rfl rfl
  | publishStatus htodo => exact hpop htodo (by simp) rfl rfl
  | resolve htodo => exact hpop htodo (by simp) rfl rfl
  | stage htodo => exact hpop htodo (by simp) rfl rfl
  | launch htodo hop =>
    refine hpop htodo ?_ rfl rfl
    rcases hop with rfl | ⟨s, rfl, -⟩ <;> simp
  | synchronize htodo => exact hpop htodo (by simp) rfl rfl
  | arrive htodo => exact hpop htodo (by simp) rfl rfl
  | leave htodo => exact hpop htodo (by simp) rfl rfl
  | signal htodo => exact hpop htodo (by simp) rfl rfl
  | @finish rest htodo =>
    have hpassed : ∀ x, ({ w with todo := rest, finished := w.finished + 1 } : Worker).passed x =
        _ := passed_finish (htodo ▸ h.todo) htodo rfl rfl
    rw [hpassed]
    split
    · exact passed_le w x
    · exact le_rfl
  | submit | element | retire | write | reach | release => exact le_rfl

/-- A rank's memories change by its own steps alone. -/
theorem Move.mem_eq (hm : c.Move r mem words w mem' words' w') (hs : s ≠ r) :
    mem' (.device s) = mem (.device s) ∧ (∀ x, mem' (.scratch s x) = mem (.scratch s x)) ∧
      mem' (.staging s) = mem (.staging s) := by
  cases hm with
  | stage =>
    unfold stageLocalSource
    split_ifs <;> simp [hs]
  | @element i op =>
    cases op with
    | reduce operand => cases operand <;> simp [runElement, hs]
    | _ => simp [runElement, hs]
  | _ => simp [hs]

/-! ## The mode of a request -/

variable (c) in
/-- What `all_direct` of a worker says. -/
structure Resolved (r : ℕ) (w : Worker) : Prop where
  direct : w.todo ≠ [] → w.allDirect = true → ∀ p < c.worldSize, .resolve p ∉ w.todo →
    c.localNeedsAllDirectSources w.finished p = true
  staged : w.todo ≠ [] → w.allDirect = false →
    c.collectiveTopologyCanAllDirect w.finished = false ∨
      ∃ p < c.worldSize, c.localNeedsAllDirectSources w.finished p = false
  /-- Without the exchange nobody is direct. -/
  topology : w.todo ≠ [] → w.allDirect = true → c.collectiveTopologyCanAllDirect w.finished = true

theorem resolve_mem {p : ℕ} (h : HostOp.resolve p ∈ c.execute k r) :
    c.collectiveTopologyCanAllDirect k = true ∧ p < c.worldSize := by
  have hkind : HostOp.resolve p ∉ c.executeKind k r := fun h => by
    obtain ⟨ops, last, hops, -, hparts, hlast⟩ := c.executeKind_shape k r
    rw [hops, List.mem_append] at h
    rcases h with h | h
    · exact absurd (hparts _ h) (by simp [HostOp.part])
    · rcases hlast with rfl | ⟨rfl, -⟩ <;> simp at h
  simp only [execute, List.mem_append, List.mem_cons, reduceCtorEq, false_or, List.not_mem_nil,
    or_false, hkind] at h
  unfold resolveDirectMode at h
  split at h
  · next htopo =>
    simp only [List.mem_cons, reduceCtorEq, List.mem_map, List.mem_range, HostOp.resolve.injEq,
      exists_eq_right, false_or] at h
    exact ⟨htopo, h⟩
  · cases h

theorem Resolved.move (hl : c.Lists r w) (h : c.Resolved r w)
    (hm : c.Move r mem words w mem' words' w')
    (hstatus : ∀ p < c.worldSize, ∀ ok, .arrive ∈ w.todo →
      c.getFastpathDirectStatus words w.finished p = some ok →
        ok = c.localNeedsAllDirectSources w.finished p) : c.Resolved r w' := by
  have hpop : ∀ {op : HostOp} {rest : List HostOp} {w' : Worker}, w.todo = op :: rest →
      (∀ p, op ≠ .resolve p) → w'.todo = rest → w'.finished = w.finished →
      w'.allDirect = w.allDirect → c.Resolved r w' := by
    intro op rest w' htodo hop htodo' hfinished hall
    have hne : w.todo ≠ [] := by simp [htodo]
    refine ⟨fun _ hd p hp hmem => ?_, fun _ hd => ?_, fun _ hd => ?_⟩
    · rw [hfinished]
      refine h.direct hne (hall ▸ hd) p hp fun hmem' => hmem ?_
      rw [htodo] at hmem'
      rw [htodo']
      exact (List.mem_cons.1 hmem').resolve_left fun heq => hop p heq.symm
    · rw [hfinished]; exact h.staged hne (hall ▸ hd)
    · rw [hfinished]; exact h.topology hne (hall ▸ hd)
  cases hm with
  | take =>
    refine ⟨fun _ hd p hp hmem => absurd ?_ hmem, fun _ hd => Or.inl hd, fun _ hd => hd⟩
    have htopo : c.collectiveTopologyCanAllDirect w.finished = true := hd
    simp [execute, resolveDirectMode, htopo, hp]
  | @resolve p ok rest htodo hok =>
    have hne : w.todo ≠ [] := by simp [htodo]
    have hp := (resolve_mem (hl.todo.subset (htodo ▸ List.mem_cons_self))).2
    have hlocal := hstatus p hp ok (arrive_mem hl htodo (by simp [HostOp.part])) hok
    refine ⟨fun _ hd q hq hmem => ?_, fun _ hd => ?_, fun _ hd => ?_⟩
    · simp only [Bool.and_eq_true] at hd
      by_cases hqp : q = p
      · subst hqp
        rw [← hlocal]
        exact hd.2
      · refine h.direct hne hd.1 q hq fun hmem' => hmem ?_
        rw [htodo] at hmem'
        exact (List.mem_cons.1 hmem').resolve_left fun heq => hqp (HostOp.resolve.inj heq)
    · simp only [Bool.and_eq_false_iff] at hd
      rcases hd with hd | hd
      · exact h.staged hne hd
      · exact Or.inr ⟨p, hp, hlocal ▸ hd⟩
    · simp only [Bool.and_eq_true] at hd
      exact h.topology hne hd.1
  | ready htodo => exact hpop htodo (by simp) rfl rfl rfl
  | publishStatus htodo => exact hpop htodo (by simp) rfl rfl rfl
  | stage htodo => exact hpop htodo (by simp) rfl rfl rfl
  | launch htodo hop =>
    refine hpop htodo ?_ rfl rfl rfl
    rcases hop with rfl | ⟨s, rfl, -⟩ <;> simp
  | synchronize htodo => exact hpop htodo (by simp) rfl rfl rfl
  | arrive htodo => exact hpop htodo (by simp) rfl rfl rfl
  | leave htodo => exact hpop htodo (by simp) rfl rfl rfl
  | signal htodo => exact hpop htodo (by simp) rfl rfl rfl
  | finish htodo =>
    obtain rfl := rest_of_finish (htodo ▸ hl.todo)
    exact ⟨fun hne => absurd rfl hne, fun hne => absurd rfl hne, fun hne => absurd rfl hne⟩
  | submit | element | retire | write | reach | release =>
    exact ⟨h.direct, h.staged, h.topology⟩

/-- Two ranks at the same request that are both past the exchange have the same mode. -/
theorem Resolved.agree {u : Worker} (hl : c.Lists r w) (hl' : c.Lists s u) (h : c.Resolved r w)
    (h' : c.Resolved s u) (hsame : u.finished = w.finished) (hpast : w.finished < w.passed .stage)
    (hpast' : u.finished < u.passed .stage) : u.allDirect = w.allDirect := by
  -- behind the stage word nothing is left to resolve
  have hgone : ∀ {q : ℕ} {v : Worker}, c.Lists q v → v.finished < v.passed .stage →
      v.todo ≠ [] ∧ ∀ p, HostOp.resolve p ∉ v.todo := by
    intro q v hv hlt
    obtain ⟨hne, hstage⟩ := lt_passed_iff.1 hlt
    refine ⟨hne, fun p hp => hstage ?_⟩
    obtain ⟨pre, post, hsplit⟩ := List.append_of_mem hp
    have hsuf : .resolve p :: post <:+ c.execute v.finished q :=
      List.IsSuffix.trans ⟨pre, hsplit.symm⟩ hv.todo
    rw [hsplit]
    exact List.mem_append_right _ (List.mem_cons_of_mem _ (mem_rest hsuf stage_mem (by
      simp [HostOp.part])))
  obtain ⟨hne, hnone⟩ := hgone hl hpast
  obtain ⟨hne', hnone'⟩ := hgone hl' hpast'
  have hiff : ∀ {q q' : ℕ} {v v' : Worker}, c.Resolved q v → c.Resolved q' v' →
      v'.finished = v.finished → v.todo ≠ [] → v'.todo ≠ [] → (∀ p, HostOp.resolve p ∉ v.todo) →
      v.allDirect = true → v'.allDirect = true := by
    intro q q' v v' hv hv' heq hvne hvne' hvnone hall
    by_contra hnot
    rcases hv'.staged hvne' (by simpa using hnot) with htopo | ⟨p, hp, hlocal⟩
    · rw [heq, hv.topology hvne hall] at htopo
      cases htopo
    · rw [heq, hv.direct hvne hall p hp (hvnone p)] at hlocal
      cases hlocal
  rw [Bool.eq_iff_iff]
  exact ⟨hiff h' h hsame.symm hne' hne hnone', hiff h h' hsame hne hne' hnone⟩

/-! ## What a kernel reads is there -/

/-- A source that the worker of rank `r` has found. -/
structure Sourced (st : State V) (r : ℕ) (src : SourceInfo) : Prop where
  ready : (st.worker r).finished < (st.worker src.rank).passed .ready
  staged : ∀ s, src = .host s → s ≠ r ∧ (st.worker r).finished < (st.worker s).passed .stage ∧
    (st.worker r).allDirect = false

/-- What the kernels on the stream of a rank read has been found. -/
def Fed (st : State V) (r : ℕ) : Prop :=
  ∀ op ∈ (st.worker r).queue, ∀ src o, op.reads r = some (src, o) → Sourced st r src

theorem Sourced.mono {src : SourceInfo} (h : Sourced st r src)
    (hfinished : (st'.worker r).finished = (st.worker r).finished)
    (hdirect : (st'.worker r).allDirect = (st.worker r).allDirect)
    (hpassed : ∀ s x, (st.worker s).passed x ≤ (st'.worker s).passed x) : Sourced st' r src where
  ready := by rw [hfinished]; exact h.ready.trans_le (hpassed _ _)
  staged := fun s hs => by
    rw [hfinished, hdirect]
    obtain ⟨hne, hstage, hall⟩ := h.staged s hs
    exact ⟨hne, hstage.trans_le (hpassed _ _), hall⟩

theorem Admissible.root_lt (h : c.Admissible k) {root : ℕ}
    (hkind : (c.request k).kind = .broadcast root) : root < c.worldSize := by
  simp only [Admissible, hkind] at h
  exact h.1

/-- The source of a turn is a rank whose contribution is needed. -/
theorem source_mem {s : ℕ}
    (hroot : ∀ root, (c.request k).kind = .broadcast root → root < c.worldSize)
    (hr : r < c.worldSize) (h : HostOp.source s ∈ c.execute k r) :
    s < c.worldSize ∧ (s ≠ r → c.sourceRankNeeded k r s = true) := by
  have hmem := mem_executeKind h rfl
  cases hkind : (c.request k).kind with
  | allGather =>
    simp only [executeKind, hkind, executeAllGather, List.mem_append, List.mem_map, List.mem_range,
      HostOp.source.injEq, exists_eq_right, List.mem_singleton, reduceCtorEq, or_false] at hmem
    exact ⟨hmem, fun hne => by simp [sourceRankNeeded, hkind, hne, hmem]⟩
  | broadcast root =>
    have heq : s = root := by
      simp only [executeKind, hkind, executeBroadcast, List.mem_cons, HostOp.source.injEq] at hmem
      refine hmem.resolve_right fun hmem => ?_
      split at hmem <;> simp at hmem
    exact ⟨heq ▸ hroot root hkind, fun hne => by simp [sourceRankNeeded, hkind, ← heq, hne]⟩
  | allReduce =>
    have hlt : s < c.worldSize := by
      simp only [executeKind, hkind, executeAllReduce, List.mem_append, List.mem_map,
        List.mem_singleton, reduceCtorEq, or_false] at hmem
      rcases hmem with hmem | ⟨t, ht, heq⟩
      · split at hmem
        · cases hmem
        · rw [HostOp.source.inj (List.mem_singleton.1 hmem)]
          exact seedSource_lt hr
      · split at heq
        · cases heq
        · rw [← HostOp.source.inj heq]
          exact List.mem_range.1 (List.mem_filter.1 ht).1
    exact ⟨hlt, fun hne => by simp [sourceRankNeeded, hkind, hne, hlt]⟩
  | reduceScatter =>
    simp only [executeKind, hkind, executeReduceScatter, List.mem_append, List.mem_cons,
      List.mem_map, List.mem_filter, List.mem_range, HostOp.source.injEq, reduceCtorEq, false_or,
      exists_eq_right, List.not_mem_nil, or_false] at hmem
    exact ⟨hmem.1, fun hne => by simp [sourceRankNeeded, hkind, hne, hmem.1]⟩

/-- What an operation launches reads the rank itself or the source that was found. -/
theorem reads_launched {a : Bool} {op : HostOp} {o : StreamOp} (ho : o ∈ c.launched k r a op)
    {src : SourceInfo} {offset : ℕ} (hreads : o.reads r = some (src, offset)) :
    src = .device r ∨ ∃ s, op = .source s ∧ src = c.sourceInfo k r a s := by
  cases op with
  | own =>
    left
    simp only [launched] at ho
    split at ho
    · obtain rfl := List.mem_singleton.1 ho
      cases hreads
      rfl
    · split at ho
      · cases ho
      · obtain rfl := List.mem_singleton.1 ho
        cases hreads
        rfl
    · cases ho
    · cases ho
  | source s =>
    right
    refine ⟨s, rfl, ?_⟩
    simp only [launched] at ho
    split at ho
    · split at ho
      · cases ho
      · obtain rfl := List.mem_singleton.1 ho
        cases hreads
        rfl
    · split at ho
      · cases ho
      · obtain rfl := List.mem_singleton.1 ho
        cases hreads
        rfl
    · split at ho
      · obtain rfl := List.mem_singleton.1 ho
        cases hreads
        rfl
      · rcases List.mem_cons.1 ho with rfl | ho
        · cases hreads
          rfl
        · obtain rfl := List.mem_singleton.1 ho
          cases hreads
    · rcases List.mem_cons.1 ho with rfl | ho
      · cases hreads
        rfl
      · obtain rfl := List.mem_singleton.1 ho
        cases hreads
  | _ => cases ho

/-- **What the worker launches reads what is there.** -/
theorem Sourced.launch (hadm : c.Admissible (st.worker r).finished) (h : c.Orderly st)
    (hres : c.Resolved r (st.worker r)) (hr : r < c.worldSize) {op : HostOp} {rest : List HostOp}
    (htodo : (st.worker r).todo = op :: rest)
    (hop : op = .own ∨ ∃ s, op = .source s ∧ c.sourceReady st.words (st.worker r).finished r
      (st.worker r).allDirect s = true) {o : StreamOp}
    (ho : o ∈ c.launched (st.worker r).finished r (st.worker r).allDirect op) {src : SourceInfo}
    {offset : ℕ} (hreads : o.reads r = some (src, offset)) : Sourced st r src := by
  have hl := h.lists r
  have hpart : op.part = 4 := by rcases hop with rfl | ⟨s, rfl, -⟩ <;> rfl
  have harrive := arrive_mem hl htodo (by rw [hpart]; decide)
  have hready := lt_passed_of_part (x := .ready) (htodo ▸ hl.todo) htodo (by rw [hpart]; decide)
  rcases reads_launched ho hreads with rfl | ⟨s, rfl, rfl⟩
  · exact ⟨hready, fun s hs => by cases hs⟩
  obtain ⟨hs, hneeded⟩ := source_mem (fun _ => hadm.root_lt) hr
    (hl.todo.subset (htodo ▸ List.mem_cons_self))
  have hsource :
      c.sourceReady st.words (st.worker r).finished r (st.worker r).allDirect s = true := by
    obtain hop | ⟨t, hop, hsource⟩ := hop
    · cases hop
    · cases hop
      exact hsource
  simp only [sourceReady, Bool.or_eq_true, beq_iff_eq, Bool.and_eq_true] at hsource
  refine ⟨?_, fun t ht => ?_⟩
  · rw [sourceInfo_rank]
    rcases hsource with rfl | ⟨hword, -⟩
    · exact hready
    · exact (h.same_request hr hs harrive ((h.words s).readyLe _) hword).2
  · unfold sourceInfo at ht
    split at ht
    · cases ht
    next hdirect =>
    cases ht
    have hne : s ≠ r := fun heq => hdirect (by simp [direct, heq])
    have hstage : st.words.stageSeq s (c.slot (st.worker r).finished) =
        workSeq (st.worker r).finished := (hsource.resolve_left hne).2.resolve_left hdirect
    refine ⟨hne, (h.same_request hr hs harrive ((h.words s).stageLe _) hstage).2, ?_⟩
    -- were all direct, the source would have been found on its device
    by_contra hall
    rw [Bool.not_eq_false] at hall
    have hnone : .resolve r ∉ (st.worker r).todo := fun hmem => by
      rw [htodo] at hmem
      rcases List.mem_cons.1 hmem with heq | hmem
      · cases heq
      · have := part_le_of_mem (htodo ▸ hl.todo) hmem
        simp [HostOp.part] at this
    have hlocal := hres.direct (by simp [htodo]) hall r hr hnone
    simp only [localNeedsAllDirectSources, List.all_eq_true, List.mem_range, Bool.or_eq_true,
      Bool.not_eq_true', Bool.and_eq_true] at hlocal
    rcases hlocal s hs with hno | ⟨⟨hipc, hpair⟩, hprobed⟩
    · rw [hneeded hne] at hno
      cases hno
    · refine hdirect ?_
      simp [direct, allowRemoteDirect, hall, hipc, hpair, c.bound_of_probed _ _ _ hprobed]

/-! ## The device of a rank -/

/-- The kernels that are still to be launched. -/
def pending (c : Comm V) (k r : ℕ) (todo : List HostOp) : List StreamOp :=
  todo.flatMap fun op => (c.launched k r true op).map StreamOp.named

theorem launched_of_part {a : Bool} (h : op.part ≠ 4) : c.launched k r a op = [] := by
  cases op <;> first | rfl | exact absurd rfl h

theorem pending_cons_of_part (h : op.part ≠ 4) :
    c.pending k r (op :: rest) = c.pending k r rest := by
  simp only [pending, List.flatMap_cons, launched_of_part h, List.map_nil, List.nil_append]

theorem pending_of_forall {todo : List HostOp} (h : ∀ op ∈ todo, op.part ≠ 4) :
    c.pending k r todo = [] :=
  List.flatMap_eq_nil_iff.2 fun op hop => by rw [launched_of_part (h op hop), List.map_nil]

theorem pending_execute (c : Comm V) (k r : ℕ) : c.pending k r (c.execute k r) = c.kernels k r := by
  have hmode : c.pending k r (c.resolveDirectMode k) = [] := pending_of_forall fun op hop => by
    unfold resolveDirectMode at hop
    split at hop
    · simp only [List.mem_cons, List.mem_map] at hop
      obtain rfl | ⟨p, -, rfl⟩ := hop <;> simp [HostOp.part]
    · cases hop
  have hend : c.pending k r [.arrive, .leave, .signal, .finish] = [] := rfl
  have hready : c.pending k r (.ready :: c.resolveDirectMode k) = [] :=
    (pending_cons_of_part (by decide)).trans hmode
  have hstage : c.pending k r (.stage :: c.executeKind k r) = c.kernels k r :=
    pending_cons_of_part (by decide)
  rw [execute, pending, List.flatMap_append, List.flatMap_append]
  simp only [pending] at hready hstage hend
  rw [hready, hstage, hend, List.nil_append, List.append_nil]

/-- While the stage word is not written, everything is still to be launched. -/
theorem pending_of_stage_mem {todo : List HostOp} (hsuf : todo <:+ c.execute k r)
    (hmem : .stage ∈ todo) : c.pending k r todo = c.kernels k r := by
  obtain ⟨pre, hpre⟩ := hsuf
  have hpair := c.execute_pairwise k r
  rw [← hpre, List.pairwise_append] at hpair
  have hnone : c.pending k r pre = [] := pending_of_forall fun op hop => by
    have hle : op.part ≤ 3 := (hpair.2.2 op hop _ hmem).1
    omega
  rw [← pending_execute, ← hpre, pending, pending, List.flatMap_append]
  simp only [pending] at hnone
  rw [hnone, List.nil_append]

/-- The cells that a rank writes. -/
def cells (device scratch : ℕ → V) : Cell → V
  | .device a => device a
  | .scratch i => scratch i

variable (c) in
/-- The cells when the running kernel has come as far as it has. -/
def running (k r : ℕ) (w : Worker) (v : Cell → V) : Cell → V :=
  match w.queue with
  | [] => v
  | op :: _ => c.after k r (c.contribution k (c.given k)) op w.processed v

variable (c) in
/-- The device of a rank whose user waits for a request. -/
structure Holds (r : ℕ) (mem : Place → ℕ → V) (w : Worker) : Prop where
  before : w.released < w.reached → w.passed .ready ≤ w.released →
    mem (.device r) = c.given w.released r
  during : w.released < w.reached → w.released = w.finished → w.finished < w.passed .ready →
    ∃ fin base, (∀ a, base (.device a) = c.given w.finished r a) ∧
      c.kernels w.finished r =
        fin ++ (w.queue.map StreamOp.named ++ c.pending w.finished r w.todo) ∧
      cells (mem (.device r)) (mem (.scratch r (c.slot w.finished))) =
        c.running w.finished r w
          (c.runKernels w.finished r (c.contribution w.finished (c.given w.finished)) fin base)
  after : w.released < w.reached → w.released < w.finished →
    mem (.device r) = c.outcome w.released (c.given w.released) r

theorem Holds.congr (h : c.Holds r mem w) (hdevice : mem' (.device r) = mem (.device r))
    (hscratch : ∀ x, mem' (.scratch r x) = mem (.scratch r x)) : c.Holds r mem' w := by
  obtain ⟨h1, h2, h3⟩ := h
  constructor <;> simpa only [hdevice, hscratch]

/-- A kernel that is on the stream is being waited for. -/
theorem waits_of_queue (hl : c.Lists r w) (hu : c.UserTurn r words w) (hqueue : w.queue ≠ []) :
    w.released < w.reached ∧ w.released = w.finished ∧ w.finished < w.passed .ready := by
  have hstage : w.finished < w.passed .stage :=
    lt_of_le_of_ne (finished_le_passed w _) fun heq => hqueue (hl.staged heq.symm)
  have hsync : w.passed .synchronize = w.finished :=
    le_antisymm (Nat.not_lt.1 fun hlt => hqueue (hl.drained hlt)) (finished_le_passed w _)
  obtain ⟨hne, -⟩ := lt_passed_iff.1 hstage
  obtain ⟨op, rest, htodo⟩ := List.exists_cons_of_ne_nil hne
  have hsuf := htodo ▸ hl.todo
  have hpart : op.part ≠ 0 ∧ op.part < 8 := by
    constructor
    · intro hzero
      have hmem : HostOp.stage ∈ w.todo := by
        rw [htodo]
        exact List.mem_cons_of_mem _ (mem_rest hsuf stage_mem (by rw [hzero]; decide))
      exact (lt_passed_iff.1 hstage).2 hmem
    · by_contra hlt
      have := lt_passed_of_part (x := .synchronize) hsuf htodo
        (show 5 < op.part by omega)
      omega
  have hready := lt_passed_of_part (x := .ready) hsuf htodo (show 0 < op.part by omega)
  have hsignal : w.passed .signal = w.finished := by
    refine passed_of_mem ?_
    rw [htodo]
    exact List.mem_cons_of_mem _ (mem_rest hsuf (end_mem (by simp)) hpart.2)
  have h1 := hu.began
  have h2 := hu.reached
  have h3 := hu.signalled
  omega

/-- What an element of a kernel does to the cells, when its source holds what the rank gave. -/
theorem cells_runElement {op : StreamOp} {i : ℕ}
    (hread : ∀ src o, op.reads r = some (src, o) →
      c.sourceElement mem k src (o + i) = c.contribution k (c.given k) src.rank (o + i)) :
    cells (c.runElement mem k r i op (.device r))
        (c.runElement mem k r i op (.scratch r (c.slot k))) =
      Function.update (cells (mem (.device r)) (mem (.scratch r (c.slot k)))) (c.target k r op i)
        (c.value k r (c.contribution k (c.given k))
          (cells (mem (.device r)) (mem (.scratch r (c.slot k)))) op i) := by
  have hdevice : ∀ (device scratch : ℕ → V) (a : ℕ) (x : V),
      cells (Function.update device a x) scratch =
        Function.update (cells device scratch) (.device a) x := fun device scratch a x => by
    funext y
    cases y <;> simp [cells, Function.update_apply]
  have hscratch : ∀ (device scratch : ℕ → V) (a : ℕ) (x : V),
      cells device (Function.update scratch a x) =
        Function.update (cells device scratch) (.scratch a) x := fun device scratch a x => by
    funext y
    cases y <;> simp [cells, Function.update_apply]
  cases op with
  | copy offset src srcOffset =>
    simp only [runElement, Function.update_self, Function.update_of_ne, ne_eq, reduceCtorEq,
      not_false_eq_true, hdevice, target, value, hread src srcOffset rfl]
  | load src srcOffset =>
    simp only [runElement, Function.update_self, Function.update_of_ne, ne_eq, reduceCtorEq,
      not_false_eq_true, hscratch, target, value, hread src srcOffset rfl]
  | reduce operand =>
    cases operand with
    | scratch =>
      simp only [runElement, Function.update_self, Function.update_of_ne, ne_eq, reduceCtorEq,
        not_false_eq_true, hdevice, target, value, cells]
    | own =>
      have hown := hread (.device r) 0 rfl
      rw [Nat.zero_add] at hown
      simp only [sourceElement, SourceInfo.rank] at hown
      simp only [runElement, Function.update_self, Function.update_of_ne, ne_eq, reduceCtorEq,
        not_false_eq_true, hdevice, target, value, cells, hown]

theorem running_of_processed_nil {v : Cell → V} (h : w.processed = []) : c.running k r w v = v := by
  unfold running
  split
  · rfl
  · rw [h, after_nil]

/-- Once a request is signalled, its outcome is there. -/
theorem Holds.outcome (hadm : ∀ k, c.Admissible k) (hr : r < c.worldSize) (hl : c.Lists r w)
    (h : c.Holds r mem w) (hw : w.released < w.reached) (hlt : w.released < w.passed .signal) :
    mem (.device r) = c.outcome w.released (c.given w.released) r := by
  by_cases hbefore : w.released < w.finished
  · exact h.after hw hbefore
  -- all kernels have run
  have hpassed := passed_le w .signal
  have heq : w.released = w.finished := by omega
  obtain ⟨hne, hsignal⟩ := lt_passed_iff.1 (heq ▸ hlt)
  obtain ⟨op, rest, htodo⟩ := List.exists_cons_of_ne_nil hne
  have hsuf := htodo ▸ hl.todo
  have hpart : 8 ≤ op.part := by
    by_contra hpart
    refine hsignal ?_
    rw [htodo]
    exact List.mem_cons_of_mem _ (mem_rest hsuf (end_mem (by simp)) (show op.part < 8 by omega))
  obtain ⟨fin, base, hbase, hkernels, hcells⟩ :=
    h.during hw heq (lt_passed_of_part hsuf htodo (show 0 < op.part by omega))
  have hqueue := hl.drained (lt_passed_of_part hsuf htodo (show 5 < op.part by omega))
  have hpending : c.pending w.finished r w.todo = [] := pending_of_forall fun x hx => by
    rw [htodo] at hx
    rcases List.mem_cons.1 hx with rfl | hx
    · omega
    · have := part_le_of_mem hsuf hx
      omega
  rw [hqueue, hpending, List.map_nil, List.append_nil, List.append_nil] at hkernels
  rw [running_of_processed_nil (hl.idle hqueue), ← hkernels] at hcells
  funext a
  have hcell := congrFun hcells (.device a)
  rw [runKernels_kernels (hadm _) hbase hr] at hcell
  simpa only [cells, heq] using hcell

theorem Holds.move (hadm : ∀ k, c.Admissible k) (hr : r < c.worldSize) (hl : c.Lists r w)
    (hu : c.UserTurn r words w) (h : c.Holds r mem w) (hm : c.Move r mem words w mem' words' w')
    (hread : ∀ op ∈ w.queue, ∀ src o, op.reads r = some (src, o) →
      ∀ i < (c.request w.finished).segCount, c.sourceElement mem w.finished src (o + i) =
        c.contribution w.finished (c.given w.finished) src.rank (o + i)) :
    c.Holds r mem' w' := by
  -- an operation that launches nothing
  have hpop : ∀ {op : HostOp} {rest : List HostOp} {w' : Worker} {mem' : Place → ℕ → V},
      w.todo = op :: rest → op.part ≠ 4 → op ≠ .ready → op ≠ .finish → w'.todo = rest →
      w'.finished = w.finished → w'.queue = w.queue → w'.processed = w.processed →
      w'.released = w.released → w'.reached = w.reached → mem' (.device r) = mem (.device r) →
      (∀ x, mem' (.scratch r x) = mem (.scratch r x)) → c.Holds r mem' w' := by
    intro op rest w' mem' htodo hpart hready hfinish htodo' hfinished hqueue hprocessed hreleased
      hreached hdevice hscratch
    have hpassed := passed_pop (htodo ▸ hl.todo) htodo hfinish htodo' hfinished .ready
    rw [if_neg (Ne.symm hready)] at hpassed
    have hpending : c.pending w.finished r w.todo = c.pending w.finished r rest := by
      rw [htodo, pending_cons_of_part hpart]
    have hrunning : ∀ v, c.running w.finished r w' v = c.running w.finished r w v := fun v => by
      simp only [running, hqueue, hprocessed]
    obtain ⟨h1, h2, h3⟩ := h
    constructor <;> simp only [hfinished, hreleased, hreached, hpassed, hdevice, hscratch, htodo',
      hqueue, hrunning, ← hpending]
    · exact h1
    · exact h2
    · exact h3
  cases hm with
  | submit => exact ⟨h.before, h.during, h.after⟩
  | take hidle =>
    have hpassed : ∀ x, ({ w with
        todo := c.execute w.finished r
        allDirect := c.collectiveTopologyCanAllDirect w.finished } : Worker).passed x = _ :=
      passed_take hidle rfl rfl
    refine ⟨fun hw hle => h.before hw ?_, fun _ _ hlt => ?_, h.after⟩
    · rwa [hpassed, if_pos ready_mem] at hle
    · rw [hpassed, if_pos ready_mem, passed_of_idle hidle] at hlt
      exact absurd hlt (lt_irrefl _)
  | @ready rest htodo hready =>
    have hsuf := htodo ▸ hl.todo
    have hmem : .signal ∈ w.todo := by
      rw [htodo]
      exact List.mem_cons_of_mem _ (mem_rest hsuf (end_mem (by simp)) (by decide))
    have hstage : .stage ∈ w.todo := by
      rw [htodo]
      exact List.mem_cons_of_mem _ (mem_rest hsuf stage_mem (by decide))
    have hbefore : w.passed .ready = w.finished := passed_of_mem (by simp [htodo])
    have hpassed : ∀ x, ({ w with todo := rest } : Worker).passed x = _ :=
      passed_pop hsuf htodo (by simp) rfl rfl
    have hsignal := hu.signalled
    rw [passed_of_mem hmem] at hsignal
    refine ⟨fun _ hle => ?_, fun hw heq _ => ?_, h.after⟩
    · rw [hpassed, if_pos rfl] at hle
      exact absurd hle (by simp only; omega)
    · -- nothing is launched yet
      have hqueue := hl.staged (passed_of_mem hstage)
      have hfinished : w.released = w.finished := heq
      have hdevice := h.before hw (by omega)
      refine ⟨[], cells (mem (.device r)) (mem (.scratch r (c.slot w.finished))), fun a => ?_, ?_,
        (running_of_processed_nil (hl.idle hqueue)).symm⟩
      · rw [cells, hdevice, hfinished]
      · simp only [hqueue, List.map_nil, List.nil_append]
        rw [← pending_of_stage_mem hl.todo hstage, htodo, pending_cons_of_part (by decide)]
  | publishStatus htodo =>
    exact hpop htodo (by simp [HostOp.part]) (by simp) (by simp) rfl rfl rfl rfl rfl rfl rfl
      fun _ => rfl
  | resolve htodo =>
    exact hpop htodo (by simp [HostOp.part]) (by simp) (by simp) rfl rfl rfl rfl rfl rfl rfl
      fun _ => rfl
  | stage htodo =>
    refine hpop htodo (by decide) (by simp) (by simp) rfl rfl rfl rfl rfl rfl ?_ fun x => ?_
    all_goals
      unfold stageLocalSource
      split_ifs <;> simp
  | @launch op rest htodo hop =>
    have hsuf := htodo ▸ hl.todo
    have hpart : op.part = 4 := by rcases hop with rfl | ⟨s, rfl, -⟩ <;> rfl
    have hne : ∀ {x : HostOp}, x.part ≠ 4 → x ≠ op := fun hx heq => hx (heq ▸ hpart)
    have hpassed : ∀ x, ({ w with
        todo := rest
        queue := w.queue ++ c.launched w.finished r w.allDirect op } : Worker).passed x = _ :=
      passed_pop hsuf htodo (hne (x := .finish) (by decide)).symm rfl rfl
    replace hpassed := (hpassed .ready).trans (if_neg (hne (by decide)))
    refine ⟨fun hw hle => h.before hw (hpassed ▸ hle), fun hw heq hlt => ?_, h.after⟩
    obtain ⟨fin, base, hbase, hkernels, hcells⟩ := h.during hw heq (hpassed ▸ hlt)
    refine ⟨fin, base, hbase, ?_, hcells.trans ?_⟩
    · rw [hkernels, htodo]
      simp only [pending, List.flatMap_cons, List.map_append, launched_named w.allDirect,
        List.append_assoc]
    · -- what runs goes on running
      cases hqueue : w.queue with
      | nil =>
        have hprocessed := hl.idle hqueue
        rw [running_of_processed_nil hprocessed]
        unfold running
        split
        · rfl
        · simp only [hprocessed, after_nil]
      | cons o os => simp only [running, hqueue, List.cons_append]
  | synchronize htodo =>
    exact hpop htodo (by simp [HostOp.part]) (by simp) (by simp) rfl rfl rfl rfl rfl rfl rfl
      fun _ => rfl
  | arrive htodo =>
    exact hpop htodo (by simp [HostOp.part]) (by simp) (by simp) rfl rfl rfl rfl rfl rfl rfl
      fun _ => rfl
  | leave htodo =>
    exact hpop htodo (by simp [HostOp.part]) (by simp) (by simp) rfl rfl rfl rfl rfl rfl rfl
      fun _ => rfl
  | signal htodo =>
    exact hpop htodo (by simp [HostOp.part]) (by simp) (by simp) rfl rfl rfl rfl rfl rfl rfl
      fun _ => rfl
  | @finish rest htodo =>
    have hsuf := htodo ▸ hl.todo
    obtain rfl := rest_of_finish hsuf
    have hpassed : ∀ x, ({ w with todo := [], finished := w.finished + 1 } : Worker).passed x =
        _ := passed_finish hsuf htodo rfl rfl
    replace hpassed := (hpassed .ready).trans (if_neg (by simp))
    refine ⟨fun hw hle => h.before hw (hpassed ▸ hle), fun _ _ hlt => ?_, fun hw hlt => ?_⟩
    · rw [hpassed] at hlt
      exact absurd hlt (Nat.not_lt.2 (passed_le w _))
    · have hlt : w.released < w.finished + 1 := hlt
      exact h.outcome (w := w) hadm hr hl hw
        (Nat.lt_of_lt_of_le hlt (lt_passed_of_part (x := .signal) hsuf htodo (by decide)))
  | @element i op rest hqueue hi hnew =>
    obtain ⟨hw, heq, hlt⟩ := waits_of_queue hl hu (by simp [hqueue])
    refine ⟨fun _ hle => ?_, fun _ _ _ => ?_, fun _ hlt => ?_⟩
    · have hle : w.passed .ready ≤ w.released := hle
      omega
    · obtain ⟨fin, base, hbase, hkernels, hcells⟩ := h.during hw heq hlt
      refine ⟨fin, base, hbase, hkernels, ?_⟩
      simp only [running, hqueue] at hcells ⊢
      rw [cells_runElement fun src o hs => hread op (by simp [hqueue]) src o hs i hi, hcells,
        after_cons hnew]
    · simp only at hlt
      omega
  | @retire op rest hqueue hall =>
    obtain ⟨hw, heq, hlt⟩ := waits_of_queue hl hu (by simp [hqueue])
    refine ⟨fun _ hle => ?_, fun _ _ _ => ?_, fun _ hlt => ?_⟩
    · have hle : w.passed .ready ≤ w.released := hle
      omega
    · obtain ⟨fin, base, hbase, hkernels, hcells⟩ := h.during hw heq hlt
      refine ⟨fin ++ [op.named], base, hbase, ?_, ?_⟩
      · rw [hkernels, hqueue]
        simp
      · -- the kernel has processed all its elements
        have hdone : ∀ i, i ∈ w.processed ↔ i ∈ List.range (c.request w.finished).segCount :=
          fun i => by rw [List.mem_range]; exact ⟨hl.processed i, hall i⟩
        rw [running_of_processed_nil rfl, runKernels_append, runKernels_cons, runKernels_nil,
          after_named, ← after_congr hdone]
        simpa only [running, hqueue] using hcells
    · simp only at hlt
      omega
  | write hfree => exact ⟨fun hw => by omega, fun hw => by omega, fun hw => by omega⟩
  | reach hfree =>
    have hbegan := hu.began
    have hfinished := finished_le_passed w .ready
    refine ⟨fun _ _ => ?_, fun _ heq hlt => ?_, fun _ hlt => ?_⟩
    · simp [hfree]
    · simp only at heq hlt
      have hlt : w.finished < w.passed .ready := hlt
      omega
    · simp only at hlt
      omega
  | release hwaits =>
    have hreached := hu.reached
    exact ⟨fun hw => by simp only at hw; omega, fun hw => by simp only at hw; omega,
      fun hw => by simp only at hw; omega⟩

/-! ## The staging buffer -/

variable (c) in
/-- What a rank has staged is what it contributes to the request it is at. -/
def Staged (r : ℕ) (mem : Place → ℕ → V) (w : Worker) : Prop :=
  w.finished < w.passed .stage → w.allDirect = false →
    c.localSourceNeededByAnyRank w.finished r = true → ∀ j < c.stageCount w.finished,
      mem (.staging r) j = c.contribution w.finished (c.given w.finished) r j

/-- While nothing is launched, the device is as the user has left it. -/
theorem Holds.device_eq (hl : c.Lists r w) (hu : c.UserTurn r words w) (h : c.Holds r mem w)
    (htodo : w.todo = .stage :: rest) : mem (.device r) = c.given w.finished r := by
  have hsuf := htodo ▸ hl.todo
  have hmem : HostOp.stage ∈ w.todo := by simp [htodo]
  have hready := lt_passed_of_part (x := .ready) hsuf htodo (by decide)
  have hsignal : w.passed .signal = w.finished := by
    refine passed_of_mem ?_
    rw [htodo]
    exact List.mem_cons_of_mem _ (mem_rest hsuf (end_mem (by simp)) (by decide))
  have h1 := hu.began
  have h2 := hu.reached
  have h3 := hu.signalled
  obtain ⟨fin, base, hbase, hkernels, hcells⟩ := h.during (by omega) (by omega) hready
  have hqueue := hl.staged (passed_of_mem hmem)
  rw [hqueue, pending_of_stage_mem hl.todo hmem, List.map_nil, List.nil_append] at hkernels
  obtain rfl := List.self_eq_append_left.1 hkernels
  rw [running_of_processed_nil (hl.idle hqueue), runKernels_nil] at hcells
  funext a
  rw [← hbase a, ← hcells, cells]

theorem Staged.move (hl : c.Lists r w) (hu : c.UserTurn r words w) (hh : c.Holds r mem w)
    (h : c.Staged r mem w) (hm : c.Move r mem words w mem' words' w') : c.Staged r mem' w' := by
  have hpop : ∀ {op : HostOp} {rest : List HostOp} {w' : Worker} {mem' : Place → ℕ → V},
      w.todo = op :: rest → op ≠ .stage → op ≠ .finish → w'.todo = rest →
      w'.finished = w.finished → w'.allDirect = w.allDirect →
      mem' (.staging r) = mem (.staging r) → c.Staged r mem' w' := by
    intro op rest w' mem' htodo hstage hfinish htodo' hfinished hall hmem
    have hpassed := passed_pop (htodo ▸ hl.todo) htodo hfinish htodo' hfinished .stage
    rw [if_neg (Ne.symm hstage)] at hpassed
    simpa only [Staged, hpassed, hfinished, hall, hmem] using h
  cases hm with
  | take hidle =>
    have hpassed : ∀ x, ({ w with
        todo := c.execute w.finished r
        allDirect := c.collectiveTopologyCanAllDirect w.finished } : Worker).passed x = _ :=
      passed_take hidle rfl rfl
    intro hlt
    rw [hpassed, if_pos stage_mem, passed_of_idle hidle] at hlt
    exact absurd hlt (lt_irrefl _)
  | ready htodo => exact hpop htodo (by simp) (by simp) rfl rfl rfl rfl
  | publishStatus htodo => exact hpop htodo (by simp) (by simp) rfl rfl rfl rfl
  | @resolve p ok rest htodo =>
    have hsuf := htodo ▸ hl.todo
    have hmem : HostOp.stage ∈ rest := mem_rest hsuf stage_mem (by simp [HostOp.part])
    intro hlt
    rw [passed_of_mem hmem] at hlt
    exact absurd hlt (lt_irrefl _)
  | stage htodo =>
    intro _ hall hneeded j hj
    have hall : w.allDirect = false := hall
    have hneeded : c.localSourceNeededByAnyRank w.finished r = true := hneeded
    have hj : j < c.stageCount w.finished := hj
    simp only [hall, Bool.false_eq_true, if_false, stageLocalSource, hneeded, if_true,
      Function.update_self, hj, hh.device_eq hl hu htodo, contribution]
  | launch htodo hop =>
    refine hpop htodo ?_ ?_ rfl rfl rfl rfl <;> rcases hop with rfl | ⟨s, rfl, -⟩ <;> simp
  | synchronize htodo => exact hpop htodo (by simp) (by simp) rfl rfl rfl rfl
  | arrive htodo => exact hpop htodo (by simp) (by simp) rfl rfl rfl rfl
  | leave htodo => exact hpop htodo (by simp) (by simp) rfl rfl rfl rfl
  | signal htodo => exact hpop htodo (by simp) (by simp) rfl rfl rfl rfl
  | @finish rest htodo =>
    have hpassed : ∀ x, ({ w with todo := rest, finished := w.finished + 1 } : Worker).passed x =
        _ := passed_finish (htodo ▸ hl.todo) htodo rfl rfl
    intro hlt
    rw [hpassed, if_neg (by simp)] at hlt
    exact absurd hlt (Nat.not_lt.2 (passed_le w _))
  | @element i op =>
    have hkept : c.runElement mem w.finished r i op (.staging r) = mem (.staging r) := by
      cases op with
      | reduce operand => cases operand <;> simp [runElement]
      | _ => simp [runElement]
    intro hlt hall hneeded j hj
    rw [hkept]
    exact h hlt hall hneeded j hj
  | write =>
    intro hlt hall hneeded j hj
    rw [Function.update_of_ne (by simp)]
    exact h hlt hall hneeded j hj
  | reach =>
    intro hlt hall hneeded j hj
    rw [Function.update_of_ne (by simp)]
    exact h hlt hall hneeded j hj
  | submit | retire | release => exact h

/-! ## All together -/

/-- The invariant of the series. -/
structure Sound (c : Comm V) (st : State V) : Prop where
  order : c.Orderly st
  resolved : ∀ r, c.Resolved r (st.worker r)
  fed : ∀ r < c.worldSize, Fed st r
  staged : ∀ r, c.Staged r st.mem (st.worker r)
  device : ∀ r < c.worldSize, c.Holds r st.mem (st.worker r)

/-- A kernel on the stream is one of the request's. -/
theorem named_mem_kernels (h : c.Holds r mem w) (hl : c.Lists r w) (hu : c.UserTurn r words w)
    {op : StreamOp} (hop : op ∈ w.queue) : op.named ∈ c.kernels w.finished r := by
  obtain ⟨hw, heq, hlt⟩ := waits_of_queue hl hu (List.ne_nil_of_mem hop)
  obtain ⟨fin, base, -, hkernels, -⟩ := h.during hw heq hlt
  rw [hkernels]
  exact List.mem_append_right _ (List.mem_append_left _ (List.mem_map_of_mem hop))

theorem reads_named {op : StreamOp} {src : SourceInfo} {o : ℕ} (h : op.reads r = some (src, o)) :
    op.named.reads r = some (.device src.rank, o) := by
  cases op with
  | reduce operand => cases operand <;> cases h; rfl
  | _ => cases h; rfl

theorem target_named {op : StreamOp} : c.target k r op.named = c.target k r op := by
  cases op <;> rfl

/-- A rank with a kernel on its stream has not arrived. -/
theorem arrive_mem_of_queue (hl : c.Lists r w) (hqueue : w.queue ≠ []) : .arrive ∈ w.todo := by
  have hstage : w.finished < w.passed .stage :=
    lt_of_le_of_ne (finished_le_passed w _) fun heq => hqueue (hl.staged heq.symm)
  have hne := (lt_passed_iff.1 hstage).1
  have hsync : HostOp.synchronize ∈ w.todo := by
    by_contra hmem
    exact hqueue (hl.drained (lt_passed_iff.2 ⟨hne, hmem⟩))
  obtain ⟨op, rest, htodo⟩ := List.exists_cons_of_ne_nil hne
  refine arrive_mem hl htodo ?_
  rw [htodo] at hsync
  rcases List.mem_cons.1 hsync with rfl | hmem
  · decide
  · exact Nat.lt_succ_of_le (part_le_of_mem (htodo ▸ hl.todo) hmem)

/-- While a rank has not arrived, no rank is past the request. -/
theorem Orderly.signal_eq (h : c.Orderly st) (hr : r < c.worldSize) (hs : s < c.worldSize)
    (harrive : .arrive ∈ (st.worker r).todo)
    (hsame : (st.worker s).finished = (st.worker r).finished) :
    (st.worker s).passed .signal = (st.worker s).finished := by
  by_contra hne
  have hlt := lt_of_le_of_ne (finished_le_passed (st.worker s) .signal) (Ne.symm hne)
  obtain ⟨htodo, hsignal⟩ := lt_passed_iff.1 hlt
  obtain ⟨op, rest, htodo⟩ := List.exists_cons_of_ne_nil htodo
  have hl := h.lists s
  have hpart : 8 ≤ op.part := by
    by_contra hpart
    refine hsignal ?_
    rw [htodo]
    exact List.mem_cons_of_mem _ (mem_rest (htodo ▸ hl.todo) (end_mem (by simp))
      (show op.part < 8 by omega))
  have hpast := lt_passed_of_part (x := .arrive) (htodo ▸ hl.todo) htodo (show 6 < op.part by omega)
  have hleave := lt_passed_of_part (x := .leave) (htodo ▸ hl.todo) htodo (show 7 < op.part by omega)
  have hgeneration := h.barrier.finished_eq hr harrive
  have hbound := (h.barrier.bounds s hs).2
  exact (lt_passed_iff.1 hleave).2 (h.barrier.waiting s hs (by omega)).2.1

/-- What no kernel of the request writes is as the user has left it. -/
theorem Holds.untouched (hl : c.Lists r w) (h : c.Holds r mem w) (hw : w.released < w.reached)
    (heq : w.released = w.finished) (hlt : w.finished < w.passed .ready) {a : ℕ}
    (hne : ∀ op ∈ c.kernels w.finished r, ∀ i < (c.request w.finished).segCount,
      c.target w.finished r op i ≠ .device a) : mem (.device r) a = c.given w.finished r a := by
  obtain ⟨fin, base, hbase, hkernels, hcells⟩ := h.during hw heq hlt
  have hrun : c.runKernels w.finished r (c.contribution w.finished (c.given w.finished)) fin base
      (.device a) = base (.device a) := runKernels_of_forall_ne fun op hop i hi heq =>
    hne op (hkernels ▸ List.mem_append_left _ hop) i hi heq.symm
  have hcell := congrFun hcells (.device a)
  rw [← hbase a, ← hrun]
  refine hcell.trans ?_
  cases hqueue : w.queue with
  | nil => simp only [running, hqueue]
  | cons op rest =>
    simp only [running, hqueue]
    refine after_of_forall_ne fun i hi heq => ?_
    refine hne op.named ?_ i (hl.processed i hi) (by rw [target_named]; exact heq.symm)
    rw [hkernels, hqueue, List.map_cons]
    exact List.mem_append_right _ (List.mem_append_left _ List.mem_cons_self)

/-- **A kernel reads what the rank's user has given for the same request.** -/
theorem Sound.sourceElement_eq (hadm : ∀ k, c.Admissible k) (h : c.Sound st)
    (hr : r < c.worldSize) {op : StreamOp} (hop : op ∈ (st.worker r).queue) {src : SourceInfo}
    {o i : ℕ} (hreads : op.reads r = some (src, o))
    (hi : i < (c.request (st.worker r).finished).segCount) :
    c.sourceElement st.mem (st.worker r).finished src (o + i) =
      c.contribution (st.worker r).finished (c.given (st.worker r).finished) src.rank (o + i) := by
  have hl := h.order.lists r
  have hmem := named_mem_kernels (h.device r hr) hl (h.order.user r) hop
  have hfed := h.fed r hr op hop src o hreads
  have hnamed := source_lt (hadm _) hr hmem (reads_named hreads)
  have hs : src.rank < c.worldSize := hnamed
  have harrive := arrive_mem_of_queue hl (List.ne_nil_of_mem hop)
  have hsame := h.order.barrier.same_request hr hs harrive
    (Nat.le_of_lt_succ (hfed.ready.trans_le (passed_le _ _)))
  have hl' := h.order.lists src.rank
  cases src with
  | device s =>
    simp only [SourceInfo.rank] at hs hsame hl' ⊢
    have hready : (st.worker s).finished < (st.worker s).passed .ready := hsame ▸ hfed.ready
    have hsignal := h.order.signal_eq hr hs harrive hsame
    have h1 := (h.order.user s).began
    have h2 := (h.order.user s).reached
    have h3 := (h.order.user s).signalled
    rw [sourceElement, contribution, ← hsame]
    refine (h.device s hs).untouched hl' (by omega) (by omega) hready fun op' hop' j hj => ?_
    rw [hsame] at hop' hj ⊢
    exact target_ne_of_reads (hadm _) hr hmem (reads_named hreads) hi hop' hj
  | host s =>
    simp only [SourceInfo.rank] at hs hsame hl' ⊢
    obtain ⟨-, hstage, hall⟩ := hfed.staged s rfl
    have hown : (st.worker r).finished < (st.worker r).passed .stage :=
      lt_of_le_of_ne (finished_le_passed _ _) fun heq =>
        List.ne_nil_of_mem hop (hl.staged heq.symm)
    have hstage' : (st.worker s).finished < (st.worker s).passed .stage := hsame ▸ hstage
    have hmode := (h.resolved r).agree hl hl' (h.resolved s) hsame hown hstage'
    obtain ⟨hneeded, hlt⟩ := lt_stageCount_of_reads (hadm _) hr hmem (reads_named hreads) hi
    rw [← hsame] at hneeded hlt ⊢
    exact h.staged s hstage' (hmode.trans hall) hneeded (o + i) hlt

/-- The kernels on the stream of the rank that steps. -/
theorem Sound.fed_move (hadm : ∀ k, c.Admissible k) (h : c.Sound st) (hr : r < c.worldSize)
    (hm : c.Move r st.mem st.words (st.worker r) mem' words' w') :
    Fed ⟨mem', words', Function.update st.worker r w'⟩ r := by
  have hl := h.order.lists r
  have hmono : ∀ s x, (st.worker s).passed x ≤ (Function.update st.worker r w' s).passed x :=
    fun s x => by
      by_cases hs : s = r
      · subst hs
        rw [Function.update_self]
        exact hm.passed_le_passed hl x
      · rw [Function.update_of_ne hs]
  -- the kernels that were there, and those that are new
  have hkeep : w'.finished = (st.worker r).finished → w'.allDirect = (st.worker r).allDirect →
      (∀ op ∈ w'.queue, op ∈ (st.worker r).queue ∨ ∀ src o, op.reads r = some (src, o) →
        Sourced st r src) → Fed ⟨mem', words', Function.update st.worker r w'⟩ r := by
    intro hfinished hall hqueue op hop src o hreads
    simp only [Function.update_self] at hop
    have hold : Sourced st r src := by
      rcases hqueue op hop with hold | hnew
      · exact h.fed r hr op hold src o hreads
      · exact hnew src o hreads
    exact hold.mono (by simpa only [Function.update_self] using hfinished)
      (by simpa only [Function.update_self] using hall) hmono
  have hempty : w'.queue = [] → Fed ⟨mem', words', Function.update st.worker r w'⟩ r := by
    intro hqueue op hop
    simp only [Function.update_self, hqueue] at hop
    cases hop
  generalize hw : st.worker r = w at hl hm hkeep
  cases hm with
  | take hidle => exact hempty (hl.staged (passed_of_idle hidle _))
  | resolve htodo =>
    refine hempty (hl.staged (passed_of_mem ?_))
    rw [htodo]
    exact List.mem_cons_of_mem _ (mem_rest (htodo ▸ hl.todo) stage_mem (by simp [HostOp.part]))
  | finish htodo =>
    exact hempty (hl.drained (lt_passed_of_part (htodo ▸ hl.todo) htodo (by decide)))
  | launch htodo hop =>
    subst hw
    refine hkeep rfl rfl fun o ho => ?_
    rcases List.mem_append.1 ho with ho | ho
    · exact Or.inl ho
    · exact Or.inr fun src offset hreads =>
        Sourced.launch (hadm _) h.order (h.resolved r) hr htodo hop ho hreads
  | retire hqueue =>
    exact hkeep rfl rfl fun o ho => Or.inl (hqueue ▸ List.mem_cons_of_mem _ ho)
  | submit | ready | publishStatus | stage | synchronize | arrive | leave | signal | element
  | write | reach | release => exact hkeep rfl rfl fun _ ho => Or.inl ho

theorem Sound.step (hadm : ∀ k, c.Admissible k) (h : c.Sound st)
    (hstep : c.step st l = some st') : c.Sound st' := by
  have horder := h.order.step hstep
  obtain ⟨hrank, mem, words, w, hm, rfl⟩ := step_cases hstep
  have hl := h.order.lists l.rank
  have hu := h.order.user l.rank
  refine ⟨horder, fun s => ?_, fun s hs => ?_, fun s => ?_, fun s hs => ?_⟩
  · by_cases hsr : s = l.rank
    · subst hsr
      simp only [Function.update_self]
      exact (h.resolved _).move hl hm fun p hp ok harrive hok =>
        h.order.status_eq hrank hp harrive hok
    · simp only [Function.update_of_ne hsr]
      exact h.resolved s
  · by_cases hsr : s = l.rank
    · subst hsr
      exact h.fed_move hadm hrank hm
    · intro op hop src o hreads
      simp only [Function.update_of_ne hsr] at hop
      refine (h.fed s hs op hop src o hreads).mono ?_ ?_ fun t x => ?_
      · simp only [Function.update_of_ne hsr]
      · simp only [Function.update_of_ne hsr]
      · by_cases ht : t = l.rank
        · subst ht
          simp only [Function.update_self]
          exact hm.passed_le_passed hl x
        · simp only [Function.update_of_ne ht, le_refl]
  · by_cases hsr : s = l.rank
    · subst hsr
      simp only [Function.update_self]
      exact (h.staged _).move hl hu (h.device _ hrank) hm
    · simp only [Function.update_of_ne hsr]
      intro hlt hall hneeded j hj
      rw [(hm.mem_eq hsr).2.2]
      exact h.staged s hlt hall hneeded j hj
  · by_cases hsr : s = l.rank
    · subst hsr
      simp only [Function.update_self]
      exact (h.device _ hrank).move hadm hrank hl hu hm fun op hop src o hreads i hi =>
        h.sourceElement_eq hadm hrank hop hreads hi
    · simp only [Function.update_of_ne hsr]
      exact (h.device s hs).congr (hm.mem_eq hsr).1 (hm.mem_eq hsr).2.1

theorem Sound.init (mem : Place → ℕ → V) : c.Sound (State.init mem) where
  order := Orderly.init mem
  resolved := fun _ => ⟨fun h => absurd rfl h, fun h => absurd rfl h, fun h => absurd rfl h⟩
  fed := fun _ _ op hop => by cases hop
  staged := fun _ h => absurd h (lt_irrefl _)
  device := fun _ _ =>
    ⟨fun h => absurd h (lt_irrefl _), fun h => absurd h (lt_irrefl _),
      fun h => absurd h (lt_irrefl _)⟩

theorem sound_of_run (hadm : ∀ k, c.Admissible k) {ls : List (Label V)}
    (hrun : c.machine.runFrom Theory.Machine.anyStep (State.init mem) ls = some st) : c.Sound st :=
  c.machine.invariant (fun _ _ _ h _ hstep => h.step hadm hstep) (Sound.init mem) hrun

/-! ## Results -/

/-- Two ranks that alternate an AllGather and a ReduceScatter of one element, with one slot and
every source staged. -/
def pairComm : Comm ℕ where
  worldSize := 2
  one_lt_worldSize := by decide
  queueDepth := 1
  queueDepth_pos := by decide
  pairDirectAllowed := fun _ _ => false
  deviceIpcEnabled := fun _ => false
  request := fun k =>
    { kind := if k % 2 = 0 then .allGather else .reduceScatter
      segCount := 1
      reduceOp := (· + ·)
      sendbuff := fun _ => 0
      recvbuff := fun _ => 2 }
  probed := fun _ _ _ => false
  bound := fun _ _ _ => false
  bound_of_probed := fun _ _ _ h => h
  given := fun k r a => 100 * k + 10 * r + a

theorem pairComm_admissible (k : ℕ) : pairComm.Admissible k := by
  rcases Nat.mod_two_eq_zero_or_one k with hk | hk <;>
    simp [Admissible, pairComm, hk, Apart]

/-- Both ranks up to the kernels of a request. -/
def pairLaunch : List (Label ℕ) :=
  [0, 1].flatMap (fun r => [.submit r, .reach r, .take r, .host r, .host r]) ++
    [0, 1].flatMap fun r => [.host r, .host r]

/-- Both ranks from the kernels of a request to its completion. -/
def pairComplete (kernels : ℕ) : List (Label ℕ) :=
  [0, 1].flatMap (fun r => (List.replicate kernels [.element r 0, .retire r]).flatten ++
      [.host r, .host r]) ++
    [0, 1].flatMap fun r => [.host r, .host r, .host r]

/-- An AllGather, and the launches of a ReduceScatter. -/
def pairLabels : List (Label ℕ) :=
  pairLaunch ++ pairComplete 2 ++ [.release 0, .release 1] ++ pairLaunch

end Comm
end Series
end Fastpath
end HyLink
