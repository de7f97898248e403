import HyLink.Fastpath.Worker
import HyLink.Theory.Folding

/-!
# Every rank receives the reduction

A rank that reduces in place overwrites the buffer its peers read.  Nothing in
the fast path makes it wait for them: the ready word says that its buffer may
be read, and no word says that it has been.

* `AllReduce.readersFinished` — the condition on a step that is missing: an
  in-place rank writes its buffer once no peer has still to read it.
* `AllReduce.allreduce_correct` — in a run whose steps meet it, every rank that
  returns holds the reduction, and no buffer is read after it has been written.
* `AllReduce.overwritten_before_read` — two in-place ranks: the second receives
  the first one's result in place of its contribution.
-/

namespace HyLink
namespace Fastpath

variable {V : Type}

namespace AllReduce

variable {c : AllReduce V}

/-! ## The contents of the buffers -/

/-- What a kernel does to an element of the receive buffer and of the scratch when the
sources hold the inputs of their ranks. -/
def contribute (c : AllReduce V) (r i : ℕ) (v : V × V) : StreamOp → V × V
  | .seed src => (c.input src.rank i, v.2)
  | .load src => (v.1, c.input src.rank i)
  | .reduce => (c.op v.1 v.2, v.2)
  | .reduceOwn => (c.op v.1 (c.input r i), v.2)

variable (c) in
/-- The contents of the buffers, as far as they matter to the kernels still to run. -/
structure Contents (st : State V) : Prop where
  /-- A send buffer holds the input until its rank may write it. -/
  intact : ∀ s, (st.worker s).userReady = true →
    (c.inPlace s = false ∨ HostOp.stage ∈ (st.worker s).todo ∨ c.allRead st s = false) →
    ∀ i < c.count, st.mem (.send s) i = c.input s i
  /-- Where the stage word was written without a copy, nobody will read the copy. -/
  staging : ∀ s, st.words.stageSeq s = c.workSeq →
    (∀ i < c.count, st.mem (.staging s) i = c.input s i) ∨
      ∀ p < c.worldSize, c.localNeedsAllDirectSources p = true
  /-- The pending kernels turn what is there into the reduction. -/
  value : ∀ r < c.worldSize, (st.worker r).userReady = true → ∀ i < c.count,
    ((c.pending st r i).foldl (c.contribute r i)
      (st.mem (c.recvBuf r) i, st.mem (.scratch r) i)).1 = c.reduction i

theorem foldl_folds (r i : ℕ) (sources : List ℕ) (v : V × V) :
    ((sources.flatMap fun s => c.launched r (.fold s)).foldl (c.contribute r i) v).1 =
      (sources.map fun s => c.input s i).foldl c.op v.1 := by
  induction sources generalizing v with
  | nil => rfl
  | cons s sources ih =>
    rw [List.flatMap_cons, List.foldl_append, ih]
    have hrank : (c.sourceInfo r s).rank = s := by unfold sourceInfo; split <;> rfl
    by_cases hs : s = r
    · subst hs; simp [launched, contribute]
    · simp [launched, hs, contribute, hrank]

/-- **The whole list reduces the inputs of all ranks.** -/
theorem foldl_execute [Std.Commutative c.op] [Std.Associative c.op] {r : ℕ}
    (hr : r < c.worldSize) (i : ℕ) {v : V × V} (hv : c.inPlace r = true → v.1 = c.input r i) :
    (((c.execute r).flatMap (c.launched r)).foldl (c.contribute r i) v).1 = c.reduction i := by
  have hresolve : ((List.range c.worldSize).map HostOp.resolve).flatMap (c.launched r) = [] := by
    simp [launched]
  have hfolds : ((c.foldSources r).map HostOp.fold).flatMap (c.launched r) =
      (c.foldSources r).flatMap fun s => c.launched r (.fold s) := by
    rw [List.flatMap_map]
  have hexec : (c.execute r).flatMap (c.launched r) =
      (if c.inPlace r then [] else [.seed (c.sourceInfo r (c.seedSource r))]) ++
        (c.foldSources r).flatMap fun s => c.launched r (.fold s) := by
    cases hp : c.inPlace r <;>
      simp [execute, executeAllReduce, List.flatMap_append, hresolve, hfolds, hp, launched]
  rw [hexec, List.foldl_append, foldl_folds]
  have hseed : ((if c.inPlace r then [] else [StreamOp.seed (c.sourceInfo r (c.seedSource r))]).foldl
      (c.contribute r i) v).1 = c.input (c.seedSource r) i := by
    cases hp : c.inPlace r with
    | true =>
      have hself : c.seedSource r = r := by simp [seedSource, hp]
      simpa [hself] using hv hp
    | false =>
      have hrank : (c.sourceInfo r (c.seedSource r)).rank = c.seedSource r := by
        unfold sourceInfo; split <;> rfl
      simp [contribute, hrank]
  rw [hseed]
  exact Theory.foldl_filter_range (fun s => c.input s i) (seedSource_lt hr)

/-! ### The effect of a kernel -/

/-- The buffer a kernel writes. -/
def target (c : AllReduce V) (r : ℕ) (op : StreamOp) : Buf :=
  if op.writesRecv then c.recvBuf r else .scratch r

theorem runElement_of_ne {mem : Buf → ℕ → V} {r i : ℕ} {op : StreamOp} {b : Buf} {j : ℕ}
    (h : b ≠ c.target r op ∨ j ≠ i) : c.runElement mem r i op b j = mem b j := by
  have hform : ∃ v, c.runElement mem r i op = Function.update mem (c.target r op)
      (Function.update (mem (c.target r op)) i v) := by
    cases op <;> exact ⟨_, rfl⟩
  obtain ⟨v, hv⟩ := hform
  rw [hv]
  by_cases hb : b = c.target r op
  · have hj : j ≠ i := h.resolve_left (not_not_intro hb)
    rw [hb, Function.update_self, Function.update_of_ne hj]
  · rw [Function.update_of_ne hb]

theorem recvBuf_ne_scratch (r s : ℕ) : c.recvBuf r ≠ .scratch s := by
  unfold recvBuf; split <;> simp

theorem recvBuf_ne_staging (r s : ℕ) : c.recvBuf r ≠ .staging s := by
  unfold recvBuf; split <;> simp

theorem recvBuf_inj {r s : ℕ} (h : c.recvBuf r = c.recvBuf s) : r = s := by
  unfold recvBuf at h
  split at h <;> split at h <;> cases h <;> rfl

theorem recvBuf_eq_send {r s : ℕ} (h : c.recvBuf r = .send s) : r = s ∧ c.inPlace r = true := by
  unfold recvBuf at h
  split at h
  · rename_i hp; exact ⟨by simpa using h, hp⟩
  · cases h

theorem target_ne_staging (r s : ℕ) (op : StreamOp) : c.target r op ≠ .staging s := by
  unfold target; split
  · exact recvBuf_ne_staging r s
  · simp

theorem target_eq_send {r s : ℕ} {op : StreamOp} (h : c.target r op = .send s) :
    r = s ∧ c.inPlace r = true ∧ op.writesRecv = true := by
  unfold target at h
  split at h
  · rename_i hw; exact ⟨(recvBuf_eq_send h).1, (recvBuf_eq_send h).2, hw⟩
  · cases h

/-- A kernel whose source holds the input of its rank contributes it. -/
theorem runElement_self {mem : Buf → ℕ → V} {r i : ℕ} {op : StreamOp}
    (hsource : ∀ src, op.source? = some src → mem (sourceBuf src) i = c.input src.rank i)
    (hown : op = .reduceOwn → mem (.send r) i = c.input r i) :
    (c.runElement mem r i op (c.recvBuf r) i, c.runElement mem r i op (.scratch r) i) =
      c.contribute r i (mem (c.recvBuf r) i, mem (.scratch r) i) op := by
  have hne : Buf.scratch r ≠ c.recvBuf r := (recvBuf_ne_scratch r r).symm
  cases op with
  | seed src => simp [runElement, contribute, hne, hsource src rfl]
  | load src => simp [runElement, contribute, hne.symm, hsource src rfl]
  | reduce => simp [runElement, contribute, hne]
  | reduceOwn => simp [runElement, contribute, hne, hown rfl]

/-- The source of a kernel about to process an element holds the input. -/
theorem Contents.source {st : State V} (h : c.Contents st) (hp : c.Protocol st) {r i : ℕ}
    {op : StreamOp} {rest : List StreamOp} (hqueue : (st.worker r).queue = op :: rest)
    (hi : i < c.count) (hnew : i ∉ (st.worker r).processed) :
    (∀ src, op.source? = some src → st.mem (sourceBuf src) i = c.input src.rank i) ∧
      (op = .reduceOwn → st.mem (.send r) i = c.input r i) := by
  have hmem : op ∈ (st.worker r).queue := hqueue ▸ List.mem_cons_self
  have hfed := (hp.orderly r).fed op hmem
  refine ⟨fun src hsrc => ?_, ?_⟩
  · cases src with
    | device s =>
      obtain ⟨hready, hself, -⟩ := hfed.device s hsrc
      refine h.intact s hready ?_ i hi
      by_cases hs : s = r
      · exact Or.inl (hs ▸ hself hs)
      · refine Or.inr (Or.inr ?_)
        by_contra hall
        have hun := allRead_eq_true.1 (by simpa using hall) r hfed.rank (Ne.symm hs) i hi
        rw [unread, pending, if_neg hnew, hqueue, List.cons_append, List.any_cons,
          Bool.or_eq_false_iff] at hun
        have hreads : op.readsFrom s = true := decide_eq_true hsrc
        rw [hun.1] at hreads
        cases hreads
    | host s =>
      obtain ⟨hbound, hne, hs, hword⟩ := hfed.host s hsrc
      refine (h.staging s hword).elim (fun hstaged => hstaged i hi) fun hall => ?_
      -- had all ranks been direct, this rank would not read a staged copy
      have hneeds := hall r hfed.rank
      simp only [localNeedsAllDirectSources, List.all_eq_true, List.mem_range, Bool.or_eq_true,
        beq_iff_eq] at hneeds
      have hb := c.bound_of_probed r s ((hneeds s hs).resolve_left hne)
      rw [hbound] at hb
      cases hb
  · rintro rfl
    have hout := hfed.outOfPlace rfl (by simp)
    have hready : (st.worker r).userReady = true := by
      by_contra hu
      have hstage : HostOp.stage ∈ (st.worker r).todo := by
        rw [eq_execute_of_ready_mem (hp.orderly r).todo
          ((hp.orderly r).unready (by simpa using hu))]
        simp [execute]
      rw [(hp.orderly r).staged hstage] at hmem
      cases hmem
    exact h.intact r hready (Or.inl hout) i hi

/-! ### The invariant -/

theorem Contents.start {mem : Buf → ℕ → V} {words : SlotWords} (hstale : c.Stale words) :
    c.Contents (c.start mem words) where
  intact := fun s hs => absurd hs (by simp [AllReduce.start])
  staging := fun s hs => absurd hs (hstale.2 s).2.1.ne
  value := fun r _ hr => absurd hr (by simp [AllReduce.start])

theorem Contents.user [Std.Commutative c.op] [Std.Associative c.op] {st st' : State V} {r : ℕ}
    (h : c.Contents st) (hp : c.Protocol st) (hr : r < c.worldSize)
    (hu : (st.worker r).userReady = false) (hstep : c.step st (.user r) = some st')
    (hst : st' = { st with
      mem := Function.update st.mem (.send r) (c.input r)
      worker := Function.update st.worker r { st.worker r with userReady := true } }) :
    c.Contents st' := by
  have hself : st'.worker r = { st.worker r with userReady := true } := by
    rw [hst]; exact Function.update_self ..
  have hother : ∀ q, q ≠ r → st'.worker q = st.worker q := fun q hq => by
    rw [hst]; exact Function.update_of_ne hq ..
  have hmem : ∀ b, b ≠ .send r → st'.mem b = st.mem b := fun b hb => by
    rw [hst]; exact Function.update_of_ne hb ..
  have hinput : st'.mem (.send r) = c.input r := by rw [hst]; exact Function.update_self ..
  refine ⟨fun s hs hcond i hi => ?_, fun s hs => ?_, fun q hq huq i hi => ?_⟩
  · by_cases hsr : s = r
    · subst hsr; rw [hinput]
    · rw [hother s hsr] at hs hcond
      rw [hmem _ (by simpa using hsr)]
      refine h.intact s hs (hcond.imp_right (Or.imp_right fun hall => ?_)) i hi
      by_contra htrue
      rw [allRead_mono hp hstep (by simpa using htrue)] at hall
      cases hall
  · rw [hmem _ (by simp)]
    exact h.staging s (by rwa [hst] at hs)
  · by_cases hqr : q = r
    · subst hqr
      -- nothing has been launched: the whole list is pending
      have hall : (st.worker q).todo = c.execute q :=
        eq_execute_of_ready_mem (hp.orderly q).todo ((hp.orderly q).unready hu)
      have hempty : (st.worker q).queue = [] := (hp.orderly q).staged (by simp [hall, execute])
      have hpending : c.pending st' q i = (c.execute q).flatMap (c.launched q) := by
        simp [pending, hself, hall, hempty, (hp.orderly q).idle hempty]
      rw [hpending]
      refine foldl_execute hq i fun hin => ?_
      rw [recvBuf, if_pos hin, hinput]
    · have hpending : c.pending st' q i = c.pending st q i := by
        rw [pending, pending, hother q hqr]
      have hbuf : c.recvBuf q ≠ .send r := fun heq => hqr (recvBuf_eq_send heq).1
      rw [hpending, hmem _ hbuf, hmem _ (by simp)]
      exact h.value q hq (by rwa [hother q hqr] at huq) i hi

theorem Contents.host {st st' : State V} {r : ℕ} {op : HostOp} {rest : List HostOp}
    (h : c.Contents st) (hp : c.Protocol st) (htodo : (st.worker r).todo = op :: rest)
    (hstep : c.step st (.host r) = some st')
    (hhost : c.hostStep st r { st.worker r with todo := rest } op = some st') :
    c.Contents st' := by
  obtain ⟨w', heff⟩ := hostStep_effect hhost
  have hsuf : op :: rest <:+ c.execute r := htodo ▸ (hp.orderly r).todo
  have hself : st'.worker r = w' := by rw [heff.worker, Function.update_self]
  have hother : ∀ q, q ≠ r → st'.worker q = st.worker q := fun q hq => by
    rw [heff.worker, Function.update_of_ne hq]
  have huser : ∀ q, (st'.worker q).userReady = (st.worker q).userReady := fun q => by
    by_cases hq : q = r
    · subst hq; rw [hself, heff.userReady]
    · rw [hother q hq]
  have hmem : ∀ b, (∀ s, b = .staging s → s = r ∧ op = .stage → False) → st'.mem b = st.mem b :=
    fun b hb => by
      rcases heff.mem with hm | ⟨hop, -, hm⟩
      · rw [hm]
      · rw [hm, stageLocalSource]
        exact Function.update_of_ne (fun heq => hb r heq ⟨rfl, hop⟩) ..
  refine ⟨fun s hs hcond i hi => ?_, fun s hs => ?_, fun q hq huq i hi => ?_⟩
  · rw [hmem _ (by simp)]
    refine h.intact s (by rwa [huser s] at hs) (hcond.imp_right (Or.imp (fun hst => ?_)
      fun hall => ?_)) i hi
    · by_cases hsr : s = r
      · subst hsr
        rw [hself, heff.todo] at hst
        rw [htodo]
        exact List.mem_cons_of_mem _ hst
      · rwa [hother s hsr] at hst
    · by_contra htrue
      rw [allRead_mono hp hstep (by simpa using htrue)] at hall
      cases hall
  · by_cases hstage : s = r ∧ op = .stage
    · obtain ⟨rfl, rfl⟩ := hstage
      cases hdirect : (st.worker s).allDirect with
      | true =>
        refine Or.inr fun p hpn => (hp.orderly s).resolved hdirect p hpn ?_
        rw [htodo]
        exact resolve_notMem hsuf p
      | false =>
        refine Or.inl fun i hi => ?_
        have hm : st'.mem = stageLocalSource st.mem s := by
          simp only [hostStep, hdirect, Bool.false_eq_true, if_false, Option.some.injEq] at hhost
          rw [← hhost]
        rw [hm, stageLocalSource, Function.update_self]
        exact h.intact s (hp.userReady_of_head htodo (by simp))
          (Or.inr (Or.inl (by rw [htodo]; exact List.mem_cons_self))) i hi
    · rw [hmem _ (fun t ht hrt => hstage (by cases ht; exact hrt))]
      exact h.staging s (((heff.stageSeq s).1 hs).resolve_right hstage)
  · have hpending : c.pending st' q i = c.pending st q i := by
      rcases pending_of_step (fun q => (hp.orderly q).idle) hstep (s := q) hi with heq | ⟨_, _, hl, -⟩
      · exact heq
      · cases hl
    rw [hpending, hmem _ (fun t ht => absurd ht (recvBuf_ne_staging q t)), hmem _ (by simp)]
    exact h.value q hq (by rwa [huser q] at huq) i hi

theorem Contents.element {st st' : State V} {r i : ℕ} {op : StreamOp} {rest : List StreamOp}
    (h : c.Contents st) (hp : c.Protocol st) (hqueue : (st.worker r).queue = op :: rest)
    (hi : i < c.count) (hnew : i ∉ (st.worker r).processed)
    (hguard : c.readersFinished st (.element r i) = true)
    (hstep : c.step st (.element r i) = some st')
    (hst : st' = { st with
      mem := c.runElement st.mem r i op
      worker := Function.update st.worker r
        { st.worker r with processed := i :: (st.worker r).processed } }) :
    c.Contents st' := by
  have hworker : ∀ q, (st'.worker q).todo = (st.worker q).todo ∧
      (st'.worker q).userReady = (st.worker q).userReady := fun q => by
    by_cases hq : q = r
    · subst hq; rw [hst]; simp
    · rw [hst]; simp [hq]
  have hmem : ∀ b j, b ≠ c.target r op ∨ j ≠ i → st'.mem b j = st.mem b j := fun b j hb => by
    rw [hst]; exact runElement_of_ne hb
  refine ⟨fun s hs hcond j hj => ?_, fun s hs => ?_, fun q hq huq j hj => ?_⟩
  · rw [(hworker s).2] at hs
    rw [(hworker s).1] at hcond
    have hmono : c.allRead st' s = false → c.allRead st s = false := fun hall => by
      by_contra htrue
      rw [allRead_mono hp hstep (by simpa using htrue)] at hall
      cases hall
    by_cases htarget : Buf.send s = c.target r op
    · -- an in-place rank writes: it is past its staging, and its peers have read
      obtain ⟨rfl, hin, hwrites⟩ := target_eq_send htarget.symm
      simp only [readersFinished, hqueue, hin, hwrites, Bool.and_self, Bool.not_true,
        Bool.false_or] at hguard
      rcases hcond with hout | hstage | hall
      · rw [hin] at hout; cases hout
      · rw [(hp.orderly r).staged hstage] at hqueue; cases hqueue
      · rw [hmono hall] at hguard; cases hguard
    · rw [hmem _ _ (Or.inl htarget)]
      exact h.intact s hs (hcond.imp_right (Or.imp_right hmono)) j hj
  · refine (h.staging s (by rwa [hst] at hs)).imp_left fun hstaged j hj => ?_
    rw [hmem _ _ (Or.inl (target_ne_staging r s op).symm)]
    exact hstaged j hj
  · rw [(hworker q).2] at huq
    have hvalue := h.value q hq huq j hj
    rcases pending_of_step (fun q => (hp.orderly q).idle) hstep (s := q) hj with heq | hrun
    · rw [heq]
      -- the step is about another element, or another rank
      have hoff : q ≠ r ∨ j ≠ i := by
        by_contra hsame
        push Not at hsame
        obtain ⟨rfl, rfl⟩ := hsame
        have hlt : (c.pending st' q j).length < (c.pending st q j).length := by
          rw [hst]
          simp [pending, hqueue, hnew]
        rw [heq] at hlt
        exact lt_irrefl _ hlt
      have hrecv : c.recvBuf q ≠ c.target r op ∨ j ≠ i := by
        refine hoff.imp_left fun hqr heq => ?_
        unfold target at heq
        split at heq
        · exact hqr (recvBuf_inj heq)
        · exact recvBuf_ne_scratch q r heq
      have hscratch : Buf.scratch q ≠ c.target r op ∨ j ≠ i := by
        refine hoff.imp_left fun hqr heq => ?_
        unfold target at heq
        split at heq
        · exact recvBuf_ne_scratch r q heq.symm
        · exact hqr (by simpa using heq)
      rw [hmem _ _ hrecv, hmem _ _ hscratch]
      exact hvalue
    · obtain ⟨op', rest', hl, hqueue', heq⟩ := hrun
      cases hl
      rw [hqueue] at hqueue'
      cases hqueue'
      have hsource := h.source hp hqueue hi hnew
      rw [heq, List.foldl_cons, ← runElement_self hsource.1 hsource.2] at hvalue
      rw [hst] at hvalue ⊢
      exact hvalue

theorem Contents.step [Std.Commutative c.op] [Std.Associative c.op] {st st' : State V}
    {l : Label} (h : c.Contents st) (hp : c.Protocol st) (hguard : c.readersFinished st l = true)
    (hstep : c.step st l = some st') : c.Contents st' := by
  obtain ⟨r, rfl, hr, hu, hst⟩ | ⟨r, op, rest, rfl, -, htodo, hhost⟩ |
    ⟨r, i, op, rest, rfl, hqueue, hi, hnew, hst⟩ | ⟨r, op, rest, rfl, hqueue, hall, hst⟩ :=
    step_cases hstep
  · exact h.user hp hr hu hstep hst
  · exact h.host hp htodo hstep hhost
  · exact h.element hp hqueue hi hnew hguard hstep hst
  · have hworker : ∀ q, (st'.worker q).todo = (st.worker q).todo ∧
        (st'.worker q).userReady = (st.worker q).userReady := fun q => by
      by_cases hq : q = r
      · subst hq; rw [hst]; simp
      · rw [hst]; simp [hq]
    have hmem : st'.mem = st.mem := by rw [hst]
    refine ⟨fun s hs hcond => ?_, fun s hs => ?_, fun q hq huq j hj => ?_⟩
    · rw [hmem]
      rw [(hworker s).2] at hs
      rw [(hworker s).1] at hcond
      refine h.intact s hs (hcond.imp_right (Or.imp_right fun hall => ?_))
      by_contra htrue
      rw [allRead_mono hp hstep (by simpa using htrue)] at hall
      cases hall
    · rw [hmem]
      exact h.staging s (by rwa [hst] at hs)
    · rw [(hworker q).2] at huq
      rcases pending_of_step (fun q => (hp.orderly q).idle) hstep (s := q) hj with heq | ⟨_, _, hl, -⟩
      · rw [heq, hmem]
        exact h.value q hq huq j hj
      · cases hl

/-! ### No late read -/

variable (c) in
/-- What a run's accesses so far mean: none was late, and what has been overwritten has no
reader left. -/
structure Timely (tr : List Access) (st : State V) : Prop where
  pairwise : tr.Pairwise NotLate
  allRead : ∀ r, Access.overwrite r ∈ tr → c.allRead st r = true

theorem Timely.step {tr : List Access} {st st' : State V} {l : Label} (h : c.Timely tr st)
    (hp : c.Protocol st) (hguard : c.readersFinished st l = true)
    (hstep : c.step st l = some st') : c.Timely (tr ++ c.accesses st l) st' := by
  have hmono : ∀ r, c.allRead st r = true → c.allRead st' r = true :=
    fun r hr => allRead_mono hp hstep hr
  obtain ⟨r, rfl, -⟩ | ⟨r, op, rest, rfl, -⟩ | ⟨r, i, op, rest, rfl, hqueue, hi, hnew, -⟩ |
    ⟨r, op, rest, rfl, -⟩ := step_cases hstep
  · exact ⟨by simpa [accesses] using h.pairwise,
      fun q hq => hmono q (h.allRead q (by simpa [accesses] using hq))⟩
  · exact ⟨by simpa [accesses] using h.pairwise,
      fun q hq => hmono q (h.allRead q (by simpa [accesses] using hq))⟩
  · have hfed := (hp.orderly r).fed op (hqueue ▸ List.mem_cons_self)
    have hnow : c.accesses st (.element r i) =
        (((List.range c.worldSize).filter fun s => s != r && op.readsFrom s).map (.read r)) ++
          if c.inPlace r && op.writesRecv then [.overwrite r] else [] := by
      simp only [accesses, hqueue]
    -- an access of this step is a read of a buffer still unread, or a write of a read one
    have hread : ∀ q s, Access.read q s ∈ c.accesses st (.element r i) →
        c.allRead st s = false := by
      intro q s hqs
      rw [hnow] at hqs
      have hqs : s ≠ r ∧ op.readsFrom s = true := by
        rcases List.mem_append.1 hqs with hm | hm
        · obtain ⟨t, ht, hrt⟩ := List.mem_map.1 hm
          cases hrt
          simpa using (List.mem_filter.1 ht).2
        · split at hm <;> simp at hm
      by_contra hall
      have hun := allRead_eq_true.1 (by simpa using hall) r hfed.rank (Ne.symm hqs.1) i hi
      rw [unread, pending, if_neg hnew, hqueue, List.cons_append, List.any_cons,
        Bool.or_eq_false_iff] at hun
      rw [hqs.2] at hun
      cases hun.1
    have hwrite : ∀ q, Access.overwrite q ∈ c.accesses st (.element r i) →
        c.allRead st q = true := by
      intro q hq
      rw [hnow] at hq
      rcases List.mem_append.1 hq with hm | hm
      · obtain ⟨t, -, hrt⟩ := List.mem_map.1 hm
        cases hrt
      · split at hm
        · rename_i hcond
          cases List.mem_singleton.1 hm
          simpa only [readersFinished, hqueue, hcond, Bool.not_true, Bool.false_or] using hguard
        · cases hm
    refine ⟨List.pairwise_append.2 ⟨h.pairwise, ?_, ?_⟩, fun q hq => ?_⟩
    · rw [List.pairwise_iff_forall_sublist]
      rintro a b hab s q rfl hb
      subst hb
      have h1 := hwrite s (hab.subset List.mem_cons_self)
      rw [hread q s (hab.subset (by simp))] at h1
      cases h1
    · rintro a ha b hb s q rfl hb'
      subst hb'
      have h1 := h.allRead s ha
      rw [hread q s hb] at h1
      cases h1
    · exact hmono q ((List.mem_append.1 hq).elim (h.allRead q) (hwrite q))
  · exact ⟨by simpa [accesses] using h.pairwise,
      fun q hq => hmono q (h.allRead q (by simpa [accesses] using hq))⟩

/-! ## Correctness -/

/-- Where no in-place rank is read on its device, every step meets the condition. -/
theorem readersFinished_of_bound {st : State V} (hp : c.Protocol st)
    (hbound : ∀ r s, c.inPlace s = true → s ≠ r → c.bound r s = false) (l : Label) :
    c.readersFinished st l = true := by
  cases l with
  | user _ | host _ | retire _ => rfl
  | element r i =>
    cases hqueue : (st.worker r).queue with
    | nil => simp only [readersFinished, hqueue]
    | cons op rest =>
      simp only [readersFinished, hqueue, Bool.or_eq_true, Bool.not_eq_true',
        Bool.and_eq_false_iff]
      cases hin : c.inPlace r with
      | false => exact Or.inl (Or.inl rfl)
      | true =>
        refine Or.inr (allRead_eq_true.2 fun s _ hsr j _ => ?_)
        -- a pending read of a peer's device needs that device bound
        have hnot : ∀ k ∈ c.pending st s j, k.source? ≠ some (.device r) := by
          intro k hk hsrc
          rcases List.mem_append.1 hk with hk | hk
          · have hmem : k ∈ (st.worker s).queue := by
              split at hk
              · exact List.mem_of_mem_tail hk
              · exact hk
            have hb := (((hp.orderly s).fed k hmem).device r hsrc).2.2 (Ne.symm hsr)
            rw [hbound s r hin (Ne.symm hsr)] at hb
            cases hb
          · obtain ⟨hop, hmem, hk⟩ := List.mem_flatMap.1 hk
            have hinfo : ∀ t, c.sourceInfo s t = .device r → False := by
              intro t ht
              unfold sourceInfo at ht
              split at ht <;> cases ht
              rename_i hdir
              rw [hbound s r hin (Ne.symm hsr)] at hdir
              rcases hdir with hrs | hb
              · exact hsr hrs.symm
              · cases hb
            obtain ⟨-, -, rfl⟩ | ⟨-, -, rfl⟩ | ⟨t, -, -, rfl | rfl⟩ :=
              mem_launched ((hp.orderly s).todo.subset hmem) hk
            · exact hinfo _ (Option.some.inj hsrc)
            · cases hsrc
            · exact hinfo _ (Option.some.inj hsrc)
            · cases hsrc
        rw [unread, List.any_eq_false]
        exact fun k hk => by simpa [StreamOp.readsFrom] using hnot k hk

/-- **Small-message AllReduce.**  In a run in which an in-place rank writes its buffer only
once no peer has still to read it, every rank that returns holds the reduction of all ranks'
inputs, and no peer reads a buffer after its rank has begun to write it. -/
theorem allreduce_correct (c : AllReduce V) [Std.Commutative c.op] [Std.Associative c.op]
    {mem : Buf → ℕ → V} {words : SlotWords} (hstale : c.Stale words) {ls : List Label}
    {st : State V}
    (hrun : c.machine.runFrom c.readersFinished (c.start mem words) ls = some st) :
    (∀ r < c.worldSize, (st.worker r).todo = [] →
      ∀ i < c.count, st.mem (c.recvBuf r) i = c.reduction i) ∧
    (c.machine.trace c.accesses (c.start mem words) ls).Pairwise NotLate := by
  obtain ⟨hp, hc, ht⟩ := c.machine.invariantTrace_init
    (I := fun tr st => c.Protocol st ∧ c.Contents st ∧ c.Timely tr st)
    (fun tr s l s' h hguard hstep => ⟨h.1.step hstep, h.2.1.step h.1 hguard hstep,
      h.2.2.step h.1 hguard hstep⟩)
    ⟨Protocol.start hstale, Contents.start hstale, List.Pairwise.nil, by simp⟩ hrun
  refine ⟨fun r hr htodo i hi => ?_, ht.pairwise⟩
  have hready : (st.worker r).userReady = true := by
    by_contra hu
    have hmem := (hp.orderly r).unready (by simpa using hu)
    rw [htodo] at hmem
    cases hmem
  have hempty : (st.worker r).queue = [] := (hp.orderly r).drained (by simp [htodo])
  have hpending : c.pending st r i = [] := by
    simp [pending, htodo, hempty, (hp.orderly r).idle hempty]
  have hvalue := hc.value r hr hready i hi
  rwa [hpending] at hvalue

/-! ### Two ranks in place -/

/-- Two ranks reduce one element in place; each finds the other's device buffer. -/
def pair : AllReduce ℕ where
  worldSize := 2
  worldSize_pos := Nat.two_pos
  count := 1
  op := fun a b => a + b
  inPlace := fun _ => true
  probed := fun _ _ => true
  bound := fun _ _ => true
  bound_of_probed := fun _ _ h => h
  input := fun r _ => r + 1
  workSeq := 1
  workSeq_pos := Nat.one_pos

/-- The words before the first collective. -/
def freshWords : SlotWords where
  readySeq := fun _ => 0
  stageSeq := fun _ => 0
  directOkSeq := fun _ => 0
  directMissingSeq := fun _ => 0
  barrierCount := 0
  barrierGeneration := 0

/-- Both ranks agree on the direct mode and launch their kernels. -/
def pairLaunch : List Label :=
  [.user 0, .user 1, .host 0, .host 0, .host 1, .host 1, .host 0, .host 0, .host 1, .host 1,
   .host 0, .host 1, .host 0, .host 1]

/-- Both ranks wait for their stream and meet at the barrier. -/
def pairFinish : List Label :=
  [.host 0, .host 1, .host 0, .host 1, .host 0, .host 1]

/-- Both ranks load the other's contribution before either of them reduces. -/
def pairTogether : List Label :=
  pairLaunch ++ [.element 0 0, .element 1 0, .retire 0, .retire 1, .element 0 0, .element 1 0,
    .retire 0, .retire 1] ++ pairFinish

/-- Rank 0 loads and reduces before rank 1 loads. -/
def pairApart : List Label :=
  pairLaunch ++ [.element 0 0, .retire 0, .element 0 0, .retire 0, .element 1 0, .retire 1,
    .element 1 0, .retire 1] ++ pairFinish

theorem allreduce_correct_pair :
    ∃ st, pair.machine.runFrom pair.readersFinished (pair.start (fun _ _ => 0) freshWords)
        pairTogether = some st ∧
      st.mem (pair.recvBuf 1) 0 = 3 := by
  have hobs : ((pair.machine.runFrom pair.readersFinished
      (pair.start (fun _ _ => 0) freshWords) pairTogether).map fun st =>
        (st.worker 1).todo) = some [] := by decide +kernel
  obtain ⟨st, hrun, htodo⟩ := Option.map_eq_some_iff.1 hobs
  have hcomm : Std.Commutative pair.op := ⟨Nat.add_comm⟩
  have hassoc : Std.Associative pair.op := ⟨Nat.add_assoc⟩
  exact ⟨st, hrun, (allreduce_correct pair ⟨rfl, by simp [freshWords, pair]⟩ hrun).1 1 (by decide) htodo
    0 (by decide)⟩

/-- Rank 1 reads the sum where it expects rank 0's contribution, and returns five. -/
theorem overwritten_before_read :
    ∃ st, pair.machine.runFrom Theory.Machine.anyStep (pair.start (fun _ _ => 0) freshWords)
        pairApart = some st ∧
      (st.worker 1).todo = [] ∧ st.mem (pair.recvBuf 1) 0 = 5 ∧ pair.reduction 0 = 3 ∧
      ¬ (pair.machine.trace pair.accesses (pair.start (fun _ _ => 0) freshWords)
        pairApart).Pairwise NotLate := by
  have hobs : ((pair.machine.runFrom Theory.Machine.anyStep
      (pair.start (fun _ _ => 0) freshWords) pairApart).map fun st =>
        ((st.worker 1).todo, st.mem (pair.recvBuf 1) 0)) = some ([], 5) := by decide +kernel
  obtain ⟨st, hrun, hobs⟩ := Option.map_eq_some_iff.1 hobs
  simp only [Prod.mk.injEq] at hobs
  have htrace : pair.machine.trace pair.accesses (pair.start (fun _ _ => 0) freshWords)
      pairApart = [.read 0 1, .overwrite 0, .read 1 0, .overwrite 1] := by decide +kernel
  refine ⟨st, hrun, hobs.1, hobs.2, by decide, fun hpair => ?_⟩
  rw [htrace] at hpair
  simp only [List.pairwise_cons] at hpair
  exact hpair.2.1 (.read 1 0) (by simp) 0 1 rfl rfl

end AllReduce

end Fastpath
end HyLink
