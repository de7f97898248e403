import HyLink.Orchestrator.StatWait

/-!
# What an aggregate combines

Each slot holds the last stat its rank has written.  Where the ranks have finished unequally
many callbacks when rank 0 takes the slots, the aggregate combines stats of different
collectives; where a callback is writing, it takes half of a stat.

* `aligned` — callbacks of a rank run one at a time in the order of their collectives, a
  collective registers one on every rank or on none, and rank 0 reads a slot that is not
  being written, of a rank that has finished as many callbacks as the ranks read before.
* `aggregates_homogeneous` — then every aggregate combines one whole stat of every rank, all
  of one collective, and no collective twice.
* `aggregate_mixes` — two ranks, one of which has run one callback more.
-/

namespace HyLink
namespace Orchestrator
namespace Feedback

open Theory

variable {K : Type} [Field K] [LinearOrder K] {cfg : Config K}

/-! ## The condition -/

/-- **The condition on a step.** -/
def aligned (s : State cfg) : Label K → Bool
  | .thread r _ =>
    match s.stage r with
    | .gather _ seen =>
      decide (cfg.nranks ≤ seen.length) ||
        (!s.writing seen.length &&
          seen.all fun x => decide (x.source.ordinal = s.finished seen.length))
    | .launching plan =>
      cfg.registers r ((s.plans r).length - 1) plan ==
        cfg.registers 0 ((s.plans r).length - 1) plan
    | _ => true
  | .startCallback r i _ _ => decide (i = 0) && (s.running r).isEmpty
  | .callback _ _ => true

/-- One whole stat of every rank, all of one collective. -/
def Homogeneous (nranks : ℕ) (row : List Source) (seq : ℕ) : Prop :=
  row.length = nranks ∧ ∀ x ∈ row, x.torn = false ∧ x.keySeq = seq ∧ x.statSeq = seq

/-! ## The callbacks of a rank in order -/

/-- The collectives with these plans for which rank 0 registers a callback. -/
def registeredSeqs (cfg : Config K) (plans : List Plan) : List ℕ :=
  (plans.zipIdx.filter fun p => cfg.registers 0 p.2 p.1).map Prod.snd

theorem registeredSeqs_append (plans : List Plan) (p : Plan) :
    registeredSeqs cfg (plans ++ [p]) =
      registeredSeqs cfg plans ++ if cfg.registers 0 plans.length p then [plans.length] else [] := by
  unfold registeredSeqs
  rw [List.zipIdx_append, List.filter_append, List.map_append, List.zipIdx_cons, List.zipIdx_nil,
    Nat.zero_add]
  by_cases h : cfg.registers 0 plans.length p = true <;> simp [h]

theorem registeredSeqs_initial {plans plans' : List Plan} (h : plans <+: plans') :
    registeredSeqs cfg plans <+: registeredSeqs cfg plans' := by
  obtain ⟨rest, rfl⟩ := h
  induction rest using List.reverseRecOn with
  | nil => rw [List.append_nil]
  | append_singleton rest p ih =>
    rw [← List.append_assoc, registeredSeqs_append]
    exact ih.trans (List.prefix_append _ _)

/-- Later callbacks belong to later collectives. -/
theorem registeredSeqs_sorted (plans : List Plan) :
    (registeredSeqs cfg plans).Pairwise (· < ·) := by
  have hrange : (plans.zipIdx.map Prod.snd).Pairwise (· < ·) := by
    rw [List.zipIdx_map_snd]
    exact List.pairwise_lt_range'
  exact hrange.sublist (List.filter_sublist.map _)

/-- `done` are the collectives whose callbacks the rank has finished. -/
structure Queue (s : State cfg) (r : ℕ) (done : List ℕ) : Prop where
  length : done.length = s.finished r
  split : registeredSeqs cfg (s.launched r) =
    done ++ (s.running r).map Running.seq ++ (s.pending r).map Pending.seq
  one : (s.running r).length ≤ 1
  loads : (s.running r).length ≤ s.loads r
  /-- The slot holds the stat of the last of them, unless it is being written. -/
  last : s.writing r = false → ∀ seq, done.getLast? = some seq →
    (s.slots r).keySeq = seq ∧ (s.slots r).statSeq = seq
  keyed : ∀ c ∈ s.running r, c.stage = .keyed ∨ c.stage = .filled →
    (s.slots r).keySeq = c.seq
  filled : ∀ c ∈ s.running r, c.stage = .filled → (s.slots r).statSeq = c.seq

section Threads

variable [FloorSemiring K] {s s' : State cfg} {r q : ℕ} {done : List ℕ}

/-- Threads do not change what a slot says of its collectives. -/
theorem Advance.slot_seqs (h : Advance s r s') (q : ℕ) :
    (s'.slots q).keySeq = (s.slots q).keySeq ∧ (s'.slots q).statSeq = (s.slots q).statSeq := by
  cases h
  case clear epoch i key stat hst hi =>
    by_cases hq : q = i
    · subst hq
      simp
    · simp [Function.update_of_ne hq]
  all_goals exact ⟨rfl, rfl⟩

/-- A launch adds the rank's own callback, if any. -/
theorem Advance.queue_self {raced : Option (OpKey × ExecStat K)} (h : Advance s r s')
    (hlast : ∀ plan, s.stage r = .launching plan → (s.plans r).getLast? = some plan)
    (hguard : aligned s (.thread r raced) = true)
    (hq : registeredSeqs cfg (s.launched r) =
      done ++ (s.running r).map Running.seq ++ (s.pending r).map Pending.seq) :
    registeredSeqs cfg (s'.launched r) =
      done ++ (s.running r).map Running.seq ++ (s'.pending r).map Pending.seq := by
  have hsplit : ∀ {plan}, s.stage r = .launching plan → s.plans r = (s.plans r).dropLast ++ [plan] ∧
      (s.plans r).length - 1 = (s.plans r).dropLast.length := by
    intro plan hst
    exact ⟨(List.dropLast_append_getLast? plan (hlast plan hst)).symm, List.length_dropLast.symm⟩
  cases h
  case launch plan seq hst hseq hreg =>
    obtain ⟨hplans, hlen⟩ := hsplit hst
    simp only [aligned, hst, beq_iff_eq, ← hseq, hreg] at hguard
    unfold State.launched at hq ⊢
    rw [hst] at hq
    simp only [State.goto, Function.update_self, List.map_append, List.map_cons, List.map_nil]
    rw [hplans, registeredSeqs_append, hq, ← hlen, ← hseq, if_pos hguard.symm, List.append_assoc,
      List.append_assoc]
  case launchSilent plan seq hst hseq hreg =>
    obtain ⟨hplans, hlen⟩ := hsplit hst
    simp only [aligned, hst, beq_iff_eq, ← hseq, hreg] at hguard
    unfold State.launched at hq ⊢
    rw [hst] at hq
    simp only [State.goto, Function.update_self]
    rw [hplans, registeredSeqs_append, hq, ← hlen, ← hseq, if_neg (by simp [← hguard]),
      List.append_nil]
  case plan key suggested plan hst hkey hsug hplan =>
    unfold State.launched at hq ⊢
    rw [hst] at hq
    simpa [State.goto] using hq
  case arrive m hst =>
    unfold State.launched at hq ⊢
    rw [hst] at hq
    by_cases hfull : (s.barrierCount + 1) % 2 ^ 32 = cfg.nranks
    · rw [if_pos hfull]
      simpa [State.goto] using hq
    · rw [if_neg hfull]
      simpa [State.goto] using hq
  all_goals
    rename s.stage r = _ => hst
    unfold State.launched at hq ⊢
    rw [hst] at hq
    simpa [State.goto] using hq

/-- **Threads keep the callbacks of every rank in order.** -/
theorem Queue.advance {raced : Option (OpKey × ExecStat K)} (hq : Queue s q done)
    (h : Advance s r s')
    (hlast : ∀ plan, s.stage r = .launching plan → (s.plans r).getLast? = some plan)
    (hguard : aligned s (.thread r raced) = true) : Queue s' q done := by
  obtain ⟨hloads, hrunning⟩ := h.callbacks
  obtain ⟨hkey, hstat⟩ := h.slot_seqs q
  refine ⟨?_, ?_, ?_, ?_, ?_, ?_, ?_⟩
  · unfold State.finished
    rw [hloads, hrunning]
    exact hq.length
  · rw [hrunning]
    by_cases hqr : q = r
    · subst hqr
      exact h.queue_self hlast hguard hq.split
    · have hlaunched : s'.launched q = s.launched q := by
        unfold State.launched
        rw [h.stage_ne hqr, h.plans_ne hqr]
      have hpending : s'.pending q = s.pending q := by
        cases h
        case launch hst hseq hreg => exact Function.update_of_ne hqr _ _
        all_goals rfl
      rw [hlaunched, hpending]
      exact hq.split
  · rw [hrunning]
    exact hq.one
  · rw [hrunning, hloads]
    exact hq.loads
  · unfold State.writing
    rw [hrunning, hkey, hstat]
    exact hq.last
  · rw [hrunning, hkey]
    exact hq.keyed
  · rw [hrunning, hstat]
    exact hq.filled

end Threads

/-! ## The callbacks themselves -/

variable {s s' : State cfg} {r q : ℕ} {done : List ℕ}

theorem Queue.startCallback {i : ℕ} {fastTime pcieTime : K} (hq : Queue s q done)
    (hguard : aligned s (.startCallback r i fastTime pcieTime) = true)
    (h : startCallback s r i fastTime pcieTime = some s') : Queue s' q done := by
  obtain ⟨p, hp, rfl⟩ := Option.map_eq_some_iff.1 h
  simp only [aligned, Bool.and_eq_true, decide_eq_true_eq, List.isEmpty_iff] at hguard
  obtain ⟨rfl, hidle⟩ := hguard
  obtain ⟨hlength, hsplit, hone, hloads, hlast, hkeyed, hfilled⟩ := hq
  by_cases hqr : q = r
  · subst hqr
    obtain ⟨rest, hrest⟩ : ∃ rest, s.pending q = p :: rest := by
      cases hpend : s.pending q with
      | nil =>
        rw [hpend] at hp
        cases hp
      | cons x rest =>
        rw [hpend] at hp
        exact ⟨rest, by rw [Option.some.inj hp]⟩
    refine ⟨?_, ?_, ?_, ?_, ?_, ?_, ?_⟩
    · unfold State.finished at *
      simp only [Function.update_self]
      rw [hidle] at hlength ⊢
      simpa using hlength
    · show registeredSeqs cfg (s.launched q) = _
      simp only [Function.update_self]
      rw [hsplit, hidle, hrest]
      simp
    · simp [hidle]
    · simp [hidle]
    · intro _ seq hseq
      refine hlast ?_ seq hseq
      unfold State.writing
      rw [hidle]
      rfl
    · intro c hc hst
      simp only [Function.update_self, hidle, List.nil_append, List.mem_singleton] at hc
      subst hc
      rcases hst with hst | hst <;> cases hst
    · intro c hc hst
      simp only [Function.update_self, hidle, List.nil_append, List.mem_singleton] at hc
      subst hc
      cases hst
  · refine ⟨?_, ?_, ?_, ?_, ?_, ?_, ?_⟩
    · unfold State.finished
      simp only [Function.update_of_ne hqr]
      exact hlength
    · simp only [Function.update_of_ne hqr]
      exact hsplit
    · simp only [Function.update_of_ne hqr]
      exact hone
    · simp only [Function.update_of_ne hqr]
      exact hloads
    · unfold State.writing
      simp only [Function.update_of_ne hqr]
      exact hlast
    · simp only [Function.update_of_ne hqr]
      exact hkeyed
    · simp only [Function.update_of_ne hqr]
      exact hfilled

/-- A store of a callback of another rank. -/
theorem Queue.stored_ne (hq : Queue s q done) (hqr : q ≠ r) (slot : StatSlot K)
    (cs : List (Running K)) : Queue ((s.setSlot r slot).setRunning r cs) q done := by
  have hslots : ((s.setSlot r slot).setRunning r cs).slots q = s.slots q :=
    Function.update_of_ne hqr _ _
  have hrunning : ((s.setSlot r slot).setRunning r cs).running q = s.running q :=
    Function.update_of_ne hqr _ _
  obtain ⟨hlength, hsplit, hone, hloads, hlast, hkeyed, hfilled⟩ := hq
  unfold State.finished at hlength
  unfold State.writing at hlast
  refine ⟨?_, ?_, ?_, ?_, ?_, ?_, ?_⟩
  · unfold State.finished
    rw [hrunning]
    exact hlength
  · rw [hrunning]
    exact hsplit
  · rw [hrunning]
    exact hone
  · rw [hrunning]
    exact hloads
  · unfold State.writing
    rw [hrunning, hslots]
    exact hlast
  · rw [hrunning, hslots]
    exact hkeyed
  · rw [hrunning, hslots]
    exact hfilled

/-- The running callback of a rank. -/
theorem Queue.running_eq {i : ℕ} {c : Running K} (hq : Queue s r done)
    (hc : (s.running r)[i]? = some c) : i = 0 ∧ s.running r = [c] := by
  have hlt := (List.getElem?_eq_some_iff.1 hc).1
  have hone := hq.one
  obtain rfl : i = 0 := by omega
  obtain ⟨x, hx⟩ := List.length_eq_one_iff.1 (show (s.running r).length = 1 by omega)
  rw [hx] at hc ⊢
  rw [Option.some.inj hc]
  exact ⟨rfl, rfl⟩

/-- A running callback stores a field and goes on. -/
theorem Queue.stored (hq : Queue s r done) {c : Running K} (c' : Running K)
    (hrun : s.running r = [c])
    (hseq : c'.seq = c.seq) (hwrite : c'.stage.writing = true) {slot : StatSlot K}
    (hkeyed : c'.stage = .keyed ∨ c'.stage = .filled → slot.keySeq = c.seq)
    (hfilled : c'.stage = .filled → slot.statSeq = c.seq) :
    Queue ((s.setSlot r slot).setRunning r [c']) r done := by
  have hrunning : ((s.setSlot r slot).setRunning r [c']).running r = [c'] :=
    Function.update_self _ _ _
  have hslot := store_slot s r slot [c']
  obtain ⟨hlength, hsplit, hone, hloads, hlast, -, -⟩ := hq
  refine ⟨?_, ?_, ?_, ?_, ?_, ?_, ?_⟩
  · unfold State.finished at *
    rw [hrunning]
    rw [hrun] at hlength
    exact hlength
  · rw [hrunning]
    rw [hrun] at hsplit
    show registeredSeqs cfg (s.launched r) = done ++ [c'.seq] ++ (s.pending r).map Pending.seq
    rw [hseq]
    exact hsplit
  · rw [hrunning]
    exact le_refl _
  · rw [hrunning]
    rw [hrun] at hloads
    exact hloads
  · intro hw
    unfold State.writing at hw
    rw [hrunning] at hw
    simp [hwrite] at hw
  · intro x hx hst
    rw [hrunning, List.mem_singleton] at hx
    subst hx
    rw [hslot, hseq]
    exact hkeyed hst
  · intro x hx hst
    rw [hrunning, List.mem_singleton] at hx
    subst hx
    rw [hslot, hseq]
    exact hfilled hst

/-- **A callback finishes:** its collective is the last one done. -/
theorem Queue.finish (hq : Queue s r done) {c : Running K} (hrun : s.running r = [c])
    (hst : c.stage = .filled) :
    Queue ((s.setSlot r { s.slots r with valid := true }).setRunning r []) r (done ++ [c.seq]) := by
  have hrunning : ((s.setSlot r { s.slots r with valid := true }).setRunning r []).running r = [] :=
    Function.update_self _ _ _
  have hslot := store_slot s r { s.slots r with valid := true } []
  have hmem : c ∈ s.running r := by
    rw [hrun]
    exact List.mem_singleton_self c
  obtain ⟨hlength, hsplit, hone, hloads, hlast, hkeyed, hfilled⟩ := hq
  refine ⟨?_, ?_, ?_, ?_, ?_, ?_, ?_⟩
  · unfold State.finished at *
    rw [hrunning, List.length_append, hlength]
    rw [hrun] at hloads ⊢
    show s.loads r - 1 + 1 = s.loads r - 0
    have hpos : 1 ≤ s.loads r := hloads
    omega
  · rw [hrunning]
    rw [hrun] at hsplit
    show registeredSeqs cfg (s.launched r) = done ++ [c.seq] ++ [] ++ (s.pending r).map Pending.seq
    rw [hsplit, List.append_nil]
    rfl
  · rw [hrunning]
    exact Nat.zero_le _
  · rw [hrunning]
    exact Nat.zero_le _
  · intro _ seq hseq
    rw [List.getLast?_concat] at hseq
    cases hseq
    rw [hslot]
    exact ⟨hkeyed c hmem (.inr hst), hfilled c hmem hst⟩
  · intro x hx
    rw [hrunning] at hx
    cases hx
  · intro x hx
    rw [hrunning] at hx
    cases hx

/-- **A store of a callback keeps the callbacks of every rank in order,** and finishes one at
most. -/
theorem Queue.callbackStep {i : ℕ} (hq : Queue s q done) (h : callbackStep s r i = some s') :
    ∃ done', Queue s' q done' ∧ done.length ≤ done'.length := by
  obtain ⟨⟨seq, stat, stage⟩, hc, rfl⟩ := Option.map_eq_some_iff.1 h
  by_cases hqr : q = r
  · subst hqr
    obtain ⟨rfl, hrun⟩ := hq.running_eq hc
    have hmem : ⟨seq, stat, stage⟩ ∈ s.running q := by
      rw [hrun]
      exact List.mem_singleton_self _
    cases stage with
    | loaded epoch =>
      rw [hrun]
      exact ⟨done, hq.stored ⟨seq, stat, .stamped⟩ hrun rfl rfl (by simp) (by simp), le_refl _⟩
    | stamped =>
      rw [hrun]
      exact ⟨done, hq.stored ⟨seq, stat, .keyed⟩ hrun rfl rfl (fun _ => rfl) (by simp), le_refl _⟩
    | keyed =>
      rw [hrun]
      exact ⟨done, hq.stored ⟨seq, stat, .filled⟩ hrun rfl rfl
        (fun _ => hq.keyed _ hmem (.inl rfl)) (fun _ => rfl), le_refl _⟩
    | filled =>
      rw [hrun]
      exact ⟨done ++ [seq], hq.finish hrun rfl, by simp⟩
  · cases stage with
    | loaded epoch => exact ⟨done, hq.stored_ne hqr _ _, le_refl _⟩
    | stamped => exact ⟨done, hq.stored_ne hqr _ _, le_refl _⟩
    | keyed => exact ⟨done, hq.stored_ne hqr _ _, le_refl _⟩
    | filled => exact ⟨done, hq.stored_ne hqr _ _, le_refl _⟩

/-! ## Rank 0 takes the slots -/

/-- Rank 0 has cleared the slot if it is clearing them. -/
def Stage.clearedTo : Stage K → ℕ → Bool
  | .clear _ i _ _, r => decide (r < i)
  | _, _ => true

/-- Rank 0 has found the stat of the rank. -/
def Stage.presentTo : Stage K → ℕ → Bool
  | .scanAll _ i, r => decide (r < i)
  | .gather _ _, _ => true
  | _, _ => false

def Stage.seen : Stage K → List (Reading K)
  | .gather _ seen => seen
  | _ => []

/-- The stat read is whole, and is the one of the collective with its ordinal. -/
def Source.Whole (x : Source) (seqs : List ℕ) : Prop :=
  x.torn = false ∧ seqs[x.ordinal - 1]? = some x.keySeq ∧ x.statSeq = x.keySeq

/-- The plans all ranks agree on. -/
def State.agreed [FloorSemiring K] (s : State cfg) : List Plan :=
  (Replica.after cfg s.announced).plans

/-- `rows` are the ordinals and the collectives of the aggregates, `last` is the last
ordinal. -/
structure Rows (s : State cfg) (seqs : List ℕ) (rows : List (ℕ × ℕ)) (last : ℕ) : Prop where
  homogeneous : List.Forall₂
    (fun row p => Homogeneous cfg.nranks row p.2 ∧ 0 < p.1 ∧ seqs[p.1 - 1]? = some p.2)
    s.aggregated rows
  sorted : rows.Pairwise fun p p' => p.1 < p'.1
  le_last : ∀ p ∈ rows, p.1 ≤ last
  last_le : ∀ r < cfg.nranks, last ≤ s.finished r
  /-- A stat that has not been taken is newer than those that have. -/
  fresh : ∀ r < cfg.nranks, (s.stage 0).clearedTo r = true → (s.slots r).valid = true →
    last < s.finished r
  present : ∀ r < cfg.nranks, (s.stage 0).presentTo r = true → (s.slots r).valid = true
  length_seen : (s.stage 0).seen.length ≤ cfg.nranks
  whole : ∀ x ∈ (s.stage 0).seen, x.source.Whole seqs ∧ last < x.source.ordinal
  same : ∀ x ∈ (s.stage 0).seen, ∀ y ∈ (s.stage 0).seen, x.source.ordinal = y.source.ordinal
  seen_le : ∀ x ∈ (s.stage 0).seen, ∀ r < (s.stage 0).seen.length,
    x.source.ordinal ≤ s.finished r

variable {seqs : List ℕ} {rows : List (ℕ × ℕ)} {last : ℕ}

theorem getElem?_of_initial {α : Type} {l l' : List α} (h : l <+: l') {i : ℕ} {x : α}
    (hx : l[i]? = some x) : l'[i]? = some x := by
  obtain ⟨rest, rfl⟩ := h
  rw [List.getElem?_append_left (List.getElem?_eq_some_iff.1 hx).1]
  exact hx

/-- More collectives do not change what the rows say. -/
theorem Rows.mono {seqs' : List ℕ} (h : Rows s seqs rows last) (hpre : seqs <+: seqs') :
    Rows s seqs' rows last := by
  refine ⟨?_, h.sorted, h.le_last, h.last_le, h.fresh, h.present, h.length_seen, ?_, h.same,
    h.seen_le⟩
  · exact h.homogeneous.imp fun _ _ hp => ⟨hp.1, hp.2.1, getElem?_of_initial hpre hp.2.2⟩
  · intro x hx
    obtain ⟨⟨htorn, hget, hstat⟩, hlast⟩ := h.whole x hx
    exact ⟨⟨htorn, getElem?_of_initial hpre hget, hstat⟩, hlast⟩

/-- What is left to check when rank 0 goes on without touching slots or aggregates. -/
theorem Rows.goto (h : Rows s seqs rows last) {t : State cfg}
    (hagg : t.aggregated = s.aggregated) (hfin : t.finished = s.finished)
    (hslots : t.slots = s.slots)
    (fresh : ∀ r < cfg.nranks, (t.stage 0).clearedTo r = true → (s.stage 0).clearedTo r = true)
    (present : ∀ r < cfg.nranks, (t.stage 0).presentTo r = true →
      (s.stage 0).presentTo r = true ∨ (s.slots r).valid = true)
    (seen : (t.stage 0).seen = (s.stage 0).seen ∨ (t.stage 0).seen = []) :
    Rows t seqs rows last := by
  have hsub : ∀ x ∈ (t.stage 0).seen, x ∈ (s.stage 0).seen := by
    intro x hx
    rcases seen with hs | hs
    · exact hs ▸ hx
    · rw [hs] at hx
      cases hx
  have hlen : (t.stage 0).seen.length ≤ (s.stage 0).seen.length := by
    rcases seen with hs | hs
    · exact hs ▸ le_refl _
    · rw [hs]
      exact Nat.zero_le _
  refine ⟨?_, h.sorted, h.le_last, ?_, ?_, ?_, hlen.trans h.length_seen, ?_, ?_, ?_⟩
  · rw [hagg]
    exact h.homogeneous
  · rw [hfin]
    exact h.last_le
  · intro r hr hc
    rw [hfin, hslots]
    exact h.fresh r hr (fresh r hr hc)
  · intro r hr hp
    rw [hslots]
    rcases present r hr hp with hp | hv
    · exact h.present r hr hp
    · exact hv
  · exact fun x hx => h.whole x (hsub x hx)
  · exact fun x hx y hy => h.same x (hsub x hx) y (hsub y hy)
  · intro x hx r hr
    rw [hfin]
    exact h.seen_le x (hsub x hx) r (Nat.lt_of_lt_of_le hr hlen)

theorem read_source (s : State cfg) (i : ℕ) (raced : Option (OpKey × ExecStat K)) :
    (s.read i raced).source =
      ⟨(s.slots i).keySeq, (s.slots i).statSeq, s.writing i, s.finished i⟩ := by
  unfold State.read
  dsimp only
  split <;> rfl

/-- **Rank 0 reads a slot** that is not being written, of a rank that has finished as many
callbacks as the ranks read before. -/
theorem Rows.gather (h : Rows s seqs rows last) {epoch : ℕ} {seen : List (Reading K)}
    (raced : Option (OpKey × ExecStat K)) (hst : s.stage 0 = .gather epoch seen)
    (hlen : seen.length < cfg.nranks) (hguard : aligned s (.thread 0 raced) = true)
    (hget : 0 < s.finished seen.length → s.writing seen.length = false →
      seqs[s.finished seen.length - 1]? = some (s.slots seen.length).keySeq ∧
        (s.slots seen.length).statSeq = (s.slots seen.length).keySeq) :
    Rows (s.goto 0 (.gather epoch (seen ++ [s.read seen.length raced]))) seqs rows last := by
  have hstage : (s.goto 0 (.gather epoch (seen ++ [s.read seen.length raced]))).stage 0 =
      .gather epoch (seen ++ [s.read seen.length raced]) := by
    simp [State.goto]
  have hsource := read_source s seen.length raced
  simp only [aligned, hst, Bool.or_eq_true, decide_eq_true_eq, Bool.and_eq_true,
    Bool.not_eq_true', List.all_eq_true] at hguard
  obtain ⟨hwriting, hordinal⟩ := hguard.resolve_left (not_le.2 hlen)
  have hvalid := h.present seen.length hlen (by rw [hst]; rfl)
  have hnewer := h.fresh seen.length hlen (by rw [hst]; rfl) hvalid
  obtain ⟨hseq, hstat⟩ := hget (Nat.zero_lt_of_lt hnewer) hwriting
  obtain ⟨hhom, hsorted, hle, hdone, hfresh, hpresent, -, hwhole, hsame, hseen⟩ := h
  rw [hst] at hfresh hpresent hwhole hsame hseen
  have hmem : ∀ {x}, x ∈ seen ++ [s.read seen.length raced] →
      x ∈ seen ∨ x = s.read seen.length raced := by
    intro x hx
    rcases List.mem_append.1 hx with hx | hx
    · exact .inl hx
    · exact .inr (List.mem_singleton.1 hx)
  have hordinal' : ∀ {x}, x ∈ seen ++ [s.read seen.length raced] →
      x.source.ordinal = s.finished seen.length := by
    intro x hx
    rcases hmem hx with hx | rfl
    · exact hordinal x hx
    · rw [hsource]
  refine ⟨hhom, hsorted, hle, hdone, ?_, ?_, ?_, ?_, ?_, ?_⟩
  · rw [hstage]
    exact hfresh
  · rw [hstage]
    exact hpresent
  · rw [hstage]
    show (seen ++ [_]).length ≤ _
    rw [List.length_append]
    exact hlen
  · rw [hstage]
    intro x hx
    rcases hmem hx with hx | rfl
    · exact hwhole x hx
    · unfold Source.Whole
      rw [hsource]
      exact ⟨⟨hwriting, hseq, hstat⟩, hnewer⟩
  · rw [hstage]
    intro x hx y hy
    rw [hordinal' hx, hordinal' hy]
  · rw [hstage]
    intro x hx r hr
    change r < (seen ++ [_]).length at hr
    rw [List.length_append] at hr
    rcases Nat.lt_succ_iff_lt_or_eq.1 hr with hr | rfl
    · rcases hmem hx with hx' | rfl
      · exact hseen x hx' r hr
      · -- the ranks read before had finished as many
        obtain ⟨y, hy⟩ : ∃ y, y ∈ seen := ⟨seen.get ⟨r, hr⟩, List.get_mem _ _⟩
        have hyr := hseen y hy r hr
        rw [hordinal y hy] at hyr
        rw [hsource]
        exact hyr
    · rw [hordinal' hx]
      exact le_refl _

/-- **Rank 0 has read all slots:** the aggregate is one more row. -/
theorem Rows.aggregate (h : Rows s seqs rows last) {epoch : ℕ} {seen : List (Reading K)}
    {key : OpKey} {stat : ExecStat K} (hst : s.stage 0 = .gather epoch seen)
    (hlen : cfg.nranks ≤ seen.length) :
    ∃ rows' last', Rows { s.goto 0 (.clear epoch 0 key stat) with
      aggregated := s.aggregated ++ [seen.map Reading.source] } seqs rows' last' := by
  have hn : 0 < cfg.nranks := Nat.lt_of_lt_of_le Nat.zero_lt_two cfg.two_le
  obtain ⟨hhom, hsorted, hle, hdone, -, -, hseenlen, hwhole, hsame, hseen⟩ := h
  rw [hst] at hseenlen hwhole hsame hseen
  have hlength : seen.length = cfg.nranks := le_antisymm hseenlen hlen
  obtain ⟨first, rest, rfl⟩ : ∃ first rest, seen = first :: rest := by
    cases seen with
    | nil =>
      rw [List.length_nil] at hlength
      omega
    | cons first rest => exact ⟨first, rest, rfl⟩
  obtain ⟨⟨-, hget, -⟩, hnewer⟩ := hwhole first List.mem_cons_self
  refine ⟨rows ++ [(first.source.ordinal, first.source.keySeq)], first.source.ordinal, ?_, ?_, ?_,
    ?_, ?_, ?_, Nat.zero_le _, nofun, nofun, nofun⟩
  · refine List.rel_append hhom (.cons ⟨⟨?_, ?_⟩, Nat.zero_lt_of_lt hnewer, hget⟩ .nil)
    · rw [List.length_map, hlength]
    · intro x hx
      obtain ⟨y, hy, rfl⟩ := List.mem_map.1 hx
      obtain ⟨⟨htorn, hyget, hystat⟩, -⟩ := hwhole y hy
      have hkey : y.source.keySeq = first.source.keySeq := by
        rw [hsame y hy first List.mem_cons_self, hget] at hyget
        exact (Option.some.inj hyget).symm
      exact ⟨htorn, hkey, hystat.trans hkey⟩
  · rw [List.pairwise_append]
    refine ⟨hsorted, List.pairwise_singleton _ _, ?_⟩
    intro p hp p' hp'
    rw [List.mem_singleton.1 hp']
    exact Nat.lt_of_le_of_lt (hle p hp) hnewer
  · intro p hp
    rcases List.mem_append.1 hp with hp | hp
    · exact (hle p hp).trans hnewer.le
    · rw [List.mem_singleton.1 hp]
  · intro r hr
    exact hseen first List.mem_cons_self r (hlength ▸ hr)
  · intro r hr hc
    simp [State.goto, Stage.clearedTo] at hc
  · intro r hr hp
    simp [State.goto, Stage.presentTo] at hp

/-- Rank 0 clears a slot. -/
theorem Rows.clear (h : Rows s seqs rows last) {epoch i : ℕ} {key : OpKey} {stat : ExecStat K}
    (hst : s.stage 0 = .clear epoch i key stat) :
    Rows { s.goto 0 (.clear epoch (i + 1) key stat) with
      slots := Function.update s.slots i { s.slots i with valid := false } } seqs rows last := by
  obtain ⟨hhom, hsorted, hle, hdone, hfresh, -, -, -, -, -⟩ := h
  rw [hst] at hfresh
  refine ⟨hhom, hsorted, hle, hdone, ?_, ?_, Nat.zero_le _, nofun, nofun, nofun⟩
  · intro r hr hc hv
    simp only [State.goto, Function.update_self, Stage.clearedTo, decide_eq_true_eq] at hc
    by_cases hri : r = i
    · subst hri
      simp at hv
    · simp only [Function.update_of_ne hri] at hv
      exact hfresh r hr (decide_eq_true (by omega)) hv
  · intro r hr hp
    simp [State.goto, Stage.presentTo] at hp

section Taking

variable [FloorSemiring K] {fo : cfg.algo.Following cfg.planner}

/-- Only rank 0 takes slots. -/
theorem Advance.aggregated_ne (h : Advance s r s') (hroles : Roles s.stage) (hr : r ≠ 0) :
    s'.aggregated = s.aggregated ∧ s'.slots = s.slots := by
  have hrole := (hroles r).1
  cases h
  case aggregate hst hlen hagg =>
    rw [hst] at hrole
    exact absurd (hrole rfl) hr
  case clear hst hi =>
    rw [hst] at hrole
    exact absurd (hrole rfl) hr
  all_goals exact ⟨rfl, rfl⟩

/-- The slot of a rank that has finished a callback has the stat of the last one. -/
theorem Queue.slot (hq : Queue s q done) (hpre : s.launched q <+: s.agreed)
    (hpos : 0 < s.finished q) (hw : s.writing q = false) :
    (registeredSeqs cfg s.agreed)[s.finished q - 1]? = some (s.slots q).keySeq ∧
      (s.slots q).statSeq = (s.slots q).keySeq := by
  rw [← hq.length] at hpos ⊢
  have hget : done[done.length - 1]? = some done[done.length - 1] :=
    List.getElem?_eq_getElem (by omega)
  have hlast : done.getLast? = some done[done.length - 1] := by
    rw [List.getLast?_eq_getElem?, hget]
  obtain ⟨hkey, hstat⟩ := hq.last hw _ hlast
  refine ⟨?_, hstat.trans hkey.symm⟩
  have hdone : done <+: registeredSeqs cfg s.agreed := by
    have hsplit : registeredSeqs cfg (s.launched q) <+: registeredSeqs cfg s.agreed :=
      registeredSeqs_initial hpre
    rw [hq.split, List.append_assoc] at hsplit
    exact (List.prefix_append _ _).trans hsplit
  rw [getElem?_of_initial hdone hget, hkey]

theorem Agrees.launched_prefix (ha : Agrees fo s) (hq : q < cfg.nranks) :
    s.launched q <+: s.agreed := by
  have hplans := ha.plans_prefix hq
  unfold State.launched
  cases s.stage q
  case launching plan => exact (List.dropLast_prefix _).trans hplans
  all_goals exact hplans

theorem Advance.agreed (h : Advance s r s') : s.agreed <+: s'.agreed := by
  unfold State.agreed
  rcases h.announced with hsame | ⟨e, happ⟩
  · rw [hsame]
  · rw [happ]
    exact Replica.plans_prefix cfg _ _

/-- **A thread keeps the rows.** -/
theorem Rows.advance {raced : Option (OpKey × ExecStat K)}
    (h : Rows s (registeredSeqs cfg s.agreed) rows last) (hadv : Advance s r s')
    (ha : Agrees fo s) (hqueue : ∀ q < cfg.nranks, ∃ done, Queue s q done)
    (hguard : aligned s (.thread r raced) = true) :
    ∃ rows' last', Rows s' (registeredSeqs cfg s.agreed) rows' last' := by
  obtain ⟨hloads, hrunning⟩ := hadv.callbacks
  have hfin : s'.finished = s.finished := by
    funext q
    unfold State.finished
    rw [hloads, hrunning]
  by_cases hr : r = 0
  · subst hr
    cases hadv
    case gather epoch seen raced' hst hlen =>
      obtain ⟨done, hq⟩ := hqueue _ hlen
      refine ⟨rows, last, h.gather raced' hst hlen ?_ fun hpos hw => ?_⟩
      · simpa [aligned, hst] using hguard
      · exact hq.slot (ha.launched_prefix hlen) hpos hw
    case aggregate epoch seen agg hst hlen hagg => exact h.aggregate hst hlen
    case clear epoch i key stat hst hi => exact ⟨rows, last, h.clear hst⟩
    case present epoch i hst hi hc =>
      refine ⟨rows, last, h.goto rfl hfin rfl ?_ ?_ ?_⟩
      · intro q hq _
        rw [hst]
        rfl
      · intro q hq hp
        simp only [State.goto, Function.update_self, Stage.presentTo, decide_eq_true_eq] at hp
        rcases Nat.lt_succ_iff_lt_or_eq.1 hp with hlt | rfl
        · exact .inl (by rw [hst]; exact decide_eq_true hlt)
        · simp only [StatSlot.current, Bool.and_eq_true] at hc
          exact .inr hc.1
      · exact .inr (by simp [State.goto, Stage.seen])
    case allPresent epoch i hst hi =>
      refine ⟨rows, last, h.goto rfl hfin rfl ?_ ?_ ?_⟩
      · intro q hq _
        rw [hst]
        rfl
      · intro q hq _
        exact .inl (by rw [hst]; exact decide_eq_true (by omega))
      · exact .inr (by simp [State.goto, Stage.seen])
    case cleared epoch i key stat hst hi =>
      refine ⟨rows, last, h.goto rfl hfin rfl ?_ ?_ ?_⟩
      · intro q hq _
        rw [hst]
        exact decide_eq_true (by omega)
      · intro q hq hp
        simp [State.goto, Stage.presentTo] at hp
      · exact .inr (by simp [State.goto, Stage.seen])
    case arrive m hst =>
      refine ⟨rows, last, h.goto rfl hfin rfl ?_ ?_ ?_⟩
      · intro q hq _
        rw [hst]
        rfl
      · intro q hq hp
        simp only [State.goto, Function.update_self] at hp
        split at hp <;> cases hp
      · apply Or.inr
        simp only [State.goto, Function.update_self]
        split <;> rfl
    all_goals
      rename s.stage 0 = _ => hst
      refine ⟨rows, last, h.goto rfl hfin rfl ?_ ?_ ?_⟩
      · intro q hq _
        rw [hst]
        rfl
      · intro q hq hp
        simp [State.goto, Stage.presentTo] at hp
      · exact .inr (by simp [State.goto, Stage.seen])
  · obtain ⟨hagg, hslots⟩ := hadv.aggregated_ne ha.roles hr
    have hstage := hadv.stage_ne (Ne.symm hr)
    refine ⟨rows, last, h.goto hagg hfin hslots ?_ ?_ ?_⟩
    · intro q hq hc
      rw [hstage] at hc
      exact hc
    · intro q hq hp
      rw [hstage] at hp
      exact .inl hp
    · exact .inl (by rw [hstage])

end Taking

/-! ## The callbacks keep the rows -/

theorem Rows.startCallback {i : ℕ} {fastTime pcieTime : K} (h : Rows s seqs rows last)
    (hguard : aligned s (.startCallback r i fastTime pcieTime) = true)
    (hstep : startCallback s r i fastTime pcieTime = some s') : Rows s' seqs rows last := by
  obtain ⟨p, -, rfl⟩ := Option.map_eq_some_iff.1 hstep
  simp only [aligned, Bool.and_eq_true, List.isEmpty_iff] at hguard
  have hidle := hguard.2
  refine h.goto rfl ?_ rfl (fun _ _ => id) (fun _ _ => .inl) (.inl rfl)
  funext q
  unfold State.finished
  by_cases hqr : q = r
  · subst hqr
    simp [hidle]
  · simp [Function.update_of_ne hqr]

/-- A callback changes its rank's slot; a flag that it sets is one of a callback more. -/
theorem Rows.stored (h : Rows s seqs rows last) {slot : StatSlot K} {cs : List (Running K)}
    (hle : s.finished r ≤ s.loads r - cs.length)
    (hvalid : slot.valid = (s.slots r).valid ∨
      slot.valid = true ∧ s.finished r < s.loads r - cs.length) :
    Rows ((s.setSlot r slot).setRunning r cs) seqs rows last := by
  have hfinished : ∀ q, s.finished q ≤ ((s.setSlot r slot).setRunning r cs).finished q := by
    intro q
    unfold State.finished
    by_cases hqr : q = r
    · subst hqr
      simpa [State.setRunning, State.setSlot, State.finished] using hle
    · simp [State.setRunning, State.setSlot, Function.update_of_ne hqr]
  have hother : ∀ {q}, q ≠ r →
      ((s.setSlot r slot).setRunning r cs).slots q = s.slots q :=
    fun hqr => Function.update_of_ne hqr _ _
  refine ⟨h.homogeneous, h.sorted, h.le_last, fun q hq => (h.last_le q hq).trans (hfinished q),
    ?_, ?_, h.length_seen, h.whole, h.same,
    fun x hx q hq => (h.seen_le x hx q hq).trans (hfinished q)⟩
  · intro q hq hc hv
    by_cases hqr : q = r
    · subst hqr
      rw [store_slot] at hv
      rcases hvalid with hsame | ⟨-, hlt⟩
      · rw [hsame] at hv
        exact Nat.lt_of_lt_of_le (h.fresh q hq hc hv) (hfinished q)
      · refine Nat.lt_of_le_of_lt (h.last_le q hq) ?_
        simpa [State.setRunning, State.setSlot, State.finished] using hlt
    · rw [hother hqr] at hv
      exact Nat.lt_of_lt_of_le (h.fresh q hq hc hv) (hfinished q)
  · intro q hq hp
    have hold := h.present q hq hp
    by_cases hqr : q = r
    · subst hqr
      rw [store_slot]
      rcases hvalid with hsame | ⟨htrue, -⟩
      · rw [hsame]
        exact hold
      · exact htrue
    · rw [hother hqr]
      exact hold

/-- **A store of a callback keeps the rows:** a slot gets its flag when one callback more is
finished. -/
theorem Rows.callbackStep {i : ℕ} (h : Rows s seqs rows last) (hq : Queue s r done)
    (hstep : callbackStep s r i = some s') : Rows s' seqs rows last := by
  obtain ⟨⟨seq, stat, stage⟩, hc, rfl⟩ := Option.map_eq_some_iff.1 hstep
  have hlt := (List.getElem?_eq_some_iff.1 hc).1
  have hloads := hq.loads
  cases stage with
  | loaded epoch => exact h.stored (by rw [List.length_set]; exact le_refl _) (.inl rfl)
  | stamped => exact h.stored (by rw [List.length_set]; exact le_refl _) (.inl rfl)
  | keyed => exact h.stored (by rw [List.length_set]; exact le_refl _) (.inl rfl)
  | filled =>
    have hmore : s.finished r < s.loads r - ((s.running r).eraseIdx i).length := by
      rw [List.length_eraseIdx_of_lt hlt]
      unfold State.finished
      omega
    exact h.stored hmore.le (.inr ⟨rfl, hmore⟩)

/-! ## Every aggregate -/

section Runs

variable [FloorSemiring K] {fo : cfg.algo.Following cfg.planner}

/-- What holds in every state of a run under the condition. -/
structure Ordered (fo : cfg.algo.Following cfg.planner) (s : State cfg) : Prop where
  agrees : Agrees fo s
  queue : ∀ r < cfg.nranks, ∃ done, Queue s r done
  rows : ∃ rows last, Rows s (registeredSeqs cfg s.agreed) rows last

theorem Ordered.step {l : Label K} (ho : Ordered fo s) (hguard : aligned s l = true)
    (h : step s l = some s') : Ordered fo s' := by
  refine ⟨ho.agrees.step h, ?_, ?_⟩
  all_goals
    obtain ⟨ha, hqueue, rows, last, hrows⟩ := ho
    cases l <;> simp only [Feedback.step] at h <;> split at h <;> try cases h
  case refine_1.thread r raced hr =>
    intro q hq
    obtain ⟨done, hdone⟩ := hqueue q hq
    exact ⟨done, hdone.advance (threadStep_advance h) (fun _ => ha.launching_last hr) hguard⟩
  case refine_1.startCallback r i fastTime pcieTime hr =>
    intro q hq
    obtain ⟨done, hdone⟩ := hqueue q hq
    exact ⟨done, hdone.startCallback hguard h⟩
  case refine_1.callback r i hr =>
    intro q hq
    obtain ⟨done, hdone⟩ := hqueue q hq
    obtain ⟨done', hdone', -⟩ := hdone.callbackStep h
    exact ⟨done', hdone'⟩
  case refine_2.thread r raced hr =>
    have hadv := threadStep_advance h
    obtain ⟨rows', last', hrows'⟩ := hrows.advance hadv ha hqueue hguard
    exact ⟨rows', last', hrows'.mono (registeredSeqs_initial hadv.agreed)⟩
  case refine_2.startCallback r i fastTime pcieTime hr =>
    refine ⟨rows, last, ?_⟩
    have hsame : s'.agreed = s.agreed := by
      obtain ⟨p, -, rfl⟩ := Option.map_eq_some_iff.1 h
      rfl
    rw [hsame]
    exact hrows.startCallback hguard h
  case refine_2.callback r i hr =>
    refine ⟨rows, last, ?_⟩
    have hsame : s'.agreed = s.agreed := by
      obtain ⟨⟨seq, stat, stage⟩, -, rfl⟩ := Option.map_eq_some_iff.1 h
      cases stage <;> rfl
    obtain ⟨done, hdone⟩ := hqueue r hr
    rw [hsame]
    exact hrows.callbackStep hdone h

theorem Ordered.attached (fo : cfg.algo.Following cfg.planner) (slots : ℕ → StatSlot K)
    (entries : Entries K) (version : ℕ) : Ordered fo (attached cfg slots entries version) := by
  refine ⟨.attached _ _ _ _, ?_, [], 0, ?_⟩
  · intro r _
    refine ⟨[], rfl, rfl, Nat.zero_le _, Nat.zero_le _, ?_, ?_, ?_⟩
    · intro _ seq hseq
      cases hseq
    · intro c hc
      cases hc
    · intro c hc
      cases hc
  · refine ⟨.nil, .nil, ?_, fun _ _ => Nat.zero_le _, ?_, ?_, Nat.zero_le _, ?_, ?_, ?_⟩
    · intro p hp
      cases hp
    · intro r _ _ hv
      cases hv
    · intro r _ hp
      cases hp
    all_goals
      intro x hx
      cases hx

theorem exists_related {α β : Type} {R : α → β → Prop} {l : List α} {m : List β}
    (h : List.Forall₂ R l m) {y : β} (hy : y ∈ m) : ∃ x, R x y := by
  induction h with
  | nil => cases hy
  | cons hxy _ ih =>
    rcases List.mem_cons.1 hy with rfl | hy
    · exact ⟨_, hxy⟩
    · exact ih hy

/-- **Every aggregate is of one collective.**  In every run whose steps meet the condition,
each aggregate combines one whole stat of every rank, all of one collective, and each of a later
collective than the aggregates before. -/
theorem aggregates_homogeneous [IsStrictOrderedRing K] (cfg : Config K) (slots : ℕ → StatSlot K)
    (entries : Entries K) (version : ℕ) {labels : List (Label K)} {s : State cfg}
    (hrun : (machine cfg).runFrom aligned (Feedback.attached cfg slots entries version) labels =
      some s) :
    ∃ seqs : List ℕ, List.Forall₂ (Homogeneous cfg.nranks) s.aggregated seqs ∧
      seqs.Pairwise (· < ·) := by
  have h := (machine cfg).invariant (I := Ordered (cfg.algorithm.following cfg.planner))
    (fun s l s' hs hguard hstep => hs.step hguard hstep) (.attached _ _ _ _) hrun
  obtain ⟨rows, last, hrows⟩ := h.rows
  refine ⟨rows.map Prod.snd, ?_, ?_⟩
  · rw [List.forall₂_map_right_iff]
    exact hrows.homogeneous.imp fun _ _ hp => hp.1
  · -- later ordinals are those of later collectives
    rw [List.pairwise_map]
    refine hrows.sorted.imp_of_mem ?_
    intro p p' hp hp' hlt
    have hget : ∀ x ∈ rows, 0 < x.1 ∧ (registeredSeqs cfg s.agreed)[x.1 - 1]? = some x.2 := by
      intro x hx
      obtain ⟨row, -, hrow⟩ := exists_related hrows.homogeneous hx
      exact hrow
    obtain ⟨hpos, hx⟩ := hget p hp
    obtain ⟨hpos', hx'⟩ := hget p' hp'
    obtain ⟨hi, hseq⟩ := List.getElem?_eq_some_iff.1 hx
    obtain ⟨hi', hseq'⟩ := List.getElem?_eq_some_iff.1 hx'
    have hsorted : (registeredSeqs cfg s.agreed).Pairwise (· < ·) := registeredSeqs_sorted _
    rw [← hseq, ← hseq']
    exact List.pairwise_iff_getElem.1 hsorted _ _ hi hi' (by omega)

end Runs

/-! ## One callback more -/

/-- What is shown of an aggregate: the collectives of its keys and of its stats. -/
def rowSeqs (row : List Source) : List (ℕ × ℕ) := row.map fun x => (x.keySeq, x.statSeq)

/-- One split collective, a callback on each rank, and rank 0 aggregates. -/
theorem aggregates_homogeneous_pair : ∃ s,
    (machine twoRanks).runFrom aligned twoRanksAttached
      (quietRound ++ callbackRun 0 ++ callbackRun 1 ++ aggregatingRound) = some s ∧
      s.aggregated.map rowSeqs = [[(0, 0), (0, 0)]] ∧
      ∃ seqs : List ℕ, List.Forall₂ (Homogeneous 2) s.aggregated seqs ∧
        seqs.Pairwise (· < ·) := by
  have hobs : ((machine twoRanks).runFrom aligned twoRanksAttached
      (quietRound ++ callbackRun 0 ++ callbackRun 1 ++ aggregatingRound)).map
      (fun s => s.aggregated.map rowSeqs) = some [[(0, 0), (0, 0)]] := by decide +kernel
  obtain ⟨s, hrun, hrows⟩ := Option.map_eq_some_iff.1 hobs
  exact ⟨s, hrun, hrows, aggregates_homogeneous twoRanks (fun _ => emptySlot) [] 0 hrun⟩

/-- Two split collectives; rank 0 has run its first callback and rank 1 both, and rank 0
aggregates. -/
def oneMore : List (Label ℚ) :=
  quietRound ++ quietRound ++ callbackRun 0 ++ callbackRun 1 ++ callbackRun 1 ++ aggregatingRound

/-- **Stats of two collectives are combined.** -/
theorem aggregate_mixes : ¬ ∀ labels s,
    (machine twoRanks).runFrom Machine.anyStep twoRanksAttached labels = some s →
      ∃ seqs : List ℕ, List.Forall₂ (Homogeneous 2) s.aggregated seqs ∧
        seqs.Pairwise (· < ·) := by
  intro hall
  have hobs : ((machine twoRanks).runFrom Machine.anyStep twoRanksAttached oneMore).map
      (fun s => s.aggregated.map rowSeqs) = some [[(0, 0), (1, 1)]] := by decide +kernel
  obtain ⟨s, hrun, hrows⟩ := Option.map_eq_some_iff.1 hobs
  obtain ⟨seqs, hhom, -⟩ := hall _ s hrun
  obtain ⟨row, hrow, hseqs⟩ := List.map_eq_singleton_iff.1 hrows
  rw [hrow] at hhom
  obtain ⟨seq, -, ⟨-, hsame⟩, -, -⟩ := List.forall₂_cons_left_iff.1 hhom
  have hmem : ∀ p ∈ rowSeqs row, p.1 = seq := by
    intro p hp
    obtain ⟨x, hx, rfl⟩ := List.mem_map.1 hp
    exact (hsame x hx).2.1
  rw [hseqs] at hmem
  have h0 : 0 = seq := hmem (0, 0) (by simp)
  have h1 : 1 = seq := hmem (1, 1) (by simp)
  omega

end Feedback
end Orchestrator
end HyLink
