import HyLink.Executor.H2HPools
import Mathlib.Algebra.BigOperators.Group.Finset.Basic

/-!
# The threads of the host engine come to rest

Between two submissions the workers and the submitters of the host engine can take so many steps and
no more; and where none of them can go on, all submissions are queued and all workers are blocked or
have gone.

* `Engine.budget` — how many steps are left, at most.
* `budget_step` — each step of a thread uses one up.
* `AtRest` — no thread can go on.
* `AtRest.worker`, `AtRest.submitter` — where the threads are then.
-/

namespace HyLink
namespace Executor
namespace HostPools

open Theory

variable {cfg : Config} {s s' : Engine} {e n w r : ℕ} {p : Pool Item} {x x' : Submitter}

/-- What the workers and the submitters do on their own. -/
def Label.ofThreads : Label → Bool
  | .spawn _ | .push _ | .publish _ | .notify _ _ | .move _ _ _ | .execute _ _ | .complete _ _ =>
    true
  | _ => false

/-! ## The steps that are left -/

/-- The steps that a submission brings, its workers' steps included. -/
def Submitter.budget (workers : ℕ) : Submitter → ℕ
  | .idle => 0
  | .admitted work => 4013 * work.size + 4006 * workers + 6
  | .ready work => 4013 * work.size + 2 * workers + 5
  | .pushed _ k => 3 * k + 2 * workers + 4
  | .notifying _ k => 3 * k + 2 * workers + 3

def Engine.budget (cfg : Config) (s : Engine) : ℕ :=
  ∑ n ∈ Finset.range cfg.nodes, (s.pools n).budget +
    (s.submitters.map (Submitter.budget cfg.workers)).sum

/-- A pool's steps are counted once. -/
theorem budget_setPool (hn : n < cfg.nodes) :
    (s.setPool n p).budget cfg + (s.pools n).budget = s.budget cfg + p.budget := by
  have hmem := Finset.mem_range.2 hn
  have hothers : ∑ m ∈ (Finset.range cfg.nodes).erase n, ((s.setPool n p).pools m).budget =
      ∑ m ∈ (Finset.range cfg.nodes).erase n, (s.pools m).budget :=
    Finset.sum_congr rfl fun m hm => by rw [setPool_ne (Finset.ne_of_mem_erase hm)]
  have hnew := Finset.add_sum_erase _ (fun m => ((s.setPool n p).pools m).budget) hmem
  have hold := Finset.add_sum_erase _ (fun m => (s.pools m).budget) hmem
  simp only [setPool_self] at hnew
  have hsubmitters : (s.setPool n p).submitters = s.submitters := rfl
  unfold Engine.budget
  rw [hsubmitters]
  omega

theorem budget_setSubmitter (hx : s.submitters[e]? = some x) :
    (s.setSubmitter e x').budget cfg + x.budget cfg.workers =
      s.budget cfg + x'.budget cfg.workers := by
  have hsum : ((s.submitters.set e x').map (Submitter.budget cfg.workers)).sum + _ = _ + _ :=
    sum_map_set_add (Submitter.budget cfg.workers) hx
  have hpools : (s.setSubmitter e x').pools = s.pools := rfl
  have hsubmitters : (s.setSubmitter e x').submitters = s.submitters.set e x' := rfl
  unfold Engine.budget
  rw [hpools, hsubmitters]
  omega

theorem budget_congr (hpools : s'.pools = s.pools) (hsubmitters : s'.submitters = s.submitters) :
    s'.budget cfg = s.budget cfg := by
  unfold Engine.budget
  rw [hpools, hsubmitters]

theorem node_clamp (cfg : Config) (dst : ℤ) :
    (max 0 (min dst (cfg.nodes - 1))).toNat < cfg.nodes := by
  have hpos := cfg.nodes_pos
  omega

/-- **A worker goes on.** -/
theorem Within.worker (h : Within cfg s) {a : Worker Item}
    (hw : (s.pools n).workers[w]? = some a)
    (hlength : p.workers.length = (s.pools n).workers.length) :
    Within cfg (s.setPool n p) ∧ (p.budget < (s.pools n).budget →
      (s.setPool n p).budget cfg < s.budget cfg) := by
  refine ⟨h.setPool (h.lt hw) ((Nat.le_of_eq hlength).trans (h.size n)), fun hlt => ?_⟩
  have hsum := @budget_setPool cfg s n p (h.lt hw)
  omega

/-- **A submission goes on**, and changes its pool. -/
theorem Within.submission (h : Within cfg s) (x' : Submitter) (p : Pool Item)
    (hx : s.submitters[e]? = some x)
    (hn : x.node = some n) (hnode : ∀ m, x'.node = some m → m = n)
    (hworkers : p.workers.length ≤ cfg.workers)
    (hlt : p.budget + x'.budget cfg.workers < (s.pools n).budget + x.budget cfg.workers) :
    Within cfg ((s.setPool n p).setSubmitter e x') ∧
      ((s.setPool n p).setSubmitter e x').budget cfg < s.budget cfg := by
  have hpool := h.node x (List.mem_of_getElem? hx) n hn
  have hwithin := h.setPool hpool hworkers
  refine ⟨hwithin.setSubmitter e fun m hm => hnode m hm ▸ hpool, ?_⟩
  have hset : ((s.setPool n p).setSubmitter e x').budget cfg + x.budget cfg.workers =
      (s.setPool n p).budget cfg + x'.budget cfg.workers := budget_setSubmitter hx
  have hsum := @budget_setPool cfg s n p hpool
  omega

theorem budget_notified (W k : ℕ) (n : ℕ) :
    (if k ≤ 1 then Submitter.idle else .notifying n (k - 1)).budget W + 3 ≤
      (Submitter.notifying n k).budget W := by
  split
  · simp only [Submitter.budget]
    omega
  · simp only [Submitter.budget]
    omega

theorem node_notified {k m : ℕ}
    (hm : (if k ≤ 1 then Submitter.idle else .notifying n (k - 1)).node = some m) : m = n := by
  split at hm
  · cases hm
  · cases hm
    rfl

/-- **Each step of a thread uses one of its steps up.** -/
theorem budget_step (h : Within cfg s) {l : Label} (hstep : step cfg s l = some s') :
    Within cfg s' ∧ (l.ofThreads = true → s'.budget cfg < s.budget cfg) := by
  cases Step.of_step hstep with
  | started | refuse => exact ⟨h, fun h => by cases h⟩
  | start | shutdown | notified | close => exact ⟨h.congr rfl rfl, fun h => by cases h⟩
  | @submit e dst work =>
    refine ⟨h.setSubmitter e fun n hn => ?_, fun h => by cases h⟩
    cases hn
    exact node_clamp cfg dst
  | @spawn e work hx =>
    have hsize := h.size work.node
    refine (h.submission _ _ hx rfl (fun m hm => by cases hm; rfl) ?_ ?_).imp_right
      fun hlt _ => hlt
    · split
      · exact hsize
      · exact Nat.le_of_eq List.length_replicate
    · split
      · simp only [Submitter.budget]
        omega
      · have hsum : ((List.replicate cfg.workers (Worker.looking 0 : Worker Item)).map
            Worker.budget).sum = cfg.workers * 4004 := by
          rw [List.map_replicate, List.sum_replicate]
          rfl
        simp only [Submitter.budget, Pool.budget, hsum]
        omega
  | @push e work hx =>
    have hboth := h.submission (.pushed work.node work.size)
      { s.pools work.node with
        queue := (s.pools work.node).queue ++ items s.requests.length work.size }
      hx rfl (fun m hm => by cases hm; rfl) (h.size work.node) (by
        simp only [Submitter.budget, Pool.budget, items, List.length_append, List.length_map,
          List.length_range]
        omega)
    exact ⟨hboth.1.congr rfl rfl, fun _ => (Nat.le_of_eq (budget_congr rfl rfl)).trans_lt hboth.2⟩
  | @publish e n k hx =>
    refine (h.submission (.notifying n k) { s.pools n with hint := (s.pools n).hint + k } hx rfl
      (fun m hm => by cases hm; rfl) (h.size n) ?_).imp_right fun hlt _ => hlt
    simp only [Submitter.budget, Pool.budget]
    omega
  | @notifyPool e n k woken hx =>
    have hall := (s.pools n).budget_notifyAll
    have hsize := h.size n
    refine (h.submission _ _ hx rfl (fun m hm => by cases hm) ?_ ?_).imp_right fun hlt _ => hlt
    · simpa [Pool.notifyAll] using hsize
    · simp only [Submitter.budget]
      omega
  | @notifyNone e n k hx =>
    have hafter := budget_notified cfg.workers k n
    refine ⟨h.setSubmitter e fun m hm => ?_, fun _ => ?_⟩
    · rw [node_notified hm]
      exact h.node _ (List.mem_of_getElem? hx) n rfl
    · have hset : (s.setSubmitter e (if k ≤ 1 then .idle else .notifying n (k - 1))).budget cfg +
          (Submitter.notifying n k).budget cfg.workers = s.budget cfg +
            (if k ≤ 1 then Submitter.idle else .notifying n (k - 1)).budget cfg.workers :=
        budget_setSubmitter hx
      omega
  | @notifyOne e n k w hx hw =>
    have hafter := budget_notified cfg.workers k n
    have hgoto := Pool.budget_goto .locking hw
    have hlocking : (Worker.locking : Worker Item).budget = 2 := rfl
    have hboth := h.submission (if k ≤ 1 then .idle else .notifying n (k - 1))
      ((s.pools n).goto w .locking) hx rfl (fun m hm => node_notified hm)
      ((Nat.le_of_eq List.length_set).trans (h.size n)) (by omega)
    exact hboth.imp_right fun hlt _ => hlt
  | move hmove =>
    obtain ⟨a, hw, _⟩ := Pool.move_cases hmove
    exact (h.worker hw (Pool.length_move hmove)).imp_right fun hlt _ =>
      hlt (Pool.budget_move hmove)
  | @execute n w y hw =>
    have hboth := h.worker (p := (s.pools n).goto w (.copied y)) hw List.length_set
    have hgoto := Pool.budget_goto (.copied y) hw
    refine ⟨hboth.1.congr rfl rfl, fun _ =>
      (Nat.le_of_eq (budget_congr rfl rfl)).trans_lt (hboth.2 ?_)⟩
    simp only [Worker.budget] at hgoto
    omega
  | @complete n w y req hw =>
    obtain ⟨_, _, _, hpools, hsubmitters, _⟩ :=
      finish_frame cfg (s.setPool n ((s.pools n).goto w (.looking 0))) y.request req
    have hboth := h.worker (p := (s.pools n).goto w (.looking 0)) hw List.length_set
    have hgoto := Pool.budget_goto (.looking 0) hw
    refine ⟨hboth.1.congr hpools hsubmitters, fun _ =>
      (Nat.le_of_eq (budget_congr hpools hsubmitters)).trans_lt (hboth.2 ?_)⟩
    simp only [Worker.budget] at hgoto
    omega
  | @spurious n w hw =>
    exact ⟨h.setPool (h.lt hw) ((Nat.le_of_eq List.length_set).trans (h.size n)),
      fun h => by cases h⟩
  | @poll owner seq max =>
    obtain ⟨_, _, _, hpools, hsubmitters, _⟩ := poll_frame s owner seq max
    exact ⟨h.congr hpools hsubmitters, fun h => by cases h⟩
  | @notifyAll k _ hk =>
    exact ⟨(h.setPool hk ((Nat.le_of_eq (List.length_map _)).trans (h.size k))).congr rfl rfl,
      fun h => by cases h⟩
  | join _ hk => exact ⟨(h.setPool hk (Nat.zero_le _)).congr rfl rfl, fun h => by cases h⟩

/-! ## No thread can go on -/

/-- No worker and no submitter can take a step. -/
def AtRest (cfg : Config) (s : Engine) : Prop :=
  ∀ l : Label, l.ofThreads = true → step cfg s l = none

variable {a : Worker Item}

theorem AtRest.move (h : AtRest cfg s) (l : Move) :
    (s.pools n).move cfg.backend s.stop w l = none :=
  Option.map_eq_none_iff.1 (h (.move n w l) rfl)

/-- Nobody holds a pool's mutex. -/
theorem AtRest.free (h : AtRest cfg s) : (s.pools n).free = true := by
  refine List.all_eq_true.2 fun a ha => ?_
  obtain ⟨w, hw⟩ := List.getElem?_of_mem ha
  cases a with
  | deciding =>
    have hblock := h.move (n := n) (w := w) .block
    simp [Pool.move, hw] at hblock
  | looking | trying | locking | parked | holding | copied | exited => rfl

/-- **A worker is blocked or has gone.** -/
theorem AtRest.worker (h : AtRest cfg s) (hb : Books s) (ha : a ∈ (s.pools n).workers) :
    a = .parked ∨ a = .exited := by
  obtain ⟨w, hw⟩ := List.getElem?_of_mem ha
  cases hitem : a.item with
  | none =>
    by_contra hne
    obtain ⟨hparked, hexited⟩ := not_or.1 hne
    obtain ⟨l, hl⟩ := Pool.exists_move cfg.backend s.stop hw hitem hparked hexited (.inl h.free)
    rw [h.move l] at hl
    cases hl
  | some y =>
    cases a with
    | holding z =>
      have hexecute := h (.execute n w) rfl
      simp [step, hw] at hexecute
    | copied z =>
      -- the submission of an item is there
      obtain ⟨req, hreq, _⟩ := hb.here n z (pending_of_item hw rfl)
      have hcomplete := h (.complete n w) rfl
      simp [step, hw, hreq] at hcomplete
    | looking | trying | locking | deciding | parked | exited => cases hitem

/-- **A submission is done with.** -/
theorem AtRest.submitter (h : AtRest cfg s) (hx : x ∈ s.submitters) : x = .idle := by
  obtain ⟨e, he⟩ := List.getElem?_of_mem hx
  cases x with
  | idle => rfl
  | admitted work =>
    have hspawn := h (.spawn e) rfl
    simp [step, he] at hspawn
  | ready work =>
    have hpush := h (.push e) rfl
    simp [step, he, h.free] at hpush
  | pushed n k =>
    have hpublish := h (.publish e) rfl
    simp [step, he] at hpublish
  | notifying n k =>
    cases hbackend : cfg.backend with
    | cuda =>
      have hnotify := h (.notify e none) rfl
      simp [step, he, hbackend] at hnotify
    | ascend =>
      by_cases hparked : .parked ∈ (s.pools n).workers
      · obtain ⟨w, hw⟩ := List.getElem?_of_mem hparked
        have hnotify := h (.notify e (some w)) rfl
        simp [step, he, hbackend, hw] at hnotify
      · have hnotify := h (.notify e none) rfl
        simp [step, he, hbackend, hparked] at hnotify

/-- **No item is left**, as long as the engine is running. -/
theorem AtRest.queue (h : AtRest cfg s) (hs : Staff cfg s) (hb : Books s)
    (hrun : s.stage = .running) : (s.pools n).queue = [] := by
  by_contra hne
  rcases (hs.pools n).served hrun hne with ⟨a, ha, hparked⟩ | ⟨x, hx, howes⟩
  · have hexited := (h.worker hb ha).resolve_left hparked
    exact hs.stop.1 ((hs.pools n).exited (hexited ▸ ha)) hrun
  · rw [h.submitter hx] at howes
    cases howes

theorem AtRest.pending (h : AtRest cfg s) (hs : Staff cfg s) (hb : Books s)
    (hrun : s.stage = .running) (f : Item → Bool) : (s.pools n).pending f = 0 := by
  unfold Pool.pending
  rw [h.queue hs hb hrun, List.countP_nil, Nat.zero_add]
  refine List.countP_eq_zero.2 fun a ha hf => ?_
  rcases h.worker hb ha with rfl | rfl <;> cases hf

/-- **All workers of a notified pool have gone.** -/
theorem AtRest.gone (h : AtRest cfg s) (hs : Staff cfg s) (hb : Books s) (hn : s.Notified cfg n) :
    ∀ a ∈ (s.pools n).workers, a = .exited := by
  intro a ha
  refine (h.worker hb ha).resolve_left ?_
  rintro rfl
  exact ((hs.pools n).woken hn).1 ha

/-- Where all submitters are idle and all workers blocked or gone, nobody can go on. -/
theorem AtRest.of_idle (hsubmitters : ∀ x ∈ s.submitters, x = .idle)
    (hworkers : ∀ n, ∀ a ∈ (s.pools n).workers, a = .parked ∨ a = .exited) : AtRest cfg s := by
  have hidle : ∀ {e : ℕ} {x : Submitter}, s.submitters[e]? = some x → x = .idle :=
    fun he => hsubmitters _ (List.mem_of_getElem? he)
  have hworker : ∀ {n w : ℕ} {a : Worker Item}, (s.pools n).workers[w]? = some a →
      a = .parked ∨ a = .exited :=
    fun hw => hworkers _ _ (List.mem_of_getElem? hw)
  intro l hl
  cases hstep : step cfg s l with
  | none => rfl
  | some s' =>
    cases Step.of_step hstep with
    | spawn hx | push hx | publish hx | notifyPool hx | notifyNone hx | notifyOne hx =>
      cases hidle hx
    | @move n w l p hmove =>
      obtain ⟨a, hw, _⟩ := Pool.move_cases hmove
      rcases hworker hw with rfl | rfl <;> cases l <;> simp [Pool.move, hw] at hmove
    | execute hw | complete hw => rcases hworker hw with hw | hw <;> cases hw
    | started | start | submit | refuse | spurious | poll | shutdown | notifyAll | notified | join
    | close => cases hl

end HostPools
end Executor
end HyLink
