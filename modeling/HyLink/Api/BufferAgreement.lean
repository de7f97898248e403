import HyLink.Api.RegisteredBuffers
import HyLink.Theory.Machine

/-!
# Each access goes to the buffer of its call

What a rank does between two registrations: the host thread up to the submission of the graph, the
worker of the small messages, and the copies of what they have bound.

* `Inv.leave` — out of the barrier every rank has begun the call.
* `Inv.looked` — what an orderly lookup finds.
* `Inv.move` — what a rank does by itself, one case for each label.
* `buffer_agreement` — every access goes to the buffer that the peer registered for the same call.
-/

namespace HyLink
namespace Api
namespace Binding

open Function (update)
open Theory

variable {C : Config} {s s' : State} {k k' : Rank} {r q : ℕ} {key : ℕ × Kind}

/-- A rank that looks up nothing. -/
theorem Moved.of_same {calls : ℕ → ℕ} (h : RankOk C calls r k) (hcalls : k'.calls = k.calls)
    (hlocal : k'.localIpc = k.localIpc) (he : k'.remoteIpc = k.remoteIpc)
    (horder : Order C calls r k') (hheld : ∀ x ∈ k'.held, x ∈ k.held)
    (hawaits : ∀ n q kind, k'.awaits C r n q kind = true → k.awaits C r n q kind = true) :
    Moved C calls r k k' [] :=
  ⟨hcalls, hlocal, h.of_same he hheld horder, hawaits, nofun⟩

/-- Access through a pointer that the rank holds. -/
theorem RankOk.access {calls : ℕ → ℕ} (h : RankOk C calls r k) {n : ℕ} {p : Pointer}
    (hp : (n, p) ∈ k.held) :
    (k.access C r n p).place = some (C.buffer (k.access C r n p).peer (k.access C r n p).call
      (k.access C r n p).kind).place :=
  h.held (n, p) hp

section

variable {calls : ℕ → ℕ} {n : ℕ} {w : Work}

theorem Config.SameCalls.small (hsame : C.SameCalls) (hr : r < C.worldSize) :
    C.Small n ↔ C.path r n = .small := by
  unfold Config.Small
  rw [(hsame r 0 n hr (by omega)).1]

theorem Config.SameCalls.barred (hsame : C.SameCalls) (hr : r < C.worldSize) :
    C.Barred n ↔ C.path r n = .graph ∧ C.hasRemoteD2d r n = true := by
  unfold Config.Barred
  rw [(hsame r 0 n hr (by omega)).1, (hsame r 0 n hr (by omega)).2]

/-! ### The host thread -/

theorem RankOk.submitSmall (h : RankOk C calls r k) (hsame : C.SameCalls) (hr : r < C.worldSize)
    (hhost : k.host = .registered n) (hpath : C.path r n = .small) :
    Moved C calls r k
      { k with host := .outside, workSeq := k.workSeq + 1,
               queue := k.queue ++ [⟨n, k.workSeq + 1⟩] } [] := by
  have hsmall := (hsame.small hr).2 hpath
  have horder := h.order.host
  rw [hhost] at horder
  obtain ⟨hcalls, hentered, hwork⟩ := horder
  have hnot : ¬ C.Barred n := by
    rintro ⟨hgraph, -⟩
    rw [show C.path 0 n = .small from hsmall] at hgraph
    cases hgraph
  refine .of_same h rfl rfl rfl ⟨h.order.entered_le, ⟨?_, ?_⟩, fun w hw => ?_, h.order.worker⟩
    (fun x hx => ?_) fun m q kind hawaits => ?_
  · show k.entered = Nat.count C.Barred k.calls
    rw [hcalls, Nat.count_succ, if_neg hnot, hentered]
    rfl
  · show k.workSeq + 1 = Nat.count C.Small k.calls
    rw [hcalls, Nat.count_succ, if_pos hsmall, hwork]
  · rcases List.mem_append.1 hw with hw | hw
    · exact h.order.queue w hw
    · rw [List.mem_singleton.1 hw]
      exact ⟨hsmall, by rw [hwork], by show n < k.calls; omega⟩
  · rw [mem_held] at hx ⊢
    rcases hx with ⟨_, _, hbad, -⟩ | hx
    · cases hbad
    · exact .inr hx
  · rw [Rank.awaits_iff] at hawaits ⊢
    rcases hawaits with hlater | hbad | ⟨hcond, hqueue | hworker⟩
    · exact .inl hlater
    · cases hbad
    · obtain ⟨w, hw, hcall⟩ := hqueue
      rcases List.mem_append.1 hw with hw | hw
      · exact .inr (.inr ⟨hcond, .inl ⟨w, hw, hcall⟩⟩)
      · -- the work that is submitted
        obtain rfl : n = m := by
          rw [List.mem_singleton.1 hw] at hcall
          exact hcall
        right
        left
        rw [hhost]
        obtain ⟨rfl, hneeded, hallowed⟩ := hcond
        simp [Host.awaits, Config.mayLook, hpath, hneeded, hallowed]
    · exact .inr (.inr ⟨hcond, .inr hworker⟩)

/-- The host thread goes on with the call, or is back; it holds the pointers it held. -/
theorem RankOk.goOn (h : RankOk C calls r k) (host : Host) (entered : ℕ)
    (graphs : List Launched) (hentered : entered ≤ Nat.count C.Barred k.calls)
    (horder : host.Order C calls r { k with host, entered, graphs })
    (hheld : ∀ x ∈ ({ k with host, entered, graphs } : Rank).held, x ∈ k.held)
    (hawaits : ∀ m q kind, host.awaits C r m q kind = true → k.host.awaits C r m q kind = true) :
    Moved C calls r k { k with host, entered, graphs } [] := by
  refine .of_same h rfl rfl rfl ⟨hentered, horder, h.order.queue, h.order.worker⟩ hheld ?_
  intro m q kind hlook
  rw [Rank.awaits_iff] at hlook ⊢
  rcases hlook with hlater | hhost | hsmall
  · exact .inl hlater
  · exact .inr (.inl (hawaits m q kind hhost))
  · exact .inr (.inr hsmall)

/-- Without pointers of its own, the host thread holds those that others hold. -/
theorem held_of_unbound {host : Host} {entered : ℕ}
    (hhost : ∀ m rest p ps, host ≠ .binding m rest (p :: ps)) {x : ℕ × Pointer}
    (hx : x ∈ ({ k with host, entered } : Rank).held) : x ∈ k.held := by
  rw [mem_held] at hx ⊢
  rcases hx with ⟨rest, bound, heq, hp⟩ | hx
  · cases bound with
    | nil => cases hp
    | cons p ps => exact absurd heq (hhost _ _ _ _)
  · exact .inr hx

theorem RankOk.fallBack (h : RankOk C calls r k) (hsame : C.SameCalls) (hr : r < C.worldSize)
    (hhost : k.host = .registered n) (hpath : C.path r n = .graph) :
    if C.hasRemoteD2d r n = true then
      Moved C calls r k { k with host := .waiting n, entered := k.entered + 1 } []
    else Moved C calls r k { k with host := .binding n (C.lookups r n) [] } [] := by
  have horder := h.order.host
  rw [hhost] at horder
  obtain ⟨hcalls, hentered, hwork⟩ := horder
  have hnot : ¬ C.Small n := by
    rw [hsame.small hr, hpath]
    exact nofun
  have hworks : k.workSeq = Nat.count C.Small (n + 1) := by
    rw [Nat.count_succ, if_neg hnot, hwork]
    rfl
  have hlook : ∀ m q kind, (decide (m = n) && C.mayLook r m q kind) = true →
      k.host.awaits C r m q kind = true := by
    intro m q kind hand
    rw [hhost]
    exact hand
  split
  · rename_i hremote
    have hbarred : C.Barred n := (hsame.barred hr).2 ⟨hpath, hremote⟩
    have hnext : k.entered + 1 = Nat.count C.Barred (n + 1) := by
      rw [Nat.count_succ, if_pos hbarred, hentered]
    refine h.goOn _ _ k.graphs (by rw [hnext, hcalls]) ⟨hcalls, hnext, hworks, hbarred⟩
      (fun x hx => held_of_unbound (fun _ _ _ _ heq => by cases heq) hx) hlook
  · rename_i hremote
    have hbarred : ¬ C.Barred n := by
      rw [hsame.barred hr]
      exact fun hb => hremote hb.2
    have hnext : k.entered = Nat.count C.Barred (n + 1) := by
      rw [Nat.count_succ, if_neg hbarred, hentered]
      rfl
    refine h.goOn _ k.entered k.graphs h.order.entered_le
      ⟨hcalls, hnext, hworks, fun _ hkey => hkey, fun hb => absurd hb hremote⟩
      (fun x hx => held_of_unbound ?_ hx) fun m q kind hand => hlook m q kind ?_
    · rintro _ _ _ _ heq
      cases heq
    · simp only [Host.awaits, Bool.and_eq_true, decide_eq_true_eq] at hand ⊢
      obtain ⟨rfl, hmem⟩ := hand
      simp [Config.mayLook, hpath, hmem]

/-- Out of the barrier every rank has begun the call. -/
theorem Inv.leave (h : Inv C s) (hsame : C.SameCalls) (hr : r < C.worldSize)
    (hhost : (s.rank r).host = .waiting n) (hopen : barrierOpen C s Rank.entered r = true) :
    Moved C s.calls r (s.rank r) { s.rank r with host := .binding n (C.lookups r n) [] } [] := by
  have hok := h.ranks r hr
  have horder := hok.order.host
  rw [hhost] at horder
  obtain ⟨hcalls, hentered, hwork, hbarred⟩ := horder
  have hbegun : ∀ q < C.worldSize, n < s.calls q := by
    intro q hq
    have hle : (s.rank r).entered ≤ (s.rank q).entered :=
      of_decide_eq_true (List.all_eq_true.1 hopen q (List.mem_range.2 hq))
    have hcount := (h.ranks q hq).order.entered_le
    rw [hentered, Nat.count_succ, if_pos hbarred] at hle
    refine Nat.lt_of_count_lt_count (p := C.Barred) ?_
    show Nat.count C.Barred n < Nat.count C.Barred (s.rank q).calls
    omega
  refine hok.goOn _ (s.rank r).entered (s.rank r).graphs hok.order.entered_le
    ⟨hcalls, hentered, hwork, fun _ hkey => hkey, fun _ => hbegun⟩
    (fun x hx => held_of_unbound ?_ hx) fun m q kind hand => ?_
  · rintro _ _ _ _ heq
    cases heq
  · rw [hhost]
    have hpath := ((hsame.barred hr).1 hbarred).1
    simp only [Host.awaits, Bool.and_eq_true, decide_eq_true_eq] at hand ⊢
    obtain ⟨rfl, hmem⟩ := hand
    simp [Config.mayLook, hpath, hmem]

theorem RankOk.submitGraph (h : RankOk C calls r k) {bound : List Pointer}
    (hhost : k.host = .binding n [] bound) :
    Moved C calls r k { k with host := .outside, graphs := k.graphs ++ [⟨n, bound⟩] } [] := by
  have horder := h.order.host
  rw [hhost] at horder
  obtain ⟨hcalls, hentered, hwork, -, -⟩ := horder
  refine h.goOn _ k.entered _ h.order.entered_le
    ⟨by rw [hcalls]; exact hentered, by rw [hcalls]; exact hwork⟩ (fun x hx => ?_)
    fun _ _ _ hand => by cases hand
  rw [mem_held] at hx ⊢
  rcases hx with ⟨_, _, hbad, -⟩ | hworker | ⟨g, hg, hcall, hp⟩
  · cases hbad
  · exact .inr (.inl hworker)
  · rcases List.mem_append.1 hg with hg | hg
    · exact .inr (.inr ⟨g, hg, hcall, hp⟩)
    · rw [List.mem_singleton.1 hg] at hcall hp
      exact .inl ⟨[], bound, by rw [hhost, ← hcall], hp⟩

theorem RankOk.fail (h : RankOk C calls r k) : Moved C calls r k { k with host := .failed } [] := by
  refine h.goOn _ k.entered k.graphs h.order.entered_le trivial
    (fun x hx => held_of_unbound (fun _ _ _ _ heq => by cases heq) hx)
    fun _ _ _ hand => by cases hand

theorem RankOk.complete (h : RankOk C calls r k) {g : Launched} {graphs : List Launched}
    (hgraphs : k.graphs = g :: graphs) : Moved C calls r k { k with graphs } [] := by
  refine h.goOn k.host k.entered _ h.order.entered_le ?_ (fun x hx => ?_)
    fun _ _ _ hand => hand
  · have horder := h.order.host
    cases hhost : k.host <;> rw [hhost] at horder <;> exact horder
  · rw [mem_held] at hx ⊢
    rcases hx with hhost | hworker | ⟨g', hg', hrest⟩
    · exact .inl hhost
    · exact .inr (.inl hworker)
    · exact .inr (.inr ⟨g', by rw [hgraphs]; exact List.mem_cons_of_mem _ hg', hrest⟩)

/-! ### The worker -/

/-- The worker goes on with its work, or is done with it; it looks for nothing else. -/
theorem RankOk.workOn (h : RankOk C calls r k) (worker : Worker) (queue : List Work)
    (enteredSmall : ℕ) (hqueue : ∀ w ∈ queue, w ∈ k.queue) (horder : worker.Order C k.calls r)
    (hunbound : ∀ w allDirect rest bound, worker = .gathering w allDirect rest bound →
      ∀ p ∈ bound, ∃ rest', k.worker = .gathering w allDirect rest' bound)
    (hawaits : ∀ m q, worker.awaits C r m q = true →
      (∃ w ∈ k.queue, w.call = m) ∨ k.worker.awaits C r m q = true) :
    Moved C calls r k { k with worker, queue, enteredSmall } [] := by
  refine .of_same h rfl rfl rfl ⟨h.order.entered_le, ?_, fun w hw => h.order.queue w (hqueue w hw),
    horder⟩ (fun x hx => ?_) fun m q kind hlook => ?_
  · have hhost := h.order.host
    show k.host.Order C calls r { k with worker, queue, enteredSmall }
    cases heq : k.host <;> rw [heq] at hhost <;> exact hhost
  · rw [mem_held] at hx ⊢
    rcases hx with hhost | ⟨w, allDirect, rest, bound, heq, hcall, hp⟩ | hgraph
    · exact .inl hhost
    · obtain ⟨rest', hworker⟩ := hunbound w allDirect rest bound heq x.2 hp
      exact .inr (.inl ⟨w, allDirect, rest', bound, hworker, hcall, hp⟩)
    · exact .inr (.inr hgraph)
  · rw [Rank.awaits_iff] at hlook ⊢
    rcases hlook with hlater | hhost | ⟨hcond, hq | hworker⟩
    · exact .inl hlater
    · exact .inr (.inl hhost)
    · obtain ⟨w, hw, hcall⟩ := hq
      exact .inr (.inr ⟨hcond, .inl ⟨w, hqueue w hw, hcall⟩⟩)
    · exact .inr (.inr ⟨hcond, hawaits m q hworker⟩)

theorem RankOk.take (h : RankOk C calls r k) {queue : List Work} (hqueue : k.queue = w :: queue) :
    Moved C calls r k { k with worker := .begun w, queue } [] := by
  have hw : w ∈ k.queue := by
    rw [hqueue]
    exact List.mem_cons_self ..
  refine h.workOn _ queue k.enteredSmall
    (fun w' hw' => by rw [hqueue]; exact List.mem_cons_of_mem _ hw') (h.order.queue w hw) nofun
    fun m q hand => .inl ⟨w, hw, of_decide_eq_true hand⟩

/-- A worker after one that waits for the same sources. -/
theorem RankOk.workNext (h : RankOk C calls r k) (worker : Worker) (enteredSmall : ℕ)
    (horder : worker.Order C k.calls r)
    (hunbound : ∀ w allDirect rest bound, worker = .gathering w allDirect rest bound →
      ∀ p ∈ bound, ∃ rest', k.worker = .gathering w allDirect rest' bound)
    (hawaits : ∀ m q, worker.awaits C r m q = true → k.worker.awaits C r m q = true) :
    Moved C calls r k { k with worker, enteredSmall } [] :=
  h.workOn worker k.queue enteredSmall (fun _ hw => hw) horder hunbound fun m q hand =>
    .inr (hawaits m q hand)

theorem RankOk.resolve (h : RankOk C calls r k) (hworker : k.worker = .resolving w)
    (allDirect : Bool) :
    Moved C calls r k { k with worker := .gathering w allDirect (C.sources r) [] } [] := by
  have horder := h.order.worker
  rw [hworker] at horder
  refine h.workNext _ k.enteredSmall ⟨horder, fun _ hq => hq⟩ ?_ fun m q hand => ?_
  · intro w' _ rest bound heq p hp
    cases heq
    cases hp
  · rw [hworker]
    simp only [Worker.awaits, Bool.and_eq_true] at hand
    exact hand.1.1

/-! ### A lookup -/

/-- A lookup for a call that leads to the buffer of the call, while the pointers that the rank
holds still go where they went. -/
structure LookedFor (C : Config) (calls : ℕ → ℕ) (k : Rank) (n : ℕ) (key : ℕ × Kind)
    (found : Rank × Target) : Prop where
  rank : ∃ entries, found.1 = { k with remoteIpc := entries }
  entries : Entries C calls found.1
  place : found.1.place C found.2 = some (C.buffer key.1 n key.2).place
  held : ∀ x ∈ k.held,
    found.1.place C x.2.target = some (C.buffer x.2.peer x.1 x.2.kind).place

/-- **What an orderly lookup finds** is the buffer of the call. -/
theorem Inv.looked (h : Inv C s) (hr : r < C.worldSize) (key : ℕ × Kind) {address : ℕ}
    {found : Rank × Target} (hworld : key.1 < C.worldSize) (hother : key.1 ≠ r)
    (hbegun : registeredFor C s n key.1 key.2 = true)
    (hawaits : (s.rank r).awaits C r n key.1 key.2 = true) (hmay : mayRelease C s r key = true)
    (hl : lookup C s (s.rank r) key address = some found) :
    LookedFor C s.calls (s.rank r) n key found := by
  have hok := h.ranks r hr
  rw [registeredFor, Bool.or_eq_true, decide_eq_true_eq, decide_eq_true_eq] at hbegun
  obtain ⟨m, hm⟩ : ∃ m, s.calls key.1 = m + 1 := by
    rcases Nat.eq_zero_or_pos (s.calls key.1) with h0 | hpos
    · rcases hbegun with hlt | hreg
      · exact absurd hlt (by rw [show (s.rank key.1).calls = 0 from h0]; omega)
      · rw [((h.registered key.1).empty h0 key.2).1] at hreg
        cases hreg
    · exact ⟨s.calls key.1 - 1, by omega⟩
  have hbuffer : C.buffer key.1 m key.2 = C.buffer key.1 n key.2 := by
    rcases hbegun with hlt | hreg
    · exact h.findable r hr key.1 hworld hother n key.2 hawaits hlt m hm
    · rw [((h.registered key.1).last m hm key.2).1] at hreg
      exact Option.some.inj hreg
  have hlooked := hok.entries.lookup h.agreeing.consistent hworld (show m < s.calls key.1 by omega)
    ((h.registered key.1).found hm key.2) hl
  refine ⟨hlooked.rank, hlooked.entries, by rw [hlooked.place, hbuffer], fun x hx => ?_⟩
  refine hlooked.kept _ _ (hok.held x hx) fun record c hrecord hc hbase hne => ?_
  have hrelease := hmay
  unfold mayRelease at hrelease
  rw [hrecord, Option.all_some, hc, Option.all_some, Bool.or_eq_true, decide_eq_true_eq] at hrelease
  have hx := List.all_eq_true.1 (hrelease.resolve_left hne) x hx
  rw [Bool.or_eq_true, decide_eq_true_eq] at hx
  obtain ⟨other, hmem, hheld⟩ := List.any_eq_true.1 (hx.resolve_left (not_not.2 hbase))
  rw [Bool.and_eq_true, decide_eq_true_eq] at hheld
  obtain ⟨d, hd, haddress⟩ := (Option.any_eq_true _ _).1 hheld.2
  exact ⟨other, d, hheld.1, hd, of_decide_eq_true haddress⟩

/-- The rank goes on with the pointer it has found. -/
theorem LookedFor.moved {found : Rank × Target} (h : LookedFor C calls k n key found)
    (hcalls : k'.calls = k.calls) (hlocal : k'.localIpc = k.localIpc)
    (he : k'.remoteIpc = found.1.remoteIpc) (horder : Order C calls r k')
    (hheld : ∀ x ∈ k'.held, x ∈ k.held ∨ x = (n, ⟨key.1, key.2, found.2⟩))
    (hawaits : ∀ m q kind, k'.awaits C r m q kind = true → k.awaits C r m q kind = true) :
    Moved C calls r k k' [found.1.access C r n ⟨key.1, key.2, found.2⟩] := by
  refine ⟨hcalls, hlocal, ⟨horder, h.entries.congr he, fun x hx => ?_⟩, hawaits, fun a ha => ?_⟩
  · rw [Rank.place_congr he]
    rcases hheld x hx with hx | rfl
    · exact h.held x hx
    · exact h.place
  · rw [List.mem_singleton.1 ha]
    exact h.place

theorem Inv.bind (h : Inv C s) (hr : r < C.worldSize) {address : ℕ}
    {rest : List (ℕ × Kind)} {bound : List Pointer} {found : Rank × Target}
    (hhost : (s.rank r).host = .binding n (key :: rest) bound)
    (hbegun : (C.hasRemoteD2d r n || registeredFor C s n key.1 key.2) = true)
    (hmay : mayRelease C s r key = true)
    (hl : lookup C s (s.rank r) key address = some found) :
    Moved C s.calls r (s.rank r)
      { found.1 with host := .binding n rest (bound ++ [⟨key.1, key.2, found.2⟩]) }
      [found.1.access C r n ⟨key.1, key.2, found.2⟩] := by
  have hok := h.ranks r hr
  have horder := hok.order.host
  rw [hhost] at horder
  obtain ⟨hcalls, hentered, hwork, hlookups, hbarrier⟩ := horder
  have hkey := hlookups key (List.mem_cons_self ..)
  obtain ⟨hworld, hother⟩ := Config.mem_lookups hkey
  have hregistered : registeredFor C s n key.1 key.2 = true := by
    rcases Bool.or_eq_true_iff.1 hbegun with hremote | hreg
    · rw [registeredFor, Bool.or_eq_true, decide_eq_true_eq]
      exact .inl (hbarrier hremote key.1 hworld)
    · exact hreg
  have hawaits : (s.rank r).awaits C r n key.1 key.2 = true := by
    rw [Rank.awaits_iff, hhost]
    simp [Host.awaits]
  have hfound := h.looked hr key hworld hother hregistered hawaits hmay hl
  obtain ⟨entries, hrank⟩ := hfound.rank
  obtain ⟨k', t⟩ := found
  obtain rfl : k' = { s.rank r with remoteIpc := entries } := hrank
  refine hfound.moved rfl rfl rfl ⟨hok.order.entered_le, ?_, hok.order.queue, hok.order.worker⟩
    (fun x hx => ?_) fun m q kind hlook => ?_
  · exact ⟨hcalls, hentered, hwork, fun other hmem => hlookups other (List.mem_cons_of_mem _ hmem),
      hbarrier⟩
  · rw [mem_held] at hx
    rw [mem_held, hhost]
    rcases hx with ⟨rest', bound', heq, hp⟩ | hx
    · cases heq
      rcases List.mem_append.1 hp with hp | hp
      · exact .inl (.inl ⟨_, _, rfl, hp⟩)
      · exact .inr (Prod.ext rfl (List.mem_singleton.1 hp))
    · exact .inl (.inr hx)
  · rw [Rank.awaits_iff] at hlook ⊢
    rcases hlook with hlater | hbinding | hsmall
    · exact .inl hlater
    · right
      left
      rw [hhost]
      simp only [Host.awaits, Bool.and_eq_true, decide_eq_true_eq] at hbinding ⊢
      exact ⟨hbinding.1, List.mem_cons_of_mem _ hbinding.2⟩
    · exact .inr (.inr hsmall)

/-- The worker goes on with what it has found of a source. -/
theorem Inv.source (h : Inv C s) (hr : r < C.worldSize) {address source : ℕ}
    {found : Rank × Target} {worker : Worker} (hdirect : directSource C s r source = true)
    (hmem : source ∈ C.sources r)
    (hbegun : registeredFor C s w.call source .input = true)
    (hmay : mayRelease C s r (source, .input) = true)
    (hl : lookup C s (s.rank r) (source, .input) address = some found)
    (horder : worker.Order C (s.rank r).calls r)
    (hfirst : (s.rank r).worker.awaits C r w.call source = true)
    (hheld : ∀ w' allDirect rest bound, worker = .gathering w' allDirect rest bound → ∀ p ∈ bound,
      (w'.call, p) ∈ (s.rank r).held ∨ (w'.call, p) = (w.call, ⟨source, .input, found.2⟩))
    (hawaits : ∀ m q, worker.awaits C r m q = true → (s.rank r).worker.awaits C r m q = true) :
    Moved C s.calls r (s.rank r) { found.1 with worker }
      [found.1.access C r w.call ⟨source, .input, found.2⟩] := by
  have hok := h.ranks r hr
  obtain ⟨hworld, hother⟩ := Config.mem_sources.1 hmem
  simp only [directSource, Bool.and_eq_true] at hdirect
  have hlooks : (s.rank r).awaits C r w.call source .input = true := by
    rw [Rank.awaits_iff]
    exact .inr (.inr ⟨⟨rfl, hdirect.1.1, hdirect.1.2⟩, .inr hfirst⟩)
  have hfound := h.looked hr (source, .input) hworld hother hbegun hlooks hmay hl
  obtain ⟨entries, hrank⟩ := hfound.rank
  obtain ⟨k', t⟩ := found
  obtain rfl : k' = { s.rank r with remoteIpc := entries } := hrank
  refine hfound.moved rfl rfl rfl ⟨hok.order.entered_le, ?_, hok.order.queue, horder⟩
    (fun x hx => ?_) fun m q kind hlook => ?_
  · have hhost := hok.order.host
    show (s.rank r).host.Order C s.calls r { s.rank r with remoteIpc := entries, worker }
    cases heq : (s.rank r).host <;> rw [heq] at hhost <;> exact hhost
  · obtain ⟨m, p⟩ := x
    rcases mem_held.1 hx with hhost | ⟨w', allDirect, rest, bound, heq, rfl, hp⟩ | hgraph
    · exact .inl (mem_held.2 (.inl hhost))
    · exact hheld w' allDirect rest bound heq p hp
    · exact .inl (mem_held.2 (.inr (.inr hgraph)))
  · rw [Rank.awaits_iff] at hlook ⊢
    rcases hlook with hlater | hhost | ⟨hcond, hq | hworker⟩
    · exact .inl hlater
    · exact .inr (.inl hhost)
    · exact .inr (.inr ⟨hcond, .inl hq⟩)
    · exact .inr (.inr ⟨hcond, .inr (hawaits m q hworker)⟩)

theorem Inv.probe (h : Inv C s) (hr : r < C.worldSize) {address source : ℕ} {rest : List ℕ}
    {found : Rank × Target} (hworker : (s.rank r).worker = .probing w (source :: rest))
    (hdirect : directSource C s r source = true)
    (hbegun : registeredFor C s w.call source .input = true)
    (hmay : mayRelease C s r (source, .input) = true)
    (hl : lookup C s (s.rank r) (source, .input) address = some found) :
    Moved C s.calls r (s.rank r) { found.1 with worker := .probing w rest }
      [found.1.access C r w.call ⟨source, .input, found.2⟩] := by
  have horder := (h.ranks r hr).order.worker
  rw [hworker] at horder
  refine h.source hr hdirect (horder.2 source (List.mem_cons_self ..)) hbegun hmay hl
    ⟨horder.1, fun q hq => horder.2 q (List.mem_cons_of_mem _ hq)⟩ ?_ nofun fun m q hlook => ?_
  · rw [hworker]
    simp [Worker.awaits]
  · rw [hworker]
    exact hlook

/-- The source whose status is ready has begun the call. -/
theorem Inv.begun_of_ready (h : Inv C s) {source i : ℕ} {m : ℕ} (hw : w.Numbered C m)
    (hready : s.readySeq source i = w.seq) : w.call < s.calls source := by
  rcases h.ready source i with h0 | ⟨n, hn, hsmall, hseq⟩
  · have := hw.seq
    omega
  · have hcount : Nat.count C.Small n = Nat.count C.Small w.call := by
      have := hw.seq
      omega
    rwa [← Nat.count_injective hsmall hw.small hcount]

theorem Inv.gather (h : Inv C s) (hr : r < C.worldSize) {address source : ℕ} {allDirect : Bool}
    {rest : List ℕ} {bound : List Pointer} {found : Rank × Target}
    (hworker : (s.rank r).worker = .gathering w allDirect (source :: rest) bound)
    (hready : s.readySeq source (slot C w.seq) = w.seq)
    (hallow : C.allowRemoteDirect r w.call allDirect = true)
    (hdirect : directSource C s r source = true)
    (hmay : mayRelease C s r (source, .input) = true)
    (hl : lookup C s (s.rank r) (source, .input) address = some found) :
    Moved C s.calls r (s.rank r)
      { found.1 with
        worker := .gathering w allDirect rest (bound ++ [⟨source, .input, found.2⟩]) }
      [found.1.access C r w.call ⟨source, .input, found.2⟩] := by
  have horder := (h.ranks r hr).order.worker
  rw [hworker] at horder
  have hbegun : registeredFor C s w.call source .input = true := by
    rw [registeredFor, Bool.or_eq_true, decide_eq_true_eq]
    exact .inl (h.begun_of_ready horder.1 hready)
  refine h.source hr hdirect (horder.2 source (List.mem_cons_self ..)) hbegun hmay hl
    ⟨horder.1, fun q hq => horder.2 q (List.mem_cons_of_mem _ hq)⟩ ?_ ?_ fun m q hlook => ?_
  · rw [hworker]
    simp [Worker.awaits, hallow]
  · intro w' _ _ bound' heq p hp
    cases heq
    rcases List.mem_append.1 hp with hp | hp
    · exact .inl (mem_held.2 (.inr (.inl ⟨w, allDirect, source :: rest, bound, hworker, rfl, hp⟩)))
    · exact .inr (Prod.ext rfl (List.mem_singleton.1 hp))
  · rw [hworker]
    simp only [Worker.awaits, Bool.and_eq_true, decide_eq_true_eq] at hlook ⊢
    exact ⟨⟨hlook.1.1, List.mem_cons_of_mem _ hlook.1.2⟩, hlook.2⟩

/-- A source that is not read where it is. -/
theorem RankOk.skip (h : RankOk C calls r k) {allDirect : Bool} {source : ℕ} {rest : List ℕ}
    {bound : List Pointer} (hworker : k.worker = .gathering w allDirect (source :: rest) bound) :
    Moved C calls r k { k with worker := .gathering w allDirect rest bound } [] := by
  have horder := h.order.worker
  rw [hworker] at horder
  refine h.workNext _ k.enteredSmall
    ⟨horder.1, fun q hq => horder.2 q (List.mem_cons_of_mem _ hq)⟩ ?_ fun m q hlook => ?_
  · intro w' _ _ bound' heq p _
    cases heq
    exact ⟨source :: rest, hworker⟩
  · rw [hworker]
    simp only [Worker.awaits, Bool.and_eq_true, decide_eq_true_eq] at hlook ⊢
    exact ⟨⟨hlook.1.1, List.mem_cons_of_mem _ hlook.1.2⟩, hlook.2⟩

/-- The sources are probed. -/
theorem RankOk.probed (h : RankOk C calls r k) {rest : List ℕ}
    (hworker : k.worker = .probing w rest) :
    Moved C calls r k { k with worker := .resolving w } [] := by
  have horder := h.order.worker
  rw [hworker] at horder
  refine h.workNext _ k.enteredSmall horder.1 nofun fun m q hlook => ?_
  rw [hworker]
  exact hlook

theorem RankOk.arrive (h : RankOk C calls r k) {allDirect : Bool} {rest : List ℕ}
    {bound : List Pointer} (hworker : k.worker = .gathering w allDirect rest bound) :
    Moved C calls r k { k with worker := .waiting w, enteredSmall := k.enteredSmall + 1 } [] := by
  have horder := h.order.worker
  rw [hworker] at horder
  exact h.workNext _ _ horder.1 nofun nofun

theorem RankOk.finish (h : RankOk C calls r k) :
    Moved C calls r k { k with worker := .idle } [] :=
  h.workNext _ k.enteredSmall trivial nofun nofun

theorem RankOk.failWork (h : RankOk C calls r k) :
    Moved C calls r k { k with worker := .failed, queue := [] } [] :=
  h.workOn _ _ k.enteredSmall nofun trivial nofun nofun

/-- The rank uses a pointer that it holds. -/
theorem RankOk.use (h : RankOk C calls r k) {p : Pointer} (hp : (n, p) ∈ k.held) :
    Moved C calls r k k [k.access C r n p] := by
  refine ⟨rfl, rfl, h, fun _ _ _ hlook => hlook, fun a ha => ?_⟩
  rw [List.mem_singleton.1 ha]
  exact h.access hp

theorem RankOk.afterReady (h : RankOk C calls r k) (hworker : k.worker = .begun w) :
    Moved C calls r k { k with worker := C.afterReady r w } [] := by
  have horder := h.order.worker
  rw [hworker] at horder
  unfold Config.afterReady
  split
  · refine h.workNext _ k.enteredSmall ⟨horder, fun _ hq => hq⟩ nofun ?_
    intro m q hlook
    rw [hworker]
    exact hlook
  · refine h.workNext _ k.enteredSmall ⟨horder, fun _ hq => hq⟩ ?_ ?_
    · intro _ _ _ _ heq p hp
      cases heq
      cases hp
    · intro m q hlook
      rw [hworker]
      simp only [Worker.awaits, Bool.and_eq_true] at hlook
      exact hlook.1.1

/-! ## Runs -/

/-- A rank that does not exist does nothing. -/
theorem move_initial (l : Label) : move C s .initial l = none := by
  cases l <;> rfl

/-- **What a rank does by itself**, if it is orderly. -/
theorem Inv.move (h : Inv C s) (hsame : C.SameCalls) {l : Label} (hr : l.rank < C.worldSize)
    (hord : orderly C s l = true) {moved : Rank × List Access}
    (hmove : move C s (s.rank l.rank) l = some moved) :
    Moved C s.calls l.rank (s.rank l.rank) moved.1 moved.2 := by
  have hok := h.ranks l.rank hr
  cases l with
  | register r => cases hmove
  | ready r => cases hmove
  | submitSmall r =>
    simp only [Binding.move] at hmove
    split at hmove
    · rename_i n hhost
      split at hmove
      · rename_i hcond
        cases hmove
        exact hok.submitSmall hsame hr hhost hcond.1
      · cases hmove
    · cases hmove
  | fallBack r =>
    simp only [Binding.move] at hmove
    split at hmove
    · rename_i n hhost
      split at hmove
      · rename_i hcond
        have hmoved := hok.fallBack (r := r) hsame hr hhost hcond.1
        split at hmove
        · rename_i hremote
          cases hmove
          rwa [if_pos hremote] at hmoved
        · rename_i hremote
          cases hmove
          rwa [if_neg hremote] at hmoved
      · cases hmove
    · cases hmove
  | leave r =>
    simp only [Binding.move] at hmove
    split at hmove
    · rename_i n hhost
      obtain ⟨hopen, hmoved⟩ := Option.ite_none_right_eq_some.1 hmove
      cases hmoved
      exact h.leave hsame hr hhost hopen
    · cases hmove
  | bind r address =>
    simp only [Binding.move] at hmove
    split at hmove
    · rename_i n key rest bound hhost
      obtain ⟨found, hfound, rfl⟩ := Option.map_eq_some_iff.1 hmove
      simp only [orderly, Label.rank] at hord hhost
      rw [hhost] at hord
      exact h.bind hr hhost (Bool.and_eq_true_iff.1 hord).1 (Bool.and_eq_true_iff.1 hord).2 hfound
    · cases hmove
  | submitGraph r =>
    simp only [Binding.move] at hmove
    split at hmove
    · rename_i n bound hhost
      obtain ⟨-, hmoved⟩ := Option.ite_none_right_eq_some.1 hmove
      cases hmoved
      exact hok.submitGraph hhost
    · cases hmove
  | fail r =>
    simp only [Binding.move] at hmove
    split at hmove
    · cases hmove
    · cases hmove
    · cases hmove
      exact hok.fail
  | take r =>
    simp only [Binding.move] at hmove
    split at hmove
    · rename_i w queue _ hqueue
      cases hmove
      exact hok.take hqueue
    · cases hmove
  | probe r address =>
    simp only [Binding.move] at hmove
    split at hmove
    · rename_i w source rest hworker
      split at hmove
      · rename_i hdirect
        obtain ⟨found, hfound, rfl⟩ := Option.map_eq_some_iff.1 hmove
        simp only [orderly, Label.rank] at hord hworker
        rw [hworker] at hord
        obtain ⟨hbegun, hmay⟩ := Bool.and_eq_true_iff.1 hord
        exact h.probe hr hworker hdirect hbegun hmay hfound
      · cases hmove
        exact hok.probed hworker
    · rename_i w hworker
      cases hmove
      exact hok.probed hworker
    · cases hmove
  | resolve r allDirect =>
    simp only [Binding.move] at hmove
    split at hmove
    · rename_i w hworker
      cases hmove
      exact hok.resolve hworker allDirect
    · cases hmove
  | gather r address =>
    simp only [Binding.move] at hmove
    split at hmove
    · rename_i w allDirect source rest bound hworker
      obtain ⟨hready, hmove⟩ := Option.ite_none_right_eq_some.1 hmove
      split at hmove
      · rename_i hdirect
        obtain ⟨found, hfound, rfl⟩ := Option.map_eq_some_iff.1 hmove
        simp only [orderly, Label.rank] at hord hworker
        rw [hworker] at hord
        obtain ⟨hallow, hdirect⟩ := Bool.and_eq_true_iff.1 hdirect
        exact h.gather hr hworker hready hallow hdirect hord hfound
      · cases hmove
        exact hok.skip hworker
    · cases hmove
  | copy r i =>
    simp only [Binding.move] at hmove
    split at hmove
    · rename_i w allDirect rest bound hworker
      obtain ⟨p, hp, rfl⟩ := Option.map_eq_some_iff.1 hmove
      refine hok.use (mem_held.2 (.inr (.inl ⟨w, allDirect, rest, bound, hworker, rfl, ?_⟩)))
      exact List.mem_of_getElem? hp
    · cases hmove
  | arrive r =>
    simp only [Binding.move] at hmove
    split at hmove
    · rename_i w allDirect bound hworker
      cases hmove
      exact hok.arrive hworker
    · cases hmove
  | finish r =>
    simp only [Binding.move] at hmove
    split at hmove
    · obtain ⟨-, hmoved⟩ := Option.ite_none_right_eq_some.1 hmove
      cases hmoved
      exact hok.finish
    · cases hmove
  | failWork r =>
    simp only [Binding.move] at hmove
    split at hmove
    · cases hmove
    · cases hmove
    · cases hmove
      exact hok.failWork
  | run r i =>
    simp only [Binding.move] at hmove
    split at hmove
    · rename_i g graphs hgraphs
      obtain ⟨p, hp, rfl⟩ := Option.map_eq_some_iff.1 hmove
      refine hok.use (mem_held.2 (.inr (.inr ⟨g, ?_, rfl, List.mem_of_getElem? hp⟩)))
      rw [hgraphs]
      exact List.mem_cons_self ..
    · cases hmove
  | complete r =>
    simp only [Binding.move] at hmove
    split at hmove
    · rename_i g graphs hgraphs
      cases hmove
      exact hok.complete hgraphs
    · cases hmove

/-- The sequence number of a work is published. -/
theorem Inv.published (h : Inv C s) (hw : w.Numbered C (s.calls r)) (i : ℕ) :
    Inv C { s with readySeq := update s.readySeq r (update (s.readySeq r) i w.seq) } := by
  have hready : ∀ q j, update s.readySeq r (update (s.readySeq r) i w.seq) q j = 0 ∨
      ∃ n < s.calls q, C.Small n ∧
        update s.readySeq r (update (s.readySeq r) i w.seq) q j = Nat.count C.Small n + 1 := by
    intro q j
    by_cases hq : q = r
    · subst hq
      rw [Function.update_self]
      by_cases hj : j = i
      · subst hj
        rw [Function.update_self]
        exact .inr ⟨w.call, hw.lt, hw.small, hw.seq⟩
      · rw [Function.update_of_ne hj]
        exact h.ready q j
    · rw [Function.update_of_ne hq]
      exact h.ready q j
  refine ⟨h.outside, fun q => ?_, h.agreeing, hready, h.ranks, h.findable, h.log⟩
  obtain ⟨h1, h2, h3, h4⟩ := h.registered q
  exact ⟨h1, h2, h3, h4⟩

theorem Inv.readied (h : Inv C s) (hr : r < C.worldSize) (hworker : (s.rank r).worker = .begun w) :
    Inv C { s with
      readySeq := update s.readySeq r (update (s.readySeq r) (slot C w.seq) w.seq)
      rank := update s.rank r { s.rank r with worker := C.afterReady r w } } := by
  have hok := h.ranks r hr
  have horder := hok.order.worker
  rw [hworker] at horder
  have hnumbered : w.Numbered C (s.rank r).calls := horder
  have hmoved := h.moved hr (hok.afterReady hworker)
  simp only [List.append_nil] at hmoved
  refine hmoved.published (r := r) ?_ (slot C w.seq)
  simpa [State.calls] using hnumbered

theorem Inv.initial : Inv C .initial where
  outside _ _ := rfl
  registered q := ⟨fun _ _ => ⟨rfl, rfl⟩, nofun, fun _ _ => rfl, nofun⟩
  agreeing _ _ _ _ h := by cases h
  ready _ _ := .inl rfl
  ranks r hr := by
    refine ⟨⟨le_rfl, ⟨rfl, rfl⟩, nofun, trivial⟩, .initial, fun x hx => ?_⟩
    cases hx
  findable _ _ _ _ _ _ _ _ h := by cases h
  log := nofun

/-- **An orderly step.** -/
theorem Inv.step (h : Inv C s) (hsame : C.SameCalls) {l : Label} (hord : orderly C s l = true)
    (hstep : step C s l = some s') : Inv C s' := by
  have hinside : ∀ {moved}, Binding.move C s (s.rank l.rank) l = some moved →
      l.rank < C.worldSize := by
    intro moved hmove
    by_contra hout
    rw [h.outside l.rank (by omega), move_initial] at hmove
    cases hmove
  cases l with
  | register r =>
    simp only [Binding.step] at hstep
    split at hstep
    · rename_i hhost
      obtain ⟨hr, hregister⟩ := Option.ite_none_right_eq_some.1 hstep
      rw [← Option.some.inj hregister]
      exact h.register hr hhost hord
    · cases hstep
  | ready r =>
    simp only [Binding.step] at hstep
    split at hstep
    · rename_i w hworker
      have hr : r < C.worldSize := by
        by_contra hout
        rw [h.outside r (by omega)] at hworker
        cases hworker
      rw [← Option.some.inj hstep]
      exact h.readied hr hworker
    · cases hstep
  | _ =>
    obtain ⟨moved, hmove, rfl⟩ := Option.map_eq_some_iff.1 hstep
    exact h.moved (hinside hmove) (h.move hsame (hinside hmove) hord hmove)

end

/-- The ranks of a communicator. -/
def machine (C : Config) : Machine State Label := ⟨step C⟩

/-- **Binding agreement.**  Where the ranks make the same calls and every step is orderly, each
access to the buffer of another rank goes to the buffer that this rank registered for the same
call. -/
theorem buffer_agreement (C : Config) (hsame : C.SameCalls) (labels : List Label) (s : State)
    (hrun : (machine C).runFrom (orderly C) .initial labels = some s) :
    ∀ a ∈ s.log, a.place = some (C.buffer a.peer a.call a.kind).place :=
  ((machine C).invariant (I := Inv C)
    (fun _ _ _ h hord hstep => Inv.step h hsame hord hstep) .initial hrun).log

/-- Two processes whose graphs read the input of the other one. -/
def Config.twoRanks : Config where
  worldSize := 2
  multiProcess := true
  deviceIpcNeeded := true
  queueDepth := 2
  pairDirectAllowed _ _ := true
  path _ _ := .graph
  kind _ := .allReduce
  inPlace _ _ := false
  hasRemoteD2d _ _ := true
  needsDeviceBase _ _ _ kind := kind = .input
  buffer rank call _ := ⟨4096 * (call + 1), 0, 2 * call + rank⟩

theorem Config.twoRanks_sameCalls : Config.twoRanks.SameCalls := fun _ _ _ _ _ => ⟨rfl, rfl⟩

theorem buffer_agreement_in_turn : ∃ s,
    (machine .twoRanks).runFrom (orderly .twoRanks) .initial
      [.register 0, .register 1, .fallBack 0, .fallBack 1, .leave 1, .bind 1 0, .submitGraph 1,
        .leave 0, .bind 0 0, .register 1, .submitGraph 0, .run 0 0] = some s ∧
    s.log.length = 3 ∧
    ∀ a ∈ s.log, a.place = some (Config.twoRanks.buffer a.peer a.call a.kind).place := by
  obtain ⟨s, hrun, hlog⟩ := Option.map_eq_some_iff.1 (show
    ((machine .twoRanks).runFrom (orderly .twoRanks) .initial
      [.register 0, .register 1, .fallBack 0, .fallBack 1, .leave 1, .bind 1 0, .submitGraph 1,
        .leave 0, .bind 0 0, .register 1, .submitGraph 0, .run 0 0]).map (fun s => s.log.length) =
      some 3 by decide)
  exact ⟨s, hrun, hlog, buffer_agreement .twoRanks Config.twoRanks_sameCalls _ s hrun⟩

/-- A rank that registers its next buffers while the other one is still in the barrier is found
with those. -/
theorem buffer_agreement_overrun : ¬ ∀ labels s,
    (machine .twoRanks).runFrom Machine.anyStep .initial labels = some s →
    ∀ a ∈ s.log, a.place = some (Config.twoRanks.buffer a.peer a.call a.kind).place := by
  intro hall
  obtain ⟨s, hrun, hlast⟩ := Option.map_eq_some_iff.1 (show
    ((machine .twoRanks).runFrom Machine.anyStep .initial
      [.register 0, .register 1, .fallBack 0, .fallBack 1, .leave 1, .bind 1 0, .submitGraph 1,
        .register 1, .leave 0, .bind 0 0]).map (fun s => s.log[1]?) =
      some (some ⟨0, 1, 0, .input, some (Config.twoRanks.buffer 1 1 .input).place⟩) by decide)
  have hplace := hall _ s hrun _ (List.mem_of_getElem? hlast)
  exact absurd hplace (by decide)

end Binding
end Api
end HyLink
