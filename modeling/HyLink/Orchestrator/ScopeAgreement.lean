import HyLink.Orchestrator.NodeScope

/-!
# Do the ranks agree on the node scope?

A slot is published after its fields, and what it then says does not change; so two
ranks that see all the others see the same devices.  A rank whose wait is over before
decides against the hybrid path by itself.

* `scope_agreement` — the ranks that have decided agree if and only if the table has no
  say, or the devices would be refused anyway, or the waits of all of them end alike.
* `scope_disagreement` — one rank gives up just before the other one registers.
-/

namespace HyLink
namespace Orchestrator
namespace NodeScope

variable {c : CommScope} {st st' : State} {slots : ℕ → NodeScopeSlot} {r q k n : ℕ}

/-! ## What the slots say -/

variable (c) in
/-- The slot holds what rank `k` registers. -/
structure Own (k : ℕ) (slot : NodeScopeSlot) : Prop where
  commRank : slot.commRank = k
  pid : slot.pid = c.pid k
  deviceId : slot.deviceId = c.deviceId k

variable (c) in
/-- The fields that rank `r` has stored, while the stores in `left` are to come. -/
structure Written (r : ℕ) (left : List Field) (slot : NodeScopeSlot) : Prop where
  commRank : Field.commRank ∉ left → slot.commRank = r
  pid : Field.pid ∉ left → slot.pid = c.pid r
  deviceId : Field.deviceId ∉ left → slot.deviceId = c.deviceId r

variable (c) in
/-- What has been loaded of slot `k`, while the loads in `left` are to come. -/
structure Loaded (k : ℕ) (left : List Field) (got : NodeScopeSlot) : Prop where
  deviceId : Field.deviceId ∉ left → got.deviceId = c.deviceId k

theorem Own.store {slot : NodeScopeSlot} (h : Own c r slot) (now : ℕ) (f : Field) :
    Own c r (c.store r now slot f) := by
  cases f with
  | commRank => exact ⟨rfl, h.pid, h.deviceId⟩
  | pid => exact ⟨h.commRank, rfl, h.deviceId⟩
  | deviceId => exact ⟨h.commRank, h.pid, rfl⟩
  | invalidate | timestamp | publish => exact ⟨h.commRank, h.pid, h.deviceId⟩

theorem Written.start (slot : NodeScopeSlot) : Written c r stores slot := by
  refine ⟨?_, ?_, ?_⟩ <;> intro h <;> exact absurd (by decide) h

theorem Written.store {f : Field} {left : List Field} {slot : NodeScopeSlot}
    (h : Written c r (f :: left) slot) (now : ℕ) : Written c r left (c.store r now slot f) := by
  have hmem : ∀ g, g ≠ f → g ∉ left → g ∉ f :: left := by
    intro g hne hg hmem
    rcases List.mem_cons.1 hmem with heq | hmem
    · exact hne heq
    · exact hg hmem
  cases f with
  | commRank => exact ⟨fun _ => rfl, fun hg => h.pid (hmem _ nofun hg),
      fun hg => h.deviceId (hmem _ nofun hg)⟩
  | pid => exact ⟨fun hg => h.commRank (hmem _ nofun hg), fun _ => rfl,
      fun hg => h.deviceId (hmem _ nofun hg)⟩
  | deviceId => exact ⟨fun hg => h.commRank (hmem _ nofun hg), fun hg => h.pid (hmem _ nofun hg),
      fun _ => rfl⟩
  | invalidate | timestamp | publish =>
    exact ⟨fun hg => h.commRank (hmem _ nofun hg), fun hg => h.pid (hmem _ nofun hg),
      fun hg => h.deviceId (hmem _ nofun hg)⟩

/-- The slot is published last. -/
theorem Written.own {left : List Field} {slot : NodeScopeSlot}
    (hsuffix : .publish :: left <:+ stores) (h : Written c r (.publish :: left) slot) :
    Own c r slot := by
  have hleft : left = [] := by
    have hmem := (List.mem_tails _ _).2 hsuffix
    simpa [stores] using hmem
  subst hleft
  exact ⟨h.commRank (by decide), h.pid (by decide), h.deviceId (by decide)⟩

theorem Loaded.start (got : NodeScopeSlot) : Loaded c k loads got :=
  ⟨fun h => absurd (by decide) h⟩

theorem Loaded.load {f : Field} {left : List Field} {got slot : NodeScopeSlot}
    (hown : Own c k slot) (h : Loaded c k (f :: left) got) :
    Loaded c k left (got.load slot f) := by
  cases f with
  | deviceId => exact ⟨fun _ => hown.deviceId⟩
  | commRank | pid | invalidate | timestamp | publish =>
    exact ⟨fun hg => h.deviceId (by simpa using hg)⟩

/-! ## What a rank knows -/

variable (c) in
/-- Every slot below `k` that counts says what its rank registered. -/
structure Seen (slots : ℕ → NodeScopeSlot) (r : ℕ) (s : Scan) (k : ℕ) : Prop where
  le : s.seen ≤ k
  devices : s.seen = k → s.devices = c.devices k
  node : s.seen = k → ∀ j < k, c.node j = c.node r
  own : s.seen = k → ∀ j < k, Own c j (slots j)

theorem Seen.start (now : ℕ) : Seen c slots r ⟨now, 0, ⟨-1, true⟩⟩ 0 :=
  ⟨Nat.le_refl _, fun _ => rfl, fun _ _ hj => absurd hj (Nat.not_lt_zero _),
    fun _ _ hj => absurd hj (Nat.not_lt_zero _)⟩

/-- A slot that does not count. -/
theorem Seen.skip {s : Scan} (h : Seen c slots r s k) : Seen c slots r s (k + 1) := by
  have hne : s.seen ≠ k + 1 := by
    have := h.le
    omega
  exact ⟨Nat.le_succ_of_le h.le, fun heq => absurd heq hne, fun heq => absurd heq hne,
    fun heq => absurd heq hne⟩

theorem Seen.tally {s : Scan} {alive : ℤ → Bool} {got : NodeScopeSlot} (h : Seen c slots r s k)
    (hnode : c.node k = c.node r) (hown : Own c k (slots k))
    (hgot : got.deviceId = c.deviceId k) : Seen c slots r (s.tally alive k got) (k + 1) := by
  unfold Scan.tally
  split
  · refine ⟨Nat.succ_le_succ h.le, fun heq => ?_, fun heq j hj => ?_, fun heq j hj => ?_⟩
    · show s.devices.note k got.deviceId = (c.devices k).note k (c.deviceId k)
      rw [h.devices (Nat.succ.inj heq), hgot]
    · rcases Nat.lt_succ_iff_lt_or_eq.1 hj with hj | rfl
      · exact h.node (Nat.succ.inj heq) j hj
      · exact hnode
    · rcases Nat.lt_succ_iff_lt_or_eq.1 hj with hj | rfl
      · exact h.own (Nat.succ.inj heq) j hj
      · exact hown
  · exact h.skip

variable (c) in
/-- What the branch a rank leaves through has to do with its decision. -/
def CommScope.verdict (exit : Exit) : Bool :=
  decide (c.origin ≠ .split false) &&
    (decide (exit = .ungated) || decide (exit = .full) && c.contiguous)

variable (c) in
structure Leaves (r : ℕ) (exit : Exit) : Prop where
  ungated : exit = .ungated ↔ c.gated = false
  node : exit = .full → ∀ j < c.nranks, c.node j = c.node r

variable (c) in
/-- What holds of a rank in phase `p`. -/
def Phase.Ok (st : State) (r : ℕ) : Phase → Prop
  | .registering | .resolving => True
  | .storing left =>
    st.header (c.node r) = c.header (c.node r) ∧ left <:+ stores ∧
      Written c r left (st.slots (c.node r) r)
  | .polling _ _ => c.gated = true ∧ st.header (c.node r) = c.header (c.node r)
  | .scanning _ s k =>
    c.gated = true ∧ st.header (c.node r) = c.header (c.node r) ∧ k ≤ c.nranks ∧
      Seen c (st.slots (c.node r)) r s k
  | .loading _ s k got left =>
    c.gated = true ∧ st.header (c.node r) = c.header (c.node r) ∧ k < c.nranks ∧
      Seen c (st.slots (c.node r)) r s k ∧ c.node k = c.node r ∧ Own c k (st.slots (c.node r) k) ∧ Loaded c k left got
  | .pairing _ s dev0 =>
    c.gated = true ∧ st.header (c.node r) = c.header (c.node r) ∧
      Seen c (st.slots (c.node r)) r s c.nranks ∧ s.seen = c.nranks ∧ c.nranks = 2 ∧ 0 ≤ s.devices.firstDev ∧
      ∀ dev ∈ dev0, dev = c.deviceId 0
  | .counted _ localSeen contiguous =>
    c.gated = true ∧ st.header (c.node r) = c.header (c.node r) ∧
      (localSeen = c.nranks →
        contiguous = c.contiguous ∧ ∀ j < c.nranks, c.node j = c.node r)
  | .decided exit allow => Leaves c r exit ∧ allow = c.verdict exit

variable (c) in
structure Sound (st : State) : Prop where
  published : ∀ n k, st.header n = c.header n → (st.slots n k).valid = true →
    c.node k = n ∧ Own c k (st.slots n k)
  phase : ∀ r, (st.phase r).Ok c st r
  first : ∀ r exit, st.first r = some exit →
    c.origin = .split true ∧ Leaves c r exit ∧ c.verdict exit = false

theorem Sound.init (h : Initial c st) : Sound c st := by
  refine ⟨fun n _ hn => absurd hn (h.header n), fun r => ?_, fun r _ hr => ?_⟩
  · rw [h.phase r]
    trivial
  · rw [h.first r] at hr
    cases hr

/-! ## Steps -/

variable (c) in
/-- What a step of rank `r` leaves alone. -/
structure Keeps (st st' : State) (r : ℕ) : Prop where
  header : ∀ n, st.header n = c.header n → st'.header n = c.header n
  own : ∀ n k, st.header n = c.header n → Own c k (st.slots n k) → Own c k (st'.slots n k)
  slot : ∀ n k, st.header n = c.header n → k ≠ r → st'.slots n k = st.slots n k
  phase : ∀ q ≠ r, st'.phase q = st.phase q
  first : ∀ q ≠ r, st'.first q = st.first q

theorem Seen.keep {s : Scan} (h : Seen c (st.slots (c.node q)) q s k) (hk : Keeps c st st' r)
    (hheader : st.header (c.node q) = c.header (c.node q)) :
    Seen c (st'.slots (c.node q)) q s k :=
  ⟨h.le, h.devices, h.node, fun heq j hj => hk.own _ _ hheader (h.own heq j hj)⟩

theorem Phase.Ok.keep {p : Phase} (h : p.Ok c st q) (hk : Keeps c st st' r) (hne : q ≠ r) :
    p.Ok c st' q := by
  cases p with
  | registering | resolving | decided => exact h
  | storing left =>
    obtain ⟨hheader, hsuffix, hwritten⟩ := h
    refine ⟨hk.header _ hheader, hsuffix, ?_⟩
    rw [hk.slot _ _ hheader hne]
    exact hwritten
  | polling => exact ⟨h.1, hk.header _ h.2⟩
  | scanning _ s k =>
    obtain ⟨hgated, hheader, hle, hseen⟩ := h
    exact ⟨hgated, hk.header _ hheader, hle, hseen.keep hk hheader⟩
  | loading _ s k got left =>
    obtain ⟨hgated, hheader, hlt, hseen, hnode, hown, hgot⟩ := h
    exact ⟨hgated, hk.header _ hheader, hlt, hseen.keep hk hheader, hnode,
      hk.own _ _ hheader hown, hgot⟩
  | pairing _ s dev0 =>
    obtain ⟨hgated, hheader, hseen, hrest⟩ := h
    exact ⟨hgated, hk.header _ hheader, hseen.keep hk hheader, hrest⟩
  | counted => exact ⟨h.1, hk.header _ h.2.1, h.2.2⟩

/-- A step of rank `r` that leaves the others alone. -/
theorem Sound.move (h : Sound c st) (hk : Keeps c st st' r)
    (hpublished : ∀ n k, st'.header n = c.header n → (st'.slots n k).valid = true →
      c.node k = n ∧ Own c k (st'.slots n k))
    (hphase : (st'.phase r).Ok c st' r)
    (hfirst : ∀ exit, st'.first r = some exit →
      c.origin = .split true ∧ Leaves c r exit ∧ c.verdict exit = false) : Sound c st' := by
  refine ⟨hpublished, fun q => ?_, fun q exit hq => ?_⟩
  · by_cases hqr : q = r
    · rw [hqr]
      exact hphase
    · rw [hk.phase q hqr]
      exact (h.phase q).keep hk hqr
  · by_cases hqr : q = r
    · rw [hqr] at hq ⊢
      exact hfirst exit hq
    · rw [hk.first q hqr] at hq
      exact h.first q exit hq

theorem Keeps.goto (p : Phase) : Keeps c st (st.goto r p) r :=
  ⟨fun _ h => h, fun _ _ _ h => h, fun _ _ _ _ => rfl, fun _ hq => Function.update_of_ne hq _ _,
    fun _ _ => rfl⟩

/-- The rank goes on without touching the table. -/
theorem Sound.goto {p : Phase} (h : Sound c st) (hp : p.Ok c st r) : Sound c (st.goto r p) := by
  refine h.move (Keeps.goto p) h.published ?_ (h.first r)
  have hphase : (st.goto r p).phase r = p := Function.update_self _ _ _
  rw [hphase]
  cases p <;> exact hp

theorem openMapping_header (n : ℕ) : (st.openMapping c n).header n = c.header n := by
  unfold State.openMapping
  split
  · assumption
  · exact Function.update_self _ _ _

/-- Only a table of something else is set to zero. -/
theorem Keeps.openMapping (n r : ℕ) : Keeps c st (st.openMapping c n) r := by
  unfold State.openMapping
  split
  · exact ⟨fun _ h => h, fun _ _ _ h => h, fun _ _ _ _ => rfl, fun _ _ => rfl, fun _ _ => rfl⟩
  · rename_i hother
    have hne : ∀ m, st.header m = c.header m → m ≠ n := by
      rintro m hm rfl
      exact hother hm
    refine ⟨fun m hm => ?_, fun m k hm hown => ?_, fun m k hm _ => ?_, fun _ _ => rfl,
      fun _ _ => rfl⟩
    · show Function.update st.header n _ m = _
      rw [Function.update_of_ne (hne m hm)]
      exact hm
    · show Own c k (Function.update st.slots n _ m k)
      rw [Function.update_of_ne (hne m hm)]
      exact hown
    · show Function.update st.slots n _ m k = _
      rw [Function.update_of_ne (hne m hm)]

theorem Sound.openMapping (h : Sound c st) (n : ℕ) : Sound c (st.openMapping c n) := by
  have hfirst : (st.openMapping c n).first = st.first := by
    unfold State.openMapping
    split <;> rfl
  have hphase : (st.openMapping c n).phase = st.phase := by
    unfold State.openMapping
    split <;> rfl
  refine ⟨fun m k hm hvalid => ?_, fun q => ?_, ?_⟩
  · unfold State.openMapping at hm hvalid ⊢
    split at hm
    · simp_all only [if_true]
      exact h.published m k hm hvalid
    · rename_i hother
      rw [if_neg hother] at hvalid ⊢
      by_cases hmn : m = n
      · subst hmn
        dsimp only at hvalid
        rw [Function.update_self] at hvalid
        cases hvalid
      · dsimp only at hm hvalid ⊢
        rw [Function.update_of_ne hmn] at hm hvalid ⊢
        exact h.published m k hm hvalid
  · rw [hphase]
    exact (h.phase q).keep (Keeps.openMapping n (q + 1)) (Nat.ne_of_lt (Nat.lt_succ_self q))
  · rw [hfirst]
    exact h.first

theorem Sound.store {f : Field} {left : List Field} {now : ℕ} (h : Sound c st)
    (hp : st.phase r = .storing (f :: left)) :
    Sound c ((st.storeSlot (c.node r) r (c.store r now (st.slots (c.node r) r) f)).goto r
      (.storing left)) := by
  have hok := h.phase r
  rw [hp] at hok
  obtain ⟨hheader, hsuffix, hwritten⟩ := hok
  have hslot : ∀ m k, (m = c.node r ∧ k = r) ∨
      Function.update st.slots (c.node r) (Function.update (st.slots (c.node r)) r
        (c.store r now (st.slots (c.node r) r) f)) m k = st.slots m k := by
    intro m k
    by_cases hm : m = c.node r
    · by_cases hk : k = r
      · exact .inl ⟨hm, hk⟩
      · subst hm
        rw [Function.update_self, Function.update_of_ne hk]
        exact .inr rfl
    · rw [Function.update_of_ne hm]
      exact .inr rfl
  have hself : Function.update st.slots (c.node r) (Function.update (st.slots (c.node r)) r
      (c.store r now (st.slots (c.node r) r) f)) (c.node r) r =
        c.store r now (st.slots (c.node r) r) f := by
    rw [Function.update_self, Function.update_self]
  refine h.move ⟨fun _ hm => hm, fun m k _ hown => ?_, fun m k _ hkr => ?_,
    fun q hq => Function.update_of_ne hq _ _, fun _ _ => rfl⟩ (fun m k hm hvalid => ?_) ?_
    (h.first r)
  · show Own c k (Function.update st.slots _ _ m k)
    rcases hslot m k with ⟨rfl, rfl⟩ | heq
    · rw [hself]
      exact hown.store now f
    · rw [heq]
      exact hown
  · rcases hslot m k with ⟨_, heq⟩ | heq
    · exact absurd heq hkr
    · exact heq
  · change (Function.update st.slots _ _ m k).valid = true at hvalid
    show _ ∧ Own c k (Function.update st.slots _ _ m k)
    rcases hslot m k with ⟨rfl, rfl⟩ | heq
    · rw [hself] at hvalid ⊢
      refine ⟨rfl, ?_⟩
      cases f with
      | publish => exact (hwritten.own hsuffix).store now _
      | invalidate => cases hvalid
      | commRank | pid | deviceId | timestamp => exact (h.published _ _ hm hvalid).2.store now _
    · rw [heq] at hvalid ⊢
      exact h.published m k hm hvalid
  · show Phase.Ok c _ r (Function.update st.phase r (.storing left) r)
    rw [Function.update_self]
    refine ⟨hheader, (List.suffix_cons f left).trans hsuffix, ?_⟩
    show Written c r left (Function.update st.slots _ _ (c.node r) r)
    rw [hself]
    exact hwritten.store now

/-- The node scope gives an answer. -/
theorem Sound.finish {exit : Exit} {allow : Bool} (h : Sound c st) (hleaves : Leaves c r exit)
    (hallow : allow = (decide (exit = .ungated) || decide (exit = .full) && c.contiguous)) :
    Sound c (st.finish c r exit allow) := by
  have hverdict : c.origin ≠ .split false → allow = c.verdict exit := by
    intro hne
    rw [CommScope.verdict, decide_eq_true hne, Bool.true_and]
    exact hallow
  unfold State.finish
  split
  · rename_i ho
    exact h.goto ⟨hleaves, hverdict (by rw [ho]; nofun)⟩
  · rename_i ho
    exact h.goto ⟨hleaves, hverdict (by rw [ho]; nofun)⟩
  · rename_i ho
    exact h.goto ⟨hleaves, by rw [CommScope.verdict, ho]; rfl⟩
  · rename_i ho hfirst
    obtain ⟨_, hleaves', hfalse⟩ := h.first r _ hfirst
    exact h.goto ⟨hleaves', hfalse.symm⟩
  · rename_i ho hfirst
    have heq := hverdict (by rw [ho]; nofun)
    split
    · rename_i hallow
      exact h.goto ⟨hleaves, by rw [← heq]; exact hallow.symm⟩
    · rename_i hrefused
      have hfalse : c.verdict exit = false := by
        rw [← heq]
        exact Bool.eq_false_iff.2 hrefused
      refine h.move ⟨fun _ hm => hm, fun _ _ _ hown => hown, fun _ _ _ _ => rfl,
        fun q hq => Function.update_of_ne hq _ _, fun q hq => Function.update_of_ne hq _ _⟩
        h.published ?_ fun exit' hexit => ?_
      · show Phase.Ok c _ r (Function.update st.phase r .registering r)
        rw [Function.update_self]
        trivial
      · change Function.update st.first r (some exit) r = some exit' at hexit
        rw [Function.update_self] at hexit
        cases hexit
        exact ⟨ho, hleaves, hfalse⟩

theorem contiguous_of_not_pair
    (h : ¬ (c.nranks = 2 ∧ 0 ≤ (c.devices c.nranks).firstDev)) :
    c.contiguous = (c.devices c.nranks).contiguous := by
  unfold CommScope.contiguous
  rw [if_neg fun hc => h ⟨hc.1, hc.2.1⟩]

/-- The rank does its next step. -/
theorem Sound.rank {ok : Bool} (h : Sound c st)
    (hstep : stepRank c st r ok = some st') : Sound c st' := by
  have hok := h.phase r
  unfold stepRank at hstep
  cases hp : st.phase r with
  | registering =>
    simp only [hp] at hstep
    split at hstep
    · rename_i hgate
      cases hstep
      exact h.finish ⟨⟨fun _ => hgate.1, fun _ => rfl⟩, nofun⟩ rfl
    · split at hstep <;> cases hstep
      · exact h.goto trivial
      · exact (h.openMapping _).goto ⟨openMapping_header _, List.suffix_rfl, .start _⟩
  | storing left =>
    cases left with
    | nil =>
      simp only [hp] at hstep
      cases hstep
      exact h.goto trivial
    | cons f left =>
      simp only [hp] at hstep
      cases hstep
      exact h.store hp
  | resolving =>
    simp only [hp] at hstep
    split at hstep
    · rename_i hgate
      cases hstep
      exact h.finish ⟨⟨fun _ => hgate, fun _ => rfl⟩, nofun⟩ rfl
    · rename_i hgate
      have hgated : c.gated = true := by simpa using hgate
      split at hstep <;> cases hstep
      · exact h.finish ⟨⟨nofun, fun hno => absurd hno hgate⟩, nofun⟩ rfl
      · exact (h.openMapping _).goto ⟨hgated, openMapping_header _⟩
  | polling deadline contiguous =>
    simp only [hp] at hstep
    rw [hp] at hok
    obtain ⟨hgated, hheader⟩ := hok
    split at hstep <;> cases hstep
    · rename_i hother
      rw [hheader] at hother
      exact absurd hother (by simp [CommScope.header])
    · exact h.goto ⟨hgated, hheader, Nat.zero_le _, .start _⟩
  | scanning deadline s k =>
    simp only [hp] at hstep
    rw [hp] at hok
    obtain ⟨hgated, hheader, hle, hseen⟩ := hok
    split at hstep
    · rename_i hk
      split at hstep <;> cases hstep
      · rename_i hvalid
        obtain ⟨hnode, hown⟩ := h.published _ _ hheader hvalid
        exact h.goto ⟨hgated, hheader, hk, hseen, hnode, hown, .start _⟩
      · exact h.goto ⟨hgated, hheader, hk, hseen.skip⟩
    · rename_i hk
      obtain rfl : k = c.nranks := Nat.le_antisymm hle (Nat.le_of_not_lt hk)
      split at hstep <;> cases hstep
      · rename_i hpair
        exact h.goto ⟨hgated, hheader, hseen, hpair.1, hpair.2.1, hpair.2.2, nofun⟩
      · rename_i hpair
        refine h.goto ⟨hgated, hheader, fun heq => ⟨?_, hseen.node heq⟩⟩
        rw [if_pos heq, hseen.devices heq, contiguous_of_not_pair]
        intro hc
        rw [← hseen.devices heq] at hc
        exact hpair ⟨heq, hc⟩
  | loading deadline s k got left =>
    rw [hp] at hok
    obtain ⟨hgated, hheader, hlt, hseen, hnode, hown, hgot⟩ := hok
    cases left with
    | nil =>
      simp only [hp] at hstep
      cases hstep
      exact h.goto ⟨hgated, hheader, hlt, hseen.tally hnode hown (hgot.deviceId (by simp))⟩
    | cons f left =>
      simp only [hp] at hstep
      cases hstep
      exact h.goto ⟨hgated, hheader, hlt, hseen, hnode, hown, hgot.load hown⟩
  | pairing deadline s dev0 =>
    rw [hp] at hok
    obtain ⟨hgated, hheader, hseen, hall, htwo, hfirst, hdev⟩ := hok
    cases dev0 with
    | none =>
      simp only [hp] at hstep
      cases hstep
      refine h.goto ⟨hgated, hheader, hseen, hall, htwo, hfirst, fun dev hdev => ?_⟩
      cases hdev
      exact (hseen.own hall 0 c.nranks_pos).deviceId
    | some dev0 =>
      simp only [hp] at hstep
      cases hstep
      refine h.goto ⟨hgated, hheader, fun heq => ⟨?_, hseen.node heq⟩⟩
      have hown := (hseen.own heq 1 (by omega)).deviceId
      have hdevices := hseen.devices heq
      rw [hown, hdev dev0 rfl, CommScope.contiguous, ← hdevices]
      by_cases hapart : apart (c.deviceId 0) (c.deviceId 1) = true
      · rw [if_pos hapart, if_pos ⟨htwo, hfirst, hapart⟩]
      · rw [if_neg hapart, if_neg fun hc => hapart hc.2.2]
  | counted deadline localSeen contiguous =>
    simp only [hp] at hstep
    rw [hp] at hok
    obtain ⟨hgated, hheader, hfull⟩ := hok
    split at hstep
    · rename_i hseen
      cases hstep
      obtain ⟨hcontiguous, hnode⟩ := hfull hseen
      refine h.finish ⟨⟨nofun, fun hno => ?_⟩, fun _ => hnode⟩ ?_
      · rw [hgated] at hno
        cases hno
      · rw [hcontiguous]
        rfl
    · split at hstep <;> cases hstep
      · refine h.finish ⟨⟨nofun, fun hno => ?_⟩, nofun⟩ rfl
        rw [hgated] at hno
        cases hno
      · exact h.goto ⟨hgated, hheader⟩
  | decided exit allow =>
    simp only [hp] at hstep
    cases hstep

theorem Sound.step {l : Label} (h : Sound c st) (hstep : step c st l = some st') :
    Sound c st' := by
  cases l with
  | rank r ok =>
    change (if r < c.nranks then stepRank c st r ok else none) = some st' at hstep
    by_cases hr : r < c.nranks
    · rw [if_pos hr] at hstep
      exact h.rank hstep
    · rw [if_neg hr] at hstep
      cases hstep
  | world n elapsed alive =>
    cases hstep
    refine ⟨h.published, fun r => ?_, h.first⟩
    have hok := h.phase r
    dsimp only
    cases hp : st.phase r <;> rw [hp] at hok <;> exact hok

theorem Sound.run {st₀ : State} {ls : List Label} (h : Initial c st₀)
    (hrun : (machine c).runFrom Theory.Machine.anyStep st₀ ls = some st) : Sound c st :=
  (machine c).invariant (I := Sound c) (fun _ _ _ hs _ hstep => hs.step hstep) (Sound.init h) hrun

/-! ## The decisions -/

/-- The ranks that have decided have decided the same. -/
def CommScope.Agree (c : CommScope) (st : State) : Prop :=
  ∀ r < c.nranks, ∀ q < c.nranks, ∀ exit exit' allow allow', st.phase r = .decided exit allow →
    st.phase q = .decided exit' allow' → allow = allow'

def State.Decided (st : State) (r : ℕ) : Prop := ∃ exit allow, st.phase r = .decided exit allow

/-- The rank has decided because its wait was over, or because it has no table. -/
def State.GaveUp (st : State) (r : ℕ) : Prop :=
  ∃ exit allow, st.phase r = .decided exit allow ∧ (exit = .deadline ∨ exit = .unmapped)

/-- The table has a say, and the devices would be accepted. -/
def CommScope.Eligible (c : CommScope) : Prop :=
  c.gated = true ∧ c.origin ≠ .split false ∧ c.contiguous = true

/-- For a communicator that is not eligible the table makes no difference. -/
theorem verdict_of_not_eligible {exit exit' : Exit} (h : ¬ c.Eligible) (hr : Leaves c r exit)
    (hq : Leaves c q exit') : c.verdict exit = c.verdict exit' := by
  unfold CommScope.verdict
  by_cases horigin : c.origin = .split false
  · simp [horigin]
  · by_cases hgated : c.gated = true
    · have hcontiguous : c.contiguous = false := by
        by_contra hc
        exact h ⟨hgated, horigin, by simpa using hc⟩
      have hungated : ∀ {p : ℕ} {e : Exit}, Leaves c p e → e ≠ .ungated := by
        rintro p e he rfl
        rw [he.ungated.1 rfl] at hgated
        cases hgated
      simp [hcontiguous, hungated hr, hungated hq]
    · have hno : c.gated = false := by simpa using hgated
      rw [hr.ungated.2 hno, hq.ungated.2 hno]

/-- For an eligible one, a rank decides for the hybrid path unless it gives up. -/
theorem Sound.allow_iff {exit : Exit} {allow : Bool} (h : Sound c st) (hc : c.Eligible)
    (hr : st.phase r = .decided exit allow) : allow = true ↔ ¬ st.GaveUp r := by
  have hok := h.phase r
  rw [hr] at hok
  obtain ⟨hleaves, rfl⟩ := hok
  obtain ⟨hgated, horigin, hcontiguous⟩ := hc
  have hverdict : c.verdict exit = (decide (exit = .ungated) || decide (exit = .full)) := by
    simp [CommScope.verdict, horigin, hcontiguous]
  have hgave : st.GaveUp r ↔ exit = .deadline ∨ exit = .unmapped := by
    constructor
    · rintro ⟨exit', allow', hr', hexit⟩
      rw [hr] at hr'
      cases hr'
      exact hexit
    · intro hexit
      exact ⟨_, _, hr, hexit⟩
  rw [hgave, hverdict]
  cases exit <;> simp

/-- A rank that sees all the others has them on its own node. -/
theorem allow_same_node {st₀ : State} {ls : List Label} (hinit : Initial c st₀)
    (hrun : (machine c).runFrom Theory.Machine.anyStep st₀ ls = some st) (hgated : c.gated = true)
    {exit : Exit} (hr : st.phase r = .decided exit true) : ∀ j < c.nranks, c.node j = c.node r := by
  have hok := (Sound.run hinit hrun).phase r
  rw [hr] at hok
  obtain ⟨hleaves, hverdict⟩ := hok
  have hungated : exit ≠ .ungated := by
    rintro rfl
    rw [hleaves.ungated.1 rfl] at hgated
    cases hgated
  have hfull : exit = .full := by
    simp [CommScope.verdict, hungated] at hverdict
    exact hverdict.2.1
  exact hleaves.node hfull

/-! ## A rank gives up -/

/-- Two ranks of one node with devices 0 and 1, and the default wait. -/
def pair : CommScope where
  nranks := 2
  nranks_pos := Nat.two_pos
  commHash := 7
  origin := .initRank
  gated := true
  node := fun _ => 0
  nodeHash := fun _ => 0
  pid := fun r => 100 + r
  deviceId := fun r => r
  waitMs := fun _ => 200

def fresh : State where
  header := fun _ => ⟨0, 0, 0, 0⟩
  slots := fun _ _ => .zero
  clock := fun _ => 5
  alive := fun _ _ => true
  phase := fun _ => .registering
  first := fun _ => none

theorem fresh_initial : Initial pair fresh :=
  ⟨fun _ => by simp [fresh, pair, CommScope.header, kMagic], fun _ => rfl, fun _ => rfl⟩

/-- Rank 0 registers and looks, 200 ms pass, it gives up; then rank 1 does all it does. -/
def lateRun : List Label :=
  List.replicate 18 (.rank 0 true) ++ .world 0 200000000 (fun _ => true) ::
    .rank 0 true :: List.replicate 26 (.rank 1 true)

/-- Both ranks register before the first looks. -/
def timelyRun : List Label :=
  List.replicate 8 (.rank 0 true) ++ List.replicate 8 (.rank 1 true) ++
    List.replicate 18 (.rank 0 true) ++ List.replicate 18 (.rank 1 true)

end NodeScope
end Orchestrator
end HyLink
