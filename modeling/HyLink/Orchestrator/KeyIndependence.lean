import Mathlib.Tactic.Linarith
import HyLink.Orchestrator.Controller
import HyLink.Theory.Cells
import HyLink.Theory.Machine

/-!
# The keys of a controller are independent

The controller and the parameter cache are two hash tables, over one equality and one hash of keys.
Threads call `SuggestAlpha` and `Update`, which hold the mutex of the controller and look into the
cache under a mutex of its own, and read the cache at any time.

* `OpKey.equals_iff`, `OpKey.hash_eq` — the equality is one of what the keys identify, and equal
  keys have one hash.
* `Hashed.step` — the calls over the hash tables, one critical section at a time.
* `replay` — the calls one after another, each at once.
* `Inv` — the hash tables hold what the calls have made of them one after another.
* `key_independence` — what is stored for a key, and what is returned for it, is decided by the calls
  with an equal key.
-/

namespace HyLink
namespace Orchestrator
namespace Feedback

open Theory

/-! ## The equality and the hash of keys -/

namespace OpKey

/-- `OpKey::operator==`. -/
def equals (key other : OpKey) : Bool :=
  decide (key.op = other.op) && decide (key.paramBytes = other.paramBytes) &&
    decide (key.datatype = other.datatype) && decide (key.nranks = other.nranks) &&
    decide (key.topologyHash = other.topologyHash)

end OpKey

/-- `static_cast<int>` of the enumerator. -/
def CollectiveType.toInt : CollectiveType → ℕ
  | .allReduce => 0
  | .allGather => 1
  | .reduceScatter => 2
  | .allToAll => 3

/-- `std::hash<int>`, and `std::hash` of the two wide types. -/
structure StdHash where
  int : ℕ → UInt64
  size : ℕ → UInt64

/-- `std::hash<ampccl::OpKey>`. -/
def OpKey.hash (h : StdHash) (key : OpKey) : UInt64 :=
  let h1 := h.int key.op.toInt
  let h2 := h.size key.paramBytes
  let h3 := h.int key.datatype
  let h4 := h.int key.nranks
  let h5 := h.size key.topologyHash
  h1 ^^^ (h2 <<< 1) ^^^ (h3 <<< 2) ^^^ (h4 <<< 3) ^^^ (h5 <<< 4)

theorem OpKey.equals_iff {key other : OpKey} :
    key.equals other = true ↔ key.ident = other.ident := by
  unfold OpKey.equals OpKey.ident
  simp [and_assoc]

/-- **Equal keys have one hash.** -/
theorem OpKey.hash_eq (h : StdHash) {key other : OpKey} (heq : key.equals other = true) :
    key.hash h = other.hash h := by
  have hident := OpKey.equals_iff.1 heq
  unfold OpKey.ident at hident
  obtain ⟨hop, hbytes, hdatatype, hnranks, htopology⟩ := KeyIdent.mk.inj hident
  unfold OpKey.hash
  rw [hop, hbytes, hdatatype, hnranks, htopology]

/-- A key as the hash tables take it. -/
structure HashedKey (h : StdHash) where
  key : OpKey

section HashedKey

variable {h : StdHash}

instance : BEq (HashedKey h) := ⟨fun a b => a.key.equals b.key⟩

instance : Hashable (HashedKey h) := ⟨fun a => a.key.hash h⟩

theorem HashedKey.beq_iff {a b : HashedKey h} : (a == b) = true ↔ a.key.ident = b.key.ident :=
  OpKey.equals_iff

instance : EquivBEq (HashedKey h) where
  rfl := HashedKey.beq_iff.2 rfl
  symm hab := HashedKey.beq_iff.2 (HashedKey.beq_iff.1 hab).symm
  trans hab hbc := HashedKey.beq_iff.2 ((HashedKey.beq_iff.1 hab).trans (HashedKey.beq_iff.1 hbc))

instance : LawfulHashable (HashedKey h) where
  hash_eq _ _ hab := OpKey.hash_eq h hab

end HashedKey

/-- `std::unordered_map<OpKey, V>`.  Which of several equal keys an entry keeps is not looked at. -/
abbrev KeyMap (h : StdHash) (V : Type) := Std.HashMap (HashedKey h) V

/-! ## The calls, one after another -/

namespace Keyed

variable {K : Type} [Field K] [LinearOrder K] {A : AdaptiveAlgo K}

inductive Call (K : Type)
  | suggest (key : OpKey)
  | update (key : OpKey) (stat : ExecStat K)
  /-- `Lookup` of the cache. -/
  | read (key : OpKey)

def Call.key : Call K → OpKey
  | .suggest key => key
  | .update key _ => key
  | .read key => key

/-- What a call returns. -/
inductive Result (K : Type)
  | alpha (alpha : K)
  | updated
  | value (value : ParamValue K)

/-- `algorithms_` and the parameter cache. -/
structure Tables (A : AdaptiveAlgo K) where
  controller : Controller A
  cache : ParamCache K

def Tables.empty : Tables A := ⟨Table.empty, Table.empty⟩

variable (pcieEnabled : Bool)

/-- A call that nothing interrupts. -/
def Tables.call (t : Tables A) : Call K → Result K × Tables A
  | .suggest key =>
    let (alpha, controller) := Controller.suggestAlpha t.controller key t.cache
    (.alpha alpha, { t with controller := controller })
  | .update key stat =>
    let (cache, controller) := Controller.update pcieEnabled t.controller key stat t.cache
    (.updated, ⟨controller, cache⟩)
  | .read key => (.value (t.cache.lookup key), t)

/-- The calls with their results, and the tables after them. -/
def replay (calls : List (Call K)) : List (Call K × Result K) × Tables A :=
  runs (Tables.call pcieEnabled) Tables.empty calls

/-! ## The calls over the hash tables -/

namespace Hashed

variable (A) (h : StdHash)

/-- Where the thread that holds the mutex of the controller is; it has found or created the
algorithm of the key. -/
inductive Job (K : Type)
  | suggest (key : OpKey)
  /-- `Contains` was true. -/
  | suggestHit (key : OpKey)
  | update (key : OpKey) (stat : ExecStat K)
  /-- `Lookup` has returned `prev`. -/
  | updateFound (key : OpKey) (stat : ExecStat K) (prev : ParamValue K)

def Job.key : Job K → OpKey
  | .suggest key => key
  | .suggestHit key => key
  | .update key _ => key
  | .updateFound key _ _ => key

structure State where
  algorithms : KeyMap h A.State
  table : KeyMap h (ParamValue K)
  /-- The thread that holds `mutex_` of the controller. -/
  holder : Option (ℕ × Job K)
  /-- The calls that have returned. -/
  log : List (Call K × Result K)

inductive Label (K : Type)
  /-- Thread `t` enters `SuggestAlpha`. -/
  | suggest (t : ℕ) (key : OpKey)
  | update (t : ℕ) (key : OpKey) (stat : ExecStat K)
  /-- The thread that holds the mutex goes on, up to the next access to the cache. -/
  | go (t : ℕ)
  /-- Any thread reads the cache. -/
  | read (key : OpKey)

variable {A} {h}

/-- `GetOrCreateAlgoLocked`. -/
def getOrCreate (algorithms : KeyMap h A.State) (key : OpKey) : KeyMap h A.State :=
  algorithms.insertIfNew ⟨key⟩ A.initial

/-- The algorithm the reference of `GetOrCreateAlgoLocked` points to. -/
def algo (st : State A h) (key : OpKey) : A.State :=
  (st.algorithms[(⟨key⟩ : HashedKey h)]?).getD A.initial

/-- `Lookup`. -/
def lookup (st : State A h) (key : OpKey) : ParamValue K :=
  (st.table[(⟨key⟩ : HashedKey h)]?).getD .unknown

/-- The thread gives back the mutex and returns. -/
def State.finish (st : State A h) (call : Call K) (result : Result K) : State A h :=
  { st with holder := none, log := st.log ++ [(call, result)] }

/-- What the holder does next. -/
def advance (st : State A h) (t : ℕ) : Job K → State A h
  | .suggest key =>
    if st.table.contains ⟨key⟩ then { st with holder := some (t, .suggestHit key) }
    else st.finish (.suggest key) (.alpha (A.alpha (algo st key)))
  | .suggestHit key =>
    let s := A.suggest (lookup st key) (algo st key)
    { st with algorithms := st.algorithms.insert ⟨key⟩ s }.finish (.suggest key) (.alpha (A.alpha s))
  | .update key stat => { st with holder := some (t, .updateFound key stat (lookup st key)) }
  | .updateFound key stat prev =>
    let s := A.update stat (algo st key)
    { st with
      algorithms := st.algorithms.insert ⟨key⟩ s
      table := st.table.insert ⟨key⟩ (Controller.updated pcieEnabled stat s prev) }.finish
        (.update key stat) .updated

def step (st : State A h) : Label K → Option (State A h)
  | .suggest t key =>
    if st.holder.isNone then
      some { st with
        algorithms := getOrCreate st.algorithms key
        holder := some (t, .suggest key) }
    else none
  | .update t key stat =>
    if st.holder.isNone then
      some { st with
        algorithms := getOrCreate st.algorithms key
        holder := some (t, .update key stat) }
    else none
  | .go t =>
    match st.holder with
    | some (t', job) => if t' = t then some (advance pcieEnabled st t job) else none
    | none => none
  | .read key => some { st with log := st.log ++ [(.read key, .value (lookup st key))] }

def machine : Machine (State A h) (Label K) := ⟨step pcieEnabled⟩

def start : State A h := ⟨∅, ∅, none, []⟩

/-! ## What the hash tables hold -/

variable {pcieEnabled}

/-- The calls that have returned, each at once. -/
def State.replayed (pcieEnabled : Bool) (st : State A h) :
    List (Call K × Result K) × Tables A :=
  replay pcieEnabled (st.log.map Prod.fst)

/-- The hash tables are those of the replay, but for the algorithm that the holder has created. -/
structure Inv (pcieEnabled : Bool) (st : State A h) : Prop where
  log : (st.replayed pcieEnabled).1 = st.log
  table : ∀ key, st.table[(⟨key⟩ : HashedKey h)]? =
    Table.find (st.replayed pcieEnabled).2.cache key
  algorithms : ∀ key, (∀ t job, st.holder = some (t, job) → job.key.ident ≠ key.ident) →
    st.algorithms[(⟨key⟩ : HashedKey h)]? = Table.find (st.replayed pcieEnabled).2.controller key
  created : ∀ t job, st.holder = some (t, job) → ∀ key, job.key.ident = key.ident →
    st.algorithms[(⟨key⟩ : HashedKey h)]? =
      some ((st.replayed pcieEnabled).2.controller.getOrCreate key)
  hit : ∀ t key, st.holder = some (t, .suggestHit key) → st.table.contains ⟨key⟩ = true
  found : ∀ t key stat prev, st.holder = some (t, .updateFound key stat prev) →
    prev = lookup st key

variable {st st' : State A h} {key other : OpKey}

theorem getElem?_insert_key {V : Type} (m : KeyMap h V) (v : V) :
    (m.insert ⟨key⟩ v)[(⟨other⟩ : HashedKey h)]? =
      if key.ident = other.ident then some v else m[(⟨other⟩ : HashedKey h)]? := by
  rw [Std.HashMap.getElem?_insert]
  exact if_congr HashedKey.beq_iff rfl rfl

theorem getElem?_congr_key {V : Type} (m : KeyMap h V) (hident : key.ident = other.ident) :
    m[(⟨key⟩ : HashedKey h)]? = m[(⟨other⟩ : HashedKey h)]? :=
  Std.HashMap.getElem?_congr (HashedKey.beq_iff.2 hident)

theorem find_set {V : Type} (t : Table V) (v : V) :
    Table.find (Table.set t key v) other =
      if key.ident = other.ident then some v else Table.find t other := by
  show Function.update t key.ident (some v) other.ident = _
  by_cases hident : key.ident = other.ident
  · rw [if_pos hident, hident, Function.update_self]
  · rw [if_neg hident, Function.update_of_ne (Ne.symm hident)]
    rfl

theorem find_congr {V : Type} (t : Table V) (hident : key.ident = other.ident) :
    Table.find t key = Table.find t other := congrArg t hident

theorem Inv.lookup (hinv : Inv pcieEnabled st) (key : OpKey) :
    lookup st key = (st.replayed pcieEnabled).2.cache.lookup key := by
  show Option.getD _ _ = Option.getD _ _
  rw [hinv.table]

/-- The holder's algorithm is the one of the replay. -/
theorem Inv.algo {t : ℕ} {job : Job K} (hinv : Inv pcieEnabled st)
    (hholder : st.holder = some (t, job)) :
    algo st job.key = (st.replayed pcieEnabled).2.controller.getOrCreate job.key := by
  show Option.getD _ _ = _
  rw [hinv.created t job hholder job.key rfl]
  rfl

/-- A call returns: the replay goes on by it. -/
theorem replayed_finish (st : State A h) (call : Call K) (result : Result K) :
    (st.finish call result).replayed pcieEnabled =
      ((st.replayed pcieEnabled).1 ++
          [(call, ((st.replayed pcieEnabled).2.call pcieEnabled call).1)],
        ((st.replayed pcieEnabled).2.call pcieEnabled call).2) := by
  show replay pcieEnabled ((st.log ++ [(call, result)]).map Prod.fst) = _
  rw [List.map_append]
  exact runs_snoc _ _ _ _

theorem contains_key {V : Type} (m : KeyMap h V) (key : OpKey) :
    m.contains ⟨key⟩ = (m[(⟨key⟩ : HashedKey h)]?).isSome :=
  Std.HashMap.contains_eq_isSome_getElem?

/-- A thread enters, and finds or creates the algorithm of its key. -/
theorem Inv.enter {t : ℕ} (job : Job K) (hinv : Inv pcieEnabled st) (hfree : st.holder = none)
    (hhit : ∀ key, job ≠ .suggestHit key)
    (hfound : ∀ key stat prev, job ≠ .updateFound key stat prev) :
    Inv pcieEnabled { st with
      algorithms := getOrCreate st.algorithms job.key
      holder := some (t, job) } := by
  have hall : ∀ key, st.algorithms[(⟨key⟩ : HashedKey h)]? =
      Table.find (st.replayed pcieEnabled).2.controller key := by
    intro key
    refine hinv.algorithms key fun t job hholder => ?_
    rw [hfree] at hholder
    cases hholder
  have hget : ∀ key, (getOrCreate st.algorithms job.key)[(⟨key⟩ : HashedKey h)]? =
      if job.key.ident = key.ident then
        some ((st.replayed pcieEnabled).2.controller.getOrCreate key)
      else st.algorithms[(⟨key⟩ : HashedKey h)]? := by
    intro key
    unfold getOrCreate
    rw [Std.HashMap.getElem?_insertIfNew]
    by_cases hident : job.key.ident = key.ident
    · have hbeq : ((⟨job.key⟩ : HashedKey h) == ⟨key⟩) = true := HashedKey.beq_iff.2 hident
      have hmem : (⟨job.key⟩ : HashedKey h) ∈ st.algorithms ↔
          (Table.find (st.replayed pcieEnabled).2.controller key).isSome = true := by
        rw [← Std.HashMap.contains_iff_mem, contains_key, getElem?_congr_key _ hident, hall key]
      rw [if_pos hident, hall key]
      unfold Controller.getOrCreate
      cases hfind : Table.find (st.replayed pcieEnabled).2.controller key with
      | none =>
        rw [hfind] at hmem
        exact if_pos ⟨hbeq, fun hin => absurd (hmem.1 hin) Bool.false_ne_true⟩
      | some s =>
        rw [hfind] at hmem
        exact if_neg fun hcond => hcond.2 (hmem.2 rfl)
    · rw [if_neg hident, if_neg]
      intro hcond
      exact hident (HashedKey.beq_iff.1 hcond.1)
  refine ⟨hinv.log, hinv.table, fun key hnot => ?_, fun t' job' hholder key hident => ?_,
    fun t' key hholder => ?_, fun t' key stat prev hholder => ?_⟩
  · show (getOrCreate st.algorithms job.key)[(⟨key⟩ : HashedKey h)]? = _
    rw [hget, if_neg (hnot t job rfl)]
    exact hall key
  · obtain ⟨rfl, rfl⟩ := Prod.mk.inj (Option.some.inj hholder)
    show (getOrCreate st.algorithms job.key)[(⟨key⟩ : HashedKey h)]? = _
    rw [hget, if_pos hident]
    rfl
  · exact absurd (Prod.mk.inj (Option.some.inj hholder)).2 (hhit key)
  · exact absurd (Prod.mk.inj (Option.some.inj hholder)).2 (hfound key stat prev)

/-- The holder goes on within its call. -/
theorem Inv.hold {t t' : ℕ} {job job' : Job K} (hinv : Inv pcieEnabled st)
    (hholder : st.holder = some (t, job)) (hkey : job'.key = job.key)
    (hhit : ∀ key, job' = .suggestHit key → st.table.contains ⟨key⟩ = true)
    (hfound : ∀ key stat prev, job' = .updateFound key stat prev → prev = Hashed.lookup st key) :
    Inv pcieEnabled { st with holder := some (t', job') } := by
  refine ⟨hinv.log, hinv.table, fun key hnot => hinv.algorithms key ?_,
    fun t'' job'' hnew key hident => ?_, fun t'' key hnew => ?_, fun t'' key stat prev hnew => ?_⟩
  · intro t'' job'' hold
    rw [hholder] at hold
    obtain ⟨-, rfl⟩ := Prod.mk.inj (Option.some.inj hold)
    rw [← hkey]
    exact hnot t' job' rfl
  · obtain ⟨-, rfl⟩ := Prod.mk.inj (Option.some.inj hnew)
    rw [hkey] at hident
    exact hinv.created t job hholder key hident
  · exact hhit key (Prod.mk.inj (Option.some.inj hnew)).2
  · exact hfound key stat prev (Prod.mk.inj (Option.some.inj hnew)).2

/-- A call returns, and has done to the hash tables what it does at once. -/
theorem Inv.finish {call : Call K} {result : Result K} {algorithms : KeyMap h A.State}
    {table : KeyMap h (ParamValue K)} (hinv : Inv pcieEnabled st)
    (hresult : result = ((st.replayed pcieEnabled).2.call pcieEnabled call).1)
    (htable : ∀ key, table[(⟨key⟩ : HashedKey h)]? =
      Table.find ((st.replayed pcieEnabled).2.call pcieEnabled call).2.cache key)
    (halgorithms : ∀ key, algorithms[(⟨key⟩ : HashedKey h)]? =
      Table.find ((st.replayed pcieEnabled).2.call pcieEnabled call).2.controller key) :
    Inv pcieEnabled ({ st with algorithms := algorithms, table := table }.finish call result) := by
  have hreplayed : ({ st with algorithms := algorithms, table := table }.finish call result).replayed
      pcieEnabled = ((st.replayed pcieEnabled).1 ++
        [(call, ((st.replayed pcieEnabled).2.call pcieEnabled call).1)],
      ((st.replayed pcieEnabled).2.call pcieEnabled call).2) := replayed_finish st call result
  refine ⟨?_, fun key => ?_, fun key _ => ?_, nofun, nofun, nofun⟩
  · rw [hreplayed, hinv.log, ← hresult]
    rfl
  · rw [hreplayed]
    exact htable key
  · rw [hreplayed]
    exact halgorithms key

/-- The algorithms of the other keys are those of the replay. -/
theorem Inv.untouched {t : ℕ} {job : Job K} (hinv : Inv pcieEnabled st)
    (hholder : st.holder = some (t, job)) (hne : job.key.ident ≠ key.ident) :
    st.algorithms[(⟨key⟩ : HashedKey h)]? =
      Table.find (st.replayed pcieEnabled).2.controller key := by
  refine hinv.algorithms key fun t' job' hholder' => ?_
  rw [hholder] at hholder'
  obtain ⟨-, rfl⟩ := Prod.mk.inj (Option.some.inj hholder')
  exact hne

theorem Inv.advance {t : ℕ} {job : Job K} (hinv : Inv pcieEnabled st)
    (hholder : st.holder = some (t, job)) : Inv pcieEnabled (advance pcieEnabled st t job) := by
  have halgo := hinv.algo hholder
  cases job with
  | suggest key =>
    by_cases hcontains : st.table.contains ⟨key⟩ = true
    · simp only [Hashed.advance, if_pos hcontains]
      refine hinv.hold hholder rfl (fun key' heq => ?_) nofun
      cases heq
      exact hcontains
    · simp only [Hashed.advance, if_neg hcontains]
      have hmiss : Table.find (st.replayed pcieEnabled).2.cache key = none := by
        rw [contains_key, hinv.table] at hcontains
        simpa using hcontains
      have hcall : (st.replayed pcieEnabled).2.call pcieEnabled (.suggest key) =
          (.alpha (A.alpha ((st.replayed pcieEnabled).2.controller.getOrCreate key)),
            ⟨Table.set (st.replayed pcieEnabled).2.controller key
              ((st.replayed pcieEnabled).2.controller.getOrCreate key),
              (st.replayed pcieEnabled).2.cache⟩) := by
        simp only [Tables.call, Controller.suggestAlpha, hmiss]
      refine hinv.finish ?_ (fun other => ?_) fun other => ?_
      · rw [hcall]
        exact congrArg (fun s => Result.alpha (A.alpha s)) halgo
      · rw [hcall]
        exact hinv.table other
      · rw [hcall, find_set]
        split
        · rename_i hident
          rw [hinv.created t _ hholder other hident]
          unfold Controller.getOrCreate
          rw [find_congr _ hident]
        · rename_i hident
          exact hinv.untouched hholder hident
  | suggestHit key =>
    have hcontains := hinv.hit t key hholder
    rw [contains_key, hinv.table] at hcontains
    obtain ⟨current, hcurrent⟩ := Option.isSome_iff_exists.1 hcontains
    have hlookup : Hashed.lookup st key = current := by
      rw [hinv.lookup]
      unfold ParamCache.lookup
      rw [hcurrent]
      rfl
    have hcall : (st.replayed pcieEnabled).2.call pcieEnabled (.suggest key) =
        (.alpha (A.alpha (A.suggest current ((st.replayed pcieEnabled).2.controller.getOrCreate key))),
          ⟨Table.set (st.replayed pcieEnabled).2.controller key
            (A.suggest current ((st.replayed pcieEnabled).2.controller.getOrCreate key)),
            (st.replayed pcieEnabled).2.cache⟩) := by
      simp only [Tables.call, Controller.suggestAlpha, hcurrent]
    simp only [Hashed.advance, hlookup]
    change Hashed.algo st key = _ at halgo
    rw [halgo]
    refine hinv.finish ?_ (fun other => ?_) fun other => ?_
    · rw [hcall]
      rfl
    · rw [hcall]
      exact hinv.table other
    · rw [hcall, find_set, getElem?_insert_key]
      split
      · rfl
      · rename_i hident
        exact hinv.untouched hholder hident
  | update key stat =>
    simp only [Hashed.advance]
    refine hinv.hold hholder rfl nofun fun key' stat' prev heq => ?_
    cases heq
    rfl
  | updateFound key stat prev =>
    have hprev := hinv.found t key stat prev hholder
    rw [hinv.lookup] at hprev
    have hcall : (st.replayed pcieEnabled).2.call pcieEnabled (.update key stat) =
        (.updated,
          ⟨Table.set (st.replayed pcieEnabled).2.controller key
            (A.update stat ((st.replayed pcieEnabled).2.controller.getOrCreate key)),
          Table.set (st.replayed pcieEnabled).2.cache key
            (Controller.updated pcieEnabled stat
              (A.update stat ((st.replayed pcieEnabled).2.controller.getOrCreate key)) prev)⟩) := by
      simp only [Tables.call, Controller.update, hprev]
    simp only [Hashed.advance]
    change Hashed.algo st key = _ at halgo
    rw [halgo]
    refine hinv.finish ?_ (fun other => ?_) fun other => ?_
    · rw [hcall]
    · rw [hcall, find_set, getElem?_insert_key]
      split
      · rfl
      · exact hinv.table other
    · rw [hcall, find_set, getElem?_insert_key]
      split
      · rfl
      · rename_i hident
        exact hinv.untouched hholder hident

theorem Inv.step {l : Label K} (hinv : Inv pcieEnabled st)
    (hst : step pcieEnabled st l = some st') : Inv pcieEnabled st' := by
  cases l with
  | suggest t key =>
    simp only [Hashed.step] at hst
    split at hst <;> cases hst
    rename_i hfree
    exact hinv.enter (.suggest key) (Option.isNone_iff_eq_none.1 hfree) nofun nofun
  | update t key stat =>
    simp only [Hashed.step] at hst
    split at hst <;> cases hst
    rename_i hfree
    exact hinv.enter (.update key stat) (Option.isNone_iff_eq_none.1 hfree) nofun nofun
  | go t =>
    simp only [Hashed.step] at hst
    split at hst
    · rename_i t' job hholder
      split at hst <;> cases hst
      rename_i ht
      subst ht
      exact hinv.advance hholder
    · cases hst
  | read key =>
    cases hst
    have hreplayed : State.replayed pcieEnabled
        { st with log := st.log ++ [(.read key, .value (Hashed.lookup st key))] } =
          ((st.replayed pcieEnabled).1 ++
            [(.read key, .value ((st.replayed pcieEnabled).2.cache.lookup key))],
          (st.replayed pcieEnabled).2) :=
      replayed_finish st (.read key) (.value (Hashed.lookup st key))
    refine ⟨?_, fun other => ?_, fun other hnot => ?_, fun t job hholder other hident => ?_,
      hinv.hit, hinv.found⟩
    · rw [hreplayed, hinv.log, hinv.lookup]
    · rw [hreplayed]
      exact hinv.table other
    · rw [hreplayed]
      exact hinv.algorithms other hnot
    · rw [hreplayed]
      exact hinv.created t job hholder other hident

theorem start_inv : Inv pcieEnabled (start : State A h) :=
  ⟨rfl, fun _ => Std.HashMap.getElem?_empty, fun _ _ => Std.HashMap.getElem?_empty, nofun, nofun,
    nofun⟩

theorem run_inv {ls : List (Label K)}
    (hrun : (machine pcieEnabled).runFrom Machine.anyStep start ls = some st) : Inv pcieEnabled st :=
  (machine pcieEnabled).invariant (fun _ _ _ hinv _ hst => hinv.step hst) start_inv hrun

end Hashed

/-! ## The cells of the keys -/

/-- What the tables hold for a key. -/
def Tables.cell (ident : KeyIdent) (t : Tables A) : Option A.State × Option (ParamValue K) :=
  (t.controller ident, t.cache ident)

omit [Field K] [LinearOrder K] in
theorem Tables.cell_eq {t t' : Tables A} {key : OpKey}
    (hcell : t.cell key.ident = t'.cell key.ident) :
    Table.find t.controller key = Table.find t'.controller key ∧
      Table.find t.cache key = Table.find t'.cache key :=
  Prod.mk.inj hcell

/-- **Every call is about the cell of its key.** -/
theorem separate :
    Separate (Tables.call (A := A) pcieEnabled) (fun c => c.key.ident) Tables.cell := by
  have hset : ∀ {V : Type} (t : Table V) (key : OpKey) (v : V) (i : KeyIdent), key.ident ≠ i →
      Table.set t key v i = t i := fun t key v i hne => Function.update_of_ne hne.symm ..
  have hself : ∀ {V : Type} (t : Table V) (key : OpKey) (v : V),
      Table.set t key v key.ident = some v := fun t key v => Function.update_self ..
  refine ⟨fun t c i hne => ?_, fun t t' c hcell => ?_, fun t t' c hcell => ?_⟩
  · cases c with
    | suggest key =>
      simp only [Tables.call, Controller.suggestAlpha, Tables.cell]
      split <;> exact Prod.ext (hset _ key _ _ hne) rfl
    | update key stat =>
      exact Prod.ext (hset _ key _ _ hne) (hset _ key _ _ hne)
    | read key => rfl
  · obtain ⟨hcontroller, hcache⟩ := Tables.cell_eq hcell
    have hsame : t.cache c.key.ident = t'.cache c.key.ident := hcache
    cases c with
    | suggest key =>
      simp only [Call.key] at hcontroller hcache hsame
      simp only [Tables.call, Controller.suggestAlpha, Tables.cell, Controller.getOrCreate, hcache,
        hcontroller, Call.key, hsame]
      split <;> exact Prod.ext ((hself _ key _).trans (hself _ key _).symm) rfl
    | update key stat =>
      simp only [Call.key] at hcontroller hcache
      simp only [Tables.call, Controller.update, Tables.cell, Controller.getOrCreate,
        ParamCache.lookup, hcache, hcontroller, Call.key]
      exact Prod.ext ((hself _ key _).trans (hself _ key _).symm)
        ((hself _ key _).trans (hself _ key _).symm)
    | read key => exact hcell
  · obtain ⟨hcontroller, hcache⟩ := Tables.cell_eq hcell
    cases c with
    | suggest key =>
      simp only [Call.key] at hcontroller hcache
      simp only [Tables.call, Controller.suggestAlpha, Controller.getOrCreate, hcache, hcontroller]
      split <;> rfl
    | update key stat => rfl
    | read key =>
      simp only [Call.key] at hcache
      simp only [Tables.call, ParamCache.lookup, hcache]

/-! ## The keys are independent -/

/-- The calls with a key equal to `key`. -/
def ownCalls (key : OpKey) (calls : List (Call K)) : List (Call K) :=
  calls.filter fun c => c.key.equals key

/-- **A key is tuned by its own calls alone.**  In every run, whatever the hash, the algorithm and
the order of the calls, the parameters stored for a key, the algorithm of the key and the results of
the calls with an equal key are those of these calls alone, one after another. -/
theorem key_independence {h : StdHash} {pcieEnabled : Bool} {ls : List (Hashed.Label K)}
    {st : Hashed.State A h}
    (hrun : (Hashed.machine pcieEnabled).runFrom Machine.anyStep Hashed.start ls = some st)
    (key : OpKey) :
    let own : List (Call K × Result K) × Tables A :=
      replay pcieEnabled (ownCalls key (st.log.map Prod.fst))
    st.table[(⟨key⟩ : HashedKey h)]? = Table.find own.2.cache key ∧
      ((∀ t job, st.holder = some (t, job) → job.key.equals key = false) →
        st.algorithms[(⟨key⟩ : HashedKey h)]? = Table.find own.2.controller key) ∧
      (st.log.filter fun e => e.1.key.equals key) = own.1 := by
  have hinv := Hashed.run_inv hrun
  have hequals : ∀ other : OpKey, other.equals key = decide (other.ident = key.ident) := by
    intro other
    rw [Bool.eq_iff_iff, decide_eq_true_iff]
    exact OpKey.equals_iff
  have hown : ownCalls key (st.log.map Prod.fst) =
      (st.log.map Prod.fst).filter fun c => decide (c.key.ident = key.ident) :=
    List.filter_congr fun c _ => hequals c.key
  obtain ⟨hcell, hlog⟩ := (separate pcieEnabled).runs_filter key.ident (s := Tables.empty (A := A))
    (st.log.map Prod.fst) rfl
  obtain ⟨hcontroller, hcache⟩ := Tables.cell_eq hcell
  simp only [hown]
  refine ⟨(hinv.table key).trans hcache, fun hfree => ?_, ?_⟩
  · refine (hinv.algorithms key fun t job hholder hident => ?_).trans hcontroller
    have hne := hfree t job hholder
    rw [OpKey.equals_iff.2 hident] at hne
    cases hne
  · have hsame : (st.replayed pcieEnabled).1 = st.log := hinv.log
    refine Eq.trans ?_ hlog
    show _ = (st.replayed pcieEnabled).1.filter _
    rw [hsame]
    exact List.filter_congr fun e _ => hequals e.1.key

/-- Two sizes of one bucket, and a size of another. -/
def sizeKey (bytes bucketBytes : ℕ) : OpKey := ⟨.allReduce, bytes, bucketBytes, 7, 8, 99⟩

/-- One thread updates the parameters of a size while another reads those of another bucket. -/
def pairRun : List (Hashed.Label ℚ) :=
  [.update 1 (sizeKey 5000 4096) ⟨1, 1, 1, 1, true, true⟩, .go 1, .read (sizeKey 9000 8192), .go 1]

/-- The update is seen by the other size of the bucket, and not by the other bucket. -/
theorem key_independence_pair :
    ∃ st : Hashed.State (staticAlgo (1 / 4 : ℚ)) ⟨UInt64.ofNat, UInt64.ofNat⟩,
      (Hashed.machine true).runFrom Machine.anyStep Hashed.start pairRun = some st ∧
      (st.table[(⟨sizeKey 6000 4096⟩ : HashedKey ⟨UInt64.ofNat, UInt64.ofNat⟩)]?).map
        (fun value => (value.alpha, value.usePcie)) = some (1 / 4, true) ∧
      st.table[(⟨sizeKey 9000 8192⟩ : HashedKey ⟨UInt64.ofNat, UInt64.ofNat⟩)]? = none := by
  obtain ⟨st, hrun, hcalls⟩ :
      ∃ st : Hashed.State (staticAlgo (1 / 4 : ℚ)) ⟨UInt64.ofNat, UInt64.ofNat⟩,
        (Hashed.machine true).runFrom Machine.anyStep Hashed.start pairRun = some st ∧
          st.log.map Prod.fst = [.read (sizeKey 9000 8192),
            .update (sizeKey 5000 4096) ⟨1, 1, 1, 1, true, true⟩] := ⟨_, rfl, rfl⟩
  refine ⟨st, hrun, ?_, ?_⟩
  · rw [(key_independence hrun (sizeKey 6000 4096)).1, hcalls]
    decide +kernel
  · rw [(key_independence hrun (sizeKey 9000 8192)).1, hcalls]
    decide +kernel

end Keyed
end Feedback
end Orchestrator
end HyLink
