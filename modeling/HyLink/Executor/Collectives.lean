import HyLink.Executor.ProgramOrder
import Mathlib.Algebra.Group.WithOne.Basic
import Mathlib.Data.Nat.Pairing

/-!
# What a program leaves in its outputs

Executing the lines on expressions instead of bytes shows what a program does to any contents: an
expression names the input chunks that a chunk is made of, how they are reduced, and the chunks that
they have gone through on the way.

* `symbolic` — the expressions that a program leaves.
* `sequential_of_symbolic` — what an expression says is what the sequential execution leaves.
* `Computes` — a chunk ends as the sum of given input chunks, in some bracketing.
* `sums_of_computes` — then every finished run leaves that sum.
-/

namespace HyLink
namespace Executor

open Ir Compiler Theory.Dataflow

/-! ## Expressions -/

/-- What a chunk contains, in terms of the input chunks. -/
inductive Content
  | input (base : BaseKey)
  /-- As much as `base` holds of it. -/
  | held (base : BaseKey) (e : Content)
  | reduce (a b : Content)
  deriving DecidableEq, Repr

namespace Content

/-- The input chunks that it is made of. -/
def inputs : Content → List BaseKey
  | input base => [base]
  | held _ e => e.inputs
  | reduce a b => a.inputs ++ b.inputs

/-- The chunks that it has gone through. -/
def bases : Content → List BaseKey
  | input _ => []
  | held base e => base :: e.bases
  | reduce a b => a.bases ++ b.bases

/-- The same without the chunks on the way. -/
def strip : Content → Content
  | input base => input base
  | held _ e => e.strip
  | reduce a b => reduce a.strip b.strip

/-- Byte `y`, when the inputs are those of `m`. -/
def byte (c : Cluster) {B : Type} (reduceValue : c.Reduction B) (m : Memory B) :
    Content → ℕ → B
  | input base, y => m base y
  | held _ e, y => e.byte c reduceValue m y
  | reduce a b, y => reduceValue (c.elementAt (a.byte c reduceValue m) y)
      (c.elementAt (b.byte c reduceValue m) y) (c.inElement y)

variable {c : Cluster} {B : Type} {reduceValue : c.Reduction B} {m : Memory B}

theorem byte_strip (e : Content) : e.strip.byte c reduceValue m = e.byte c reduceValue m := by
  induction e with
  | input base => rfl
  | held base e ih => exact ih
  | reduce a b iha ihb => simp only [strip, byte, iha, ihb]

end Content

/-! ## Symbolic execution -/

/-- Options of a call that is not in place; nothing else in them matters for what lines do. -/
def plainOptions : GraphCompileOptions where
  legacyLayout := { segCount := 0 }

def intCode : ℤ → ℕ
  | .ofNat n => 2 * n
  | .negSucc n => 2 * n + 1

def spaceCode : ProgressSpace → ℕ
  | .host => 0
  | .input => 1
  | .output => 2
  | .scratch => 3
  | .internal => 4

/-- A chunk as a number: numbers are quickly compared. -/
def chunkCode (base : BaseKey) : ℕ :=
  5 * Nat.pair (intCode base.owner) (intCode base.chunk) + spaceCode base.space

theorem intCode_injective : Function.Injective intCode := by
  intro a b h
  cases a <;> cases b <;> simp only [intCode] at h <;> first | omega | (congr 1; omega)

theorem chunkCode_injective : Function.Injective chunkCode := by
  intro a b h
  have hlt : ∀ s, spaceCode s < 5 := fun s => by cases s <;> decide
  have hspaces : ∀ s s', spaceCode s = spaceCode s' → s = s' := fun s s' => by
    cases s <;> cases s' <;> decide
  have ha := hlt a.space
  have hb := hlt b.space
  simp only [chunkCode] at h
  have hspace := hspaces a.space b.space (by omega)
  obtain ⟨howner, hchunk⟩ := Nat.pair_eq_pair.1
    (show Nat.pair (intCode a.owner) (intCode a.chunk) =
      Nat.pair (intCode b.owner) (intCode b.chunk) by omega)
  cases a
  cases b
  simp_all [intCode_injective.eq_iff]

section

variable (program : IRProgram) (worldSize : ℕ)

def writesCode (line : Line) : Option ℕ :=
  (lineWrites plainOptions program worldSize line).map chunkCode

/-- What a line makes of expressions. -/
def lineContent (line : Line) (m : ℕ → Option Content) : Option Content :=
  match inputBases plainOptions program worldSize line.1 with
  | [] => none
  | a :: rest =>
      if line.1.op = .h2hReduce then
        rest.head?.bind fun b => (m (chunkCode a)).bind fun u => (m (chunkCode b)).map fun v =>
          .reduce (.held a u) (.held b v)
      else if line.1.op = .d2dReduce then
        rest.head?.bind fun b => (m (chunkCode b)).bind fun u => (m (chunkCode a)).map fun v =>
          .reduce (.held b u) (.held a v)
      else (m (chunkCode a)).map (.held a)

/-- The chunks that hold data at the start. -/
def inputChunks : List BaseKey :=
  (List.range worldSize).flatMap fun r : ℕ =>
    (List.range (maxInputChunkCount program r)).map fun k : ℕ => ⟨.input, r, k⟩

/-- The input chunks contain themselves. -/
def startContent (k : ℕ) : Option Content :=
  ((inputChunks program worldSize).find? fun base => chunkCode base == k).map .input

/-- The expressions after lines executed one after the other. -/
def symbolic (order : List Line) (base : BaseKey) : Option Content :=
  run (writesCode program worldSize) (lineContent program worldSize)
    (startContent program worldSize) order (chunkCode base)

/-- How often instructions write a chunk. -/
def producedCode (insts : List Instruction) (k : ℕ) : ℕ :=
  insts.countP fun inst => (producedBase plainOptions program worldSize inst).map chunkCode == some k

/-- The version that a read sees after the instructions `pre`. -/
def readCode (pre : List Instruction) (base : BaseKey) : ℕ :=
  let n := producedCode program worldSize pre (chunkCode base)
  if 0 < n then n
  else if InputData program worldSize base then 0
  else producedCode program worldSize program.allInstructions (chunkCode base)

def needsCode (line : Line) : List (ℕ × ℕ) :=
  let before := program.allInstructions.take line.2
  (inputBases plainOptions program worldSize line.1).map (fun base =>
    (chunkCode base, readCode program worldSize before base)) ++
  (lineWrites plainOptions program worldSize line).toList.map fun base =>
    (chunkCode base, producedCode program worldSize before (chunkCode base))

/-- Every line finds the versions it needs. -/
def Ordered (order : List Line) : Prop :=
  Respects (writesCode program worldSize) (needsCode program worldSize) [] order

instance (order : List Line) : Decidable (Ordered program worldSize order) := by
  unfold Ordered; infer_instance

/-- A chunk ends as the sum of `operands`, which on their way are only cut by itself and by chunks
of the full size. -/
def Computes (order : List Line) (base : BaseKey) (operands : List BaseKey) : Prop :=
  ∃ e ∈ symbolic program worldSize order base, e.inputs.Perm operands ∧
    ∀ b ∈ e.bases, b.space = .host ∨ b.space = .internal ∨ b = base ∨ b ∈ operands

instance (order : List Line) (base : BaseKey) (operands : List BaseKey) :
    Decidable (Computes program worldSize order base operands) := by
  unfold Computes; infer_instance

end

section

variable {program : IRProgram} {worldSize : ℕ}

theorem producedCode_eq (insts : List Instruction) (base : BaseKey) :
    producedCode program worldSize insts (chunkCode base) =
      producedVersions plainOptions program worldSize insts base := by
  unfold producedCode producedVersions
  congr 1
  funext inst
  rw [Bool.eq_iff_iff, beq_iff_eq, decide_eq_true_iff, Option.map_eq_some_iff]
  exact ⟨fun ⟨b, hb, h⟩ => by rw [hb, chunkCode_injective h], fun h => ⟨base, h, rfl⟩⟩

theorem Ordered.respects {order : List Line} (h : Ordered program worldSize order) :
    Respects (lineWrites plainOptions program worldSize) (lineNeeds plainOptions program worldSize)
      [] order := by
  refine Respects.of_names chunkCode_injective (fun _ => rfl) (fun line _ => ?_) h
  simp only [needsCode, lineNeeds, readCode, readVersion, producedCode_eq, List.map_append,
    List.map_map]
  rfl

theorem eq_input_of_startContent {base : BaseKey} {e : Content}
    (h : e ∈ startContent program worldSize (chunkCode base)) :
    e = .input base ∧ InputData program worldSize base := by
  obtain ⟨b, hfind, rfl⟩ := Option.map_eq_some_iff.1 h
  have hb : b = base := chunkCode_injective (by simpa using List.find?_some hfind)
  subst hb
  have hmem := List.mem_of_find?_eq_some hfind
  simp only [inputChunks, List.mem_flatMap, List.mem_map, List.mem_range] at hmem
  obtain ⟨r, hr, k, hk, rfl⟩ := hmem
  exact ⟨rfl, rfl, by simp, by simp, by simpa using hr, by simpa using hk⟩

end

section

variable {graphOptions : GraphCompileOptions} {program : IRProgram} {worldSize : ℕ}

theorem inputBases_plain (h : graphOptions.legacyLayout.isInPlace = false) (inst : Instruction) :
    inputBases graphOptions program worldSize inst =
      inputBases plainOptions program worldSize inst := by
  have hplain : plainOptions.legacyLayout.isInPlace = false := rfl
  simp only [inputBases, sourceDeviceKey, visibleBuf_of_not_inPlace h,
    visibleBuf_of_not_inPlace hplain]

theorem producedBase_plain (h : graphOptions.legacyLayout.isInPlace = false) :
    producedBase graphOptions program worldSize = producedBase plainOptions program worldSize := by
  have hplain : plainOptions.legacyLayout.isInPlace = false := rfl
  funext inst
  simp only [producedBase, visibleBuf_of_not_inPlace h, visibleBuf_of_not_inPlace hplain]

theorem lineWrites_plain (h : graphOptions.legacyLayout.isInPlace = false) :
    lineWrites graphOptions program worldSize = lineWrites plainOptions program worldSize := by
  funext line
  simp only [lineWrites, producedBase_plain h]

theorem producedVersions_plain (h : graphOptions.legacyLayout.isInPlace = false) :
    producedVersions graphOptions program worldSize =
      producedVersions plainOptions program worldSize := by
  funext insts base
  unfold producedVersions
  rw [producedBase_plain h]

/-- An order is one for all calls that are not in place. -/
theorem InOrder.of_plain (h : graphOptions.legacyLayout.isInPlace = false) {order : List Line}
    (ho : InOrder plainOptions program worldSize order) :
    InOrder graphOptions program worldSize order := by
  have hneeds : lineNeeds graphOptions program worldSize =
      lineNeeds plainOptions program worldSize := by
    funext line
    simp only [lineNeeds, readVersion, producedVersions_plain h, inputBases_plain h,
      lineWrites_plain h]
  exact ⟨ho.perm, by rw [lineWrites_plain h, hneeds]; exact ho.respects⟩

end

/-! ## Expressions and bytes -/

namespace Cluster

variable (c : Cluster)

/-- Bytes of a chunk. -/
def bytes (base : BaseKey) : ℕ :=
  c.graphOptions.legacyLayout.chunkBytesForKey c.program
    (maxInputChunkCount c.program base.owner) base

variable {c} {B : Type} {reduce : c.Reduction B} {m : Memory B}

/-- A chunk consists of whole elements. -/
theorem element_dvd_bytes (base : BaseKey) : c.element ∣ c.bytes base :=
  element_dvd_of_elementSize (CompileOptions.dvd_chunkBytesForKey _ _ _ _)

theorem bytes_le (base : BaseKey) : c.bytes base ≤ c.chunkSize :=
  chunkBytesForKey_le _ _ _ _

theorem bytes_of_full {base : BaseKey} (h : base.space = .host ∨ base.space = .internal) :
    c.bytes base = c.chunkSize := by
  unfold bytes CompileOptions.chunkBytesForKey
  rw [if_pos h]
  rfl

/-- The size of a chunk that is written does not depend on who writes it. -/
theorem instBytes_eq {inst : Instruction} {base : BaseKey} (h : base.space ≠ .input) :
    c.instBytes inst base = c.bytes base := by
  unfold instBytes bytes CompileOptions.chunkBytesForKey
  split
  · rfl
  · cases hs : base.space <;> simp_all [CompileOptions.runtimeLayout]

/-- An element that a chunk holds, from its bytes. -/
theorem definedElement_of_byte {f : ℕ → Option B} {g : ℕ → B} {y n : ℕ} (hn : c.element ∣ n)
    (hy : y < n) (h : ∀ z < n, f z = some (g z)) :
    c.definedElement f y = some (c.elementAt g y) := by
  refine definedElement_eq_some.2 fun j => h _ ?_
  obtain ⟨k, rfl⟩ := hn
  have hlt : y / c.element < k := Nat.div_lt_of_lt_mul hy
  calc y / c.element * c.element + j < (y / c.element + 1) * c.element := by
        rw [Nat.add_mul, Nat.one_mul]
        exact Nat.add_lt_add_left j.2 _
    _ ≤ k * c.element := Nat.mul_le_mul_right _ hlt
    _ = c.element * k := Nat.mul_comm _ _

/-- The bytes that all of the chunks hold, a whole number of elements. -/
theorem exists_common (bases : List BaseKey) {y : ℕ} (h : ∀ b ∈ bases, y < c.bytes b) :
    ∃ n, c.element ∣ n ∧ y < n ∧ ∀ b ∈ bases, n ≤ c.bytes b := by
  refine ⟨(y / c.element + 1) * c.element, Dvd.intro_left _ rfl, ?_, fun b hb => ?_⟩
  · have := Nat.lt_div_mul_add c.element_pos (a := y)
    rwa [Nat.add_mul, Nat.one_mul]
  · obtain ⟨k, hk⟩ := c.element_dvd_bytes b
    have hlt := h b hb
    rw [hk] at hlt ⊢
    have : y / c.element < k := Nat.div_lt_of_lt_mul hlt
    rw [Nat.mul_comm]
    exact Nat.mul_le_mul_left _ this

/-- Contents are what an expression says, as far as the chunk and those on the way reach. -/
def Shows (reduce : c.Reduction B) (m : Memory B) (base : BaseKey) (f : ℕ → Option B)
    (w : Option Content) : Prop :=
  ∀ e ∈ w, ∀ y < c.bytes base, (∀ b ∈ e.bases, y < c.bytes b) → f y = some (e.byte c reduce m y)

theorem shows_start (base : BaseKey) :
    Shows reduce m base (c.userData m base)
      (startContent c.program c.worldSize (chunkCode base)) := by
  intro e he y hy _
  obtain ⟨rfl, hin⟩ := eq_input_of_startContent he
  rw [userData, if_pos ⟨hin, hy⟩]
  rfl

/-- An operand of a reduce, from its bytes. -/
theorem Shows.element {base : BaseKey} {f : ℕ → Option B} {e : Content} {y : ℕ}
    (h : Shows reduce m base f (some e))
    (hy : ∀ b ∈ (Content.held base e).bases, y < c.bytes b) :
    c.definedElement f y = some (c.elementAt (e.byte c reduce m) y) := by
  obtain ⟨n, hn, hlt, hle⟩ := exists_common _ hy
  refine definedElement_of_byte hn hlt fun z hz => h e rfl z ?_ fun b hb => ?_
  · exact hz.trans_le (hle base List.mem_cons_self)
  · exact hz.trans_le (hle b (List.mem_cons_of_mem _ hb))

/-- **A line does to bytes what it does to expressions.** -/
theorem shows_line (hplace : c.graphOptions.legacyLayout.isInPlace = false) {line : Line}
    {f : Contents B} {w : ℕ → Option Content}
    (h : ∀ base, Shows reduce m base (f base) (w (chunkCode base))) {base : BaseKey}
    (hw : c.lineWrites line = some base) (hspace : base.space ≠ .input) :
    Shows reduce m base (c.lineValue reduce line f) (lineContent c.program c.worldSize line w) := by
  intro e he y hy hbases
  have hwrites : c.writes line.1 = some base := hw
  simp only [lineValue, hwrites]
  rw [instBytes_eq hspace, if_pos hy]
  have hreads : c.reads line.1 = inputBases plainOptions c.program c.worldSize line.1 :=
    inputBases_plain hplace _
  have hboth : ∀ {a b : BaseKey} {u v : Content}, w (chunkCode a) = some u →
      w (chunkCode b) = some v →
      (∀ z ∈ (Content.reduce (.held a u) (.held b v)).bases, y < c.bytes z) →
      c.definedElement (f a) y = some (c.elementAt (u.byte c reduce m) y) ∧
        c.definedElement (f b) y = some (c.elementAt (v.byte c reduce m) y) := by
    intro a b u v hu hv hz
    have ha := h a
    have hb := h b
    rw [hu] at ha
    rw [hv] at hb
    exact ⟨ha.element fun z hmem => hz z (List.mem_append_left _ hmem),
      hb.element fun z hmem => hz z (List.mem_append_right _ hmem)⟩
  unfold lineContent at he
  unfold instByte
  split at he
  · cases he
  · next a rest hin =>
    simp only [hreads.trans hin]
    split_ifs at he ⊢ with h₁ h₂
    · obtain ⟨b, hb, he⟩ := Option.bind_eq_some_iff.1 he
      obtain ⟨u, hu, he⟩ := Option.bind_eq_some_iff.1 he
      obtain ⟨v, hv, rfl⟩ := Option.map_eq_some_iff.1 he
      obtain ⟨hua, hvb⟩ := hboth hu hv hbases
      simp only [hb, Option.bind_some, hua, hvb, Option.map_some]
      rfl
    · obtain ⟨b, hb, he⟩ := Option.bind_eq_some_iff.1 he
      obtain ⟨u, hu, he⟩ := Option.bind_eq_some_iff.1 he
      obtain ⟨v, hv, rfl⟩ := Option.map_eq_some_iff.1 he
      obtain ⟨hub, hva⟩ := hboth hu hv hbases
      simp only [hb, Option.bind_some, hub, hva, Option.map_some]
      rfl
    · obtain ⟨u, hu, rfl⟩ := Option.map_eq_some_iff.1 he
      exact h a u hu y (hbases a List.mem_cons_self) fun b hb =>
        hbases b (List.mem_cons_of_mem _ hb)

/-- **What an expression says is what the sequential execution leaves.** -/
theorem sequential_of_symbolic (hplace : c.graphOptions.legacyLayout.isInPlace = false)
    {order : List Line}
    (hspace : ∀ line ∈ order, ∀ base ∈ Executor.lineWrites plainOptions c.program c.worldSize line,
      base.space ≠ .input) (base : BaseKey) :
    Shows reduce m base (c.sequential reduce (c.userData m) order base)
      (symbolic c.program c.worldSize order base) := by
  unfold sequential symbolic
  rw [← lineWrites_plain hplace] at hspace
  refine run_rel chunkCode_injective (fun line => ?_) (fun line hline f w h base hw => ?_)
    shows_start base
  · exact congrArg (fun writes => (writes line).map chunkCode) (lineWrites_plain hplace).symm
  exact shows_line hplace h hw (hspace line hline base hw)

end Cluster

/-! ## Sums -/

section

variable {c : Cluster} {B : Type} {reduce : c.Reduction B} {m : Memory B} {operands : List BaseKey}

/-- A chunk contains the sum of other chunks, in some order and some bracketing. -/
def Sums (c : Cluster) (reduce : c.Reduction B) (m : Memory B) (operands : List BaseKey)
    (base : BaseKey) (f : ℕ → B) : Prop :=
  ∃ e : Content, e.inputs.Perm operands ∧
    ∀ y < c.bytes base, (∀ b ∈ operands, y < c.bytes b) → f y = e.byte c reduce m y

theorem elementAt_same (f : ℕ → B) {y z : ℕ} (h : z / c.element = y / c.element) :
    c.elementAt f z = c.elementAt f y := by
  funext j
  simp only [Cluster.elementAt, h]

/-- An element of a sum is the sum of the elements. -/
theorem elementAt_reduce (u v : Content) (y : ℕ) :
    c.elementAt ((Content.reduce u v).byte c reduce m) y =
      reduce (c.elementAt (u.byte c reduce m) y) (c.elementAt (v.byte c reduce m) y) := by
  funext j
  have hdiv : (y / c.element * c.element + j) / c.element = y / c.element := by
    rw [Nat.add_comm, Nat.add_mul_div_right _ _ c.element_pos, Nat.div_eq_of_lt j.2, Nat.zero_add]
  have hmod : (y / c.element * c.element + j) % c.element = j := by
    rw [Nat.add_comm, Nat.add_mul_mod_self_right, Nat.mod_eq_of_lt j.2]
  change reduce (c.elementAt _ (y / c.element * c.element + j))
    (c.elementAt _ (y / c.element * c.element + j)) ⟨_, _⟩ = _
  rw [elementAt_same _ hdiv, elementAt_same _ hdiv]
  exact congrArg _ (Fin.ext hmod)

/-- **Sums of the same chunks are equal**, when the reduction is commutative and associative. -/
theorem Content.byte_eq_of_perm (hcomm : ∀ u v, reduce u v = reduce v u)
    (hassoc : ∀ u v w, reduce (reduce u v) w = reduce u (reduce v w)) {e e' : Content}
    (h : e.inputs.Perm e'.inputs) (y : ℕ) : e.byte c reduce m y = e'.byte c reduce m y := by
  let _ : CommSemigroup (Fin c.element → B) :=
    { mul := reduce, mul_assoc := hassoc, mul_comm := hcomm }
  have hprod : ∀ e : Content, ((c.elementAt (e.byte c reduce m) y : Fin c.element → B) :
      WithOne (Fin c.element → B)) =
        (e.inputs.map fun base => ((c.elementAt (m base) y : Fin c.element → B) :
          WithOne (Fin c.element → B))).prod := by
    intro e
    induction e with
    | input base => simp [Content.inputs, Content.byte]
    | held base e ih => exact ih
    | reduce u v ihu ihv =>
      rw [elementAt_reduce, Content.inputs, List.map_append, List.prod_append, ← ihu, ← ihv]
      rfl
  have heq : c.elementAt (e.byte c reduce m) y = c.elementAt (e'.byte c reduce m) y := by
    rw [← WithOne.coe_inj, hprod e, hprod e']
    exact (h.map _).prod_eq
  have hat := congrFun heq (c.inElement y)
  simpa only [Cluster.inElement_val, Cluster.elementAt, Nat.div_add_mod'] using hat

/-- The same expression, up to the order of the two sides of its sums. -/
def Content.same : Content → Content → Bool
  | .input base, e => decide (e = .input base)
  | .reduce a b, .reduce a' b' => (a.same a' && b.same b') || (a.same b' && b.same a')
  | _, _ => false

/-- Which side is which does not matter to a commutative reduction. -/
theorem Content.byte_eq_of_same (hcomm : ∀ u v, reduce u v = reduce v u) {e e' : Content}
    (h : e.same e' = true) : e.byte c reduce m = e'.byte c reduce m := by
  induction e generalizing e' with
  | input base => rw [of_decide_eq_true h]
  | held base e ih => simp [Content.same] at h
  | reduce a b iha ihb =>
    cases e' with
    | input base => simp [Content.same] at h
    | held base e => simp [Content.same] at h
    | reduce a' b' =>
      simp only [Content.same, Bool.or_eq_true, Bool.and_eq_true] at h
      funext y
      rcases h with ⟨ha, hb⟩ | ⟨ha, hb⟩
      · simp only [Content.byte, iha ha, ihb hb]
      · simp only [Content.byte, iha ha, ihb hb]
        rw [hcomm]

variable {stale : Word → ℕ} {ls : List Label} {s : State} {order : List Line}

/-- The contents of a device chunk after a finished run are those of its expression. -/
theorem memory_of_symbolic (hc : c.Plain) (hslice : c.element ∣ c.slice)
    (ho : InOrder plainOptions c.program c.worldSize order)
    (hspace : ∀ line ∈ order, ∀ base ∈ lineWrites plainOptions c.program c.worldSize line,
      base.space ≠ .input)
    (hrun : c.machine.runFrom c.disciplined (State.init stale) ls = some s) (hs : Finished c s)
    {base : BaseKey} (hbase : base.space ≠ .host) {e : Content}
    (he : e ∈ symbolic c.program c.worldSize order base) {y : ℕ} (hy : y < c.bytes base)
    (hbases : ∀ b ∈ e.bases, y < c.bytes b) :
    c.memory reduce m (c.machine.trace c.effects (State.init stale) ls) base y =
      e.byte c reduce m y := by
  have hring : c.ring base = false := by simp [Cluster.ring, ringChunk, hbase]
  have ho := ho.of_plain hc.outOfPlace
  have hb := @Cluster.sequential_of_symbolic c B reduce m hc.outOfPlace order
    hspace base e he y hy hbases
  rw [← finished_means hc (Cluster.InOrder.meaning hc hslice ho m) hrun hs hring
    ((Cluster.InOrder.final_eq ho m y).trans hb), Nat.div_add_mod']

/-- Chunks on the way of a sum do not cut it. -/
theorem lt_bytes_of_bases {e : Content} {base : BaseKey} {y : ℕ}
    (hbases : ∀ b ∈ e.bases, b.space = .host ∨ b.space = .internal ∨ b = base ∨ b ∈ operands)
    (hy : y < c.bytes base) (hoperands : ∀ b ∈ operands, y < c.bytes b) :
    ∀ b ∈ e.bases, y < c.bytes b := by
  intro b hb
  rcases hbases b hb with hhost | hinternal | rfl | hop
  · rw [Cluster.bytes_of_full (Or.inl hhost)]
    exact hy.trans_le (Cluster.bytes_le base)
  · rw [Cluster.bytes_of_full (Or.inr hinternal)]
    exact hy.trans_le (Cluster.bytes_le base)
  · exact hy
  · exact hoperands b hop

/-- **Every finished run leaves the sum that the program computes.** -/
theorem sums_of_computes (hc : c.Plain) (hslice : c.element ∣ c.slice)
    (ho : InOrder plainOptions c.program c.worldSize order)
    (hspace : ∀ line ∈ order, ∀ base ∈ lineWrites plainOptions c.program c.worldSize line,
      base.space ≠ .input)
    (hrun : c.machine.runFrom c.disciplined (State.init stale) ls = some s) (hs : Finished c s)
    {base : BaseKey} (hbase : base.space ≠ .host)
    (h : Computes c.program c.worldSize order base operands) :
    Sums c reduce m operands base
      (c.memory reduce m (c.machine.trace c.effects (State.init stale) ls) base) := by
  obtain ⟨e, he, hperm, hbases⟩ := h
  exact ⟨e, hperm, fun y hy hoperands => memory_of_symbolic hc hslice ho hspace hrun hs hbase he hy
    (lt_bytes_of_bases hbases hy hoperands)⟩

end

end Executor
end HyLink
