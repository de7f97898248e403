import HyLink.Executor.Meaning
import HyLink.Theory.Dataflow

/-!
# The executors do what the program says

The meaning of a program is to execute its lines one after the other, each on whole chunks.  The
document lists them rank by rank, and a rank may read what a rank further down writes; so the order
is any one in which each line finds the versions that the compiler gives it.

* `Cluster.sequential` — the contents of the chunks after lines executed in an order.
* `Cluster.InOrder.meaning` — the versions of the compiler name the contents that an order goes
  through.
* `operands_follow_order` — every node reads what its line reads.
* `run_computes_program` — every finished run leaves what the sequential execution leaves.
-/

namespace HyLink
namespace Compiler

open Ir

/-! ## Sizes -/

/-- A transfer consists of whole elements. -/
theorem CompileOptions.dvd_chunkSize (options : CompileOptions) (program : IRProgram) :
    options.elementSize ∣ options.chunkSize program := by
  unfold CompileOptions.chunkSize
  rcases max_choice (maxChunkBytes options.activeElems options.elementSize (options.d2hCps program))
    (maxChunkBytes options.activeElems options.elementSize (options.h2dCps program)) with h | h <;>
  · rw [h]
    exact Dvd.intro_left _ rfl

theorem dvd_chunkSizes {segmentSize strideOffset elementSize activeElems totalChunks
    chunksPerSegment slotSize i : ℕ} :
    elementSize ∣ (makeDeviceLayout segmentSize strideOffset elementSize activeElems totalChunks
      chunksPerSegment slotSize).chunkSizes.getD i 0 := by
  simp only [makeDeviceLayout, List.getD_eq_getElem?_getD, List.getElem?_map]
  cases (List.range totalChunks)[i]? with
  | none => exact dvd_zero _
  | some k => exact Dvd.intro_left _ rfl

theorem CompileOptions.dvd_chunkBytesForKey (options : CompileOptions) (program : IRProgram)
    (inputChunkCount : ℕ) (key : BaseKey) :
    options.elementSize ∣ options.chunkBytesForKey program inputChunkCount key := by
  have hchunk := options.dvd_chunkSize program
  unfold CompileOptions.chunkBytesForKey
  split
  · exact hchunk
  · next hspace =>
    simp only
    split
    · cases hk : key.space with
      | host => exact absurd (Or.inl hk) hspace
      | internal => exact absurd (Or.inr hk) hspace
      | input => exact dvd_chunkSizes
      | output => exact dvd_chunkSizes
      | scratch => exact dvd_chunkSizes
    · exact hchunk

end Compiler

namespace Executor

open Ir Compiler Theory.Dataflow

/-- An instruction with its place in the document. -/
abbrev Line := Instruction × ℕ

/-- The defined bytes of every chunk. -/
abbrev Contents (B : Type) := BaseKey → ℕ → Option B

/-! ## Orders -/

section

variable (graphOptions : GraphCompileOptions) (program : IRProgram) (worldSize : ℕ)

/-- The chunk that a line writes. -/
def lineWrites (line : Line) : Option BaseKey :=
  producedBase graphOptions program worldSize line.1

/-- The versions that the compiler gives to what a line reads, and to what it overwrites. -/
def lineNeeds (line : Line) : List (BaseKey × ℕ) :=
  let before := program.allInstructions.take line.2
  (inputBases graphOptions program worldSize line.1).map (fun base =>
    (base, readVersion graphOptions program worldSize before base)) ++
  (lineWrites graphOptions program worldSize line).toList.map fun base =>
    (base, producedVersions graphOptions program worldSize before base)

/-- **An order of the lines of the document** in which each of them finds the versions that the
compiler gives it.  The document itself need not be one: a rank may read what a rank further down
writes. -/
structure InOrder (order : List Line) : Prop where
  perm : order.Perm program.allInstructions.zipIdx
  respects : Respects (lineWrites graphOptions program worldSize)
    (lineNeeds graphOptions program worldSize) [] order

end

namespace Cluster

variable (c : Cluster) {B : Type}

/-- The lines of the document. -/
abbrev lines : List Line := c.program.allInstructions.zipIdx

abbrev lineWrites : Line → Option BaseKey :=
  Executor.lineWrites c.graphOptions c.program c.worldSize

abbrev needs : Line → List (BaseKey × ℕ) :=
  Executor.lineNeeds c.graphOptions c.program c.worldSize

abbrev InOrder : List Line → Prop := Executor.InOrder c.graphOptions c.program c.worldSize

/-! ## Instructions in order -/

/-- The chunks that an instruction reads. -/
def reads (inst : Instruction) : List BaseKey :=
  inputBases c.graphOptions c.program c.worldSize inst

/-- The chunk that it writes. -/
def writes (inst : Instruction) : Option BaseKey :=
  producedBase c.graphOptions c.program c.worldSize inst

/-- Bytes that an instruction writes of its chunk: those of the node compiled from it. -/
def instBytes (inst : Instruction) (base : BaseKey) : ℕ :=
  c.graphOptions.legacyLayout.chunkBytesForKey c.program
    (maxInputChunkCount c.program (executionRank c.env inst)) base

/-- The element that byte `y` lies in, if all its bytes are defined. -/
def definedElement (f : ℕ → Option B) (y : ℕ) : Option (Fin c.element → B) :=
  if h : ∀ j : Fin c.element, (f (y / c.element * c.element + j)).isSome = true then
    some fun j => (f (y / c.element * c.element + j)).get (h j)
  else none

/-- Byte `y` of the chunk that an instruction writes. -/
def instByte (reduce : c.Reduction B) (m : Contents B) (inst : Instruction) (y : ℕ) : Option B :=
  match c.reads inst with
  | [] => none
  | a :: rest =>
      if inst.op = .h2hReduce then
        rest.head?.bind fun b => (c.definedElement (m a) y).bind fun u =>
          (c.definedElement (m b) y).map fun v => reduce u v (c.inElement y)
      else if inst.op = .d2dReduce then
        rest.head?.bind fun b => (c.definedElement (m b) y).bind fun u =>
          (c.definedElement (m a) y).map fun v => reduce u v (c.inElement y)
      else m a y

/-- What a line makes of the contents of the chunks.  It writes its chunk as a whole. -/
def lineValue (reduce : c.Reduction B) (line : Line) (m : Contents B) : ℕ → Option B :=
  match c.writes line.1 with
  | none => fun _ => none
  | some base => fun y =>
      if y < c.instBytes line.1 base then c.instByte reduce m line.1 y else none

/-- The contents of the chunks after lines executed one after the other. -/
def sequential (reduce : c.Reduction B) (m : Contents B) (order : List Line) : Contents B :=
  run c.lineWrites (c.lineValue reduce) m order

/-- What the ranks put into their input chunks. -/
def userData (m : Memory B) : Contents B := fun base y =>
  if InputData c.program c.worldSize base ∧
      y < c.graphOptions.legacyLayout.chunkBytesForKey c.program
        (maxInputChunkCount c.program base.owner) base
  then some (m base y) else none

/-- What each version contains in a sequential execution. -/
def orderValuation (reduce : c.Reduction B) (m : Memory B) (order : List Line) : Valuation B :=
  fun key sc x =>
    if key.version ≤ count c.lineWrites order key.base ∧ x < c.slice then
      c.sequential reduce (c.userData m) (upTo c.lineWrites key.base key.version order) key.base
        (sc * c.slice + x)
    else none

variable {c} {reduce : c.Reduction B} {base : BaseKey}

theorem definedElement_eq_some {f : ℕ → Option B} {y : ℕ} {u : Fin c.element → B} :
    c.definedElement f y = some u ↔
      ∀ j : Fin c.element, f (y / c.element * c.element + j) = some (u j) := by
  unfold definedElement
  constructor
  · intro h j
    split at h
    · cases h
      exact (Option.some_get _).symm
    · cases h
  · intro h
    have hsome : ∀ j : Fin c.element, (f (y / c.element * c.element + j)).isSome = true :=
      fun j => by rw [h j]; rfl
    rw [dif_pos hsome, Option.some.injEq]
    funext j
    simp only [h j, Option.get_some]

/-! ## Versions name contents -/

/-- The lines of an order write a chunk as often as the program does. -/
theorem count_lines (l : List Instruction) (k : ℕ) : count c.lineWrites (l.zipIdx k) base =
    producedVersions c.graphOptions c.program c.worldSize l base := by
  have hmap : (l.zipIdx k).map Prod.fst = l := List.zipIdx_map_fst ..
  conv_rhs => rw [← hmap]
  rw [producedVersions, List.countP_map]
  rfl

theorem InOrder.count_eq {order : List Line} (h : c.InOrder order) (base : BaseKey) :
    count c.lineWrites order base = c.plan.finalVersion base := by
  rw [count_perm h.perm]
  exact count_lines _ _

/-- A version contains what the chunk contains between its writes. -/
theorem orderValuation_eq {m : Memory B} (pre post : List Line) {sc x : ℕ} (hx : x < c.slice) :
    c.orderValuation reduce m (pre ++ post) ⟨base, count c.lineWrites pre base⟩ sc x =
      c.sequential reduce (c.userData m) pre base (sc * c.slice + x) := by
  have hle : count c.lineWrites pre base ≤ count c.lineWrites (pre ++ post) base := by simp
  simp only [orderValuation]
  rw [if_pos ⟨hle, hx⟩, sequential, run_upTo, sequential]

/-- The last version of a chunk contains what the order leaves in it. -/
theorem InOrder.final_eq {order : List Line} (h : c.InOrder order) (m : Memory B) (y : ℕ) :
    c.orderValuation reduce m order ⟨base, c.plan.finalVersion base⟩ (y / c.slice) (y % c.slice) =
      c.sequential reduce (c.userData m) order base y := by
  have hall := @orderValuation_eq c B reduce base m order [] (y / c.slice) (y % c.slice)
    (Nat.mod_lt _ slice_pos)
  rw [List.append_nil, h.count_eq, Nat.div_add_mod'] at hall
  exact hall

/-- An assignment, as a line of an order. -/
structure At (order pre post : List Line) (a : Assignment) (k : ℕ) : Prop where
  split : order = pre ++ (a.inst, k) :: post
  produced : c.writes a.inst = some a.output.base
  version : a.output.version = count c.lineWrites pre a.output.base + 1
  inputs : a.inputs.map (·.key) =
    (c.reads a.inst).map fun base => ⟨base, count c.lineWrites pre base⟩

/-- **Every assignment is a line**, and what it reads and overwrites are the versions there. -/
theorem InOrder.exists_at {order : List Line} (h : c.InOrder order) {a : Assignment}
    (ha : a ∈ c.plan.assignments) : ∃ pre post k, At (c := c) order pre post a k := by
  obtain ⟨mid, rest, hsplit, hat⟩ := c.plan.assignedFrom.exists_split ha
  rw [List.nil_append] at hat
  have hmem : (a.inst, mid.length) ∈ order := by
    refine h.perm.mem_iff.2 (List.mem_zipIdx_iff_getElem?.2 ?_)
    simp [hsplit]
  obtain ⟨pre, post, rfl⟩ := List.append_of_mem hmem
  have hfind := h.respects.find
  have htake : c.program.allInstructions.take mid.length = mid := by simp [hsplit]
  simp only [lineNeeds, Executor.lineWrites, htake, List.forall_mem_append, List.forall_mem_map,
    hat.produced, Option.toList_some, List.forall_mem_singleton] at hfind
  refine ⟨pre, post, mid.length, rfl, hat.produced, ?_, ?_⟩
  · rw [hat.version, hfind.2]
  · rw [hat.inputs]
    refine List.map_congr_left fun base hbase => ?_
    rw [hfind.1 base hbase]

theorem At.node_inputs {order pre post : List Line} {a : Assignment} {k : ℕ}
    (h : At (c := c) order pre post a k) (r : ℕ) :
    (c.plan.instNode c.env r a).inputs.map (·.key) =
      (c.reads a.inst).map fun base => ⟨base, count c.lineWrites pre base⟩ := by
  have hkeys : (c.plan.instNode c.env r a).inputs.map (·.key) = a.inputs.map (·.key) := by
    simp only [Plan.instNode, instantiateNode, List.map_map]
    rfl
  rw [hkeys, h.inputs]

/-- A reduce has two operands, everything else one. -/
theorem reads_cases {inst : Instruction} (h : c.writes inst = some base) :
    ((inst.op = .h2hReduce ∨ inst.op = .d2dReduce) ∧ ∃ a b, c.reads inst = [a, b]) ∨
      (inst.op ≠ .h2hReduce ∧ inst.op ≠ .d2dReduce) ∧ ∃ a, c.reads inst = [a] := by
  cases hop : inst.op <;> simp_all [writes, reads, producedBase, inputBases]

/-- An element does not reach over the end of a slice. -/
theorem element_in_slice (hslice : c.element ∣ c.slice) {x y : ℕ} (hx : x < c.slice)
    (hy : y / c.element = x / c.element) : y < c.slice := by
  obtain ⟨k, hk⟩ := hslice
  rw [hk] at hx ⊢
  have hlt := Nat.div_lt_of_lt_mul hx
  rw [← hy] at hlt
  have hyk := (Nat.div_lt_iff_lt_mul c.element_pos).1 hlt
  rwa [Nat.mul_comm] at hyk

/-- The elements of a chunk are those of its slices. -/
theorem element_of_slice (hslice : c.element ∣ c.slice) (sc x j : ℕ) :
    (sc * c.slice + x) / c.element * c.element + j =
      sc * c.slice + (x / c.element * c.element + j) := by
  obtain ⟨k, hk⟩ := hslice
  have hdiv : (sc * c.slice + x) / c.element = sc * k + x / c.element := by
    rw [hk, show sc * (c.element * k) + x = x + c.element * (sc * k) by ring,
      Nat.add_mul_div_left _ _ c.element_pos, Nat.add_comm]
  rw [hdiv, hk]
  ring

theorem inElement_of_slice (hslice : c.element ∣ c.slice) (sc x : ℕ) :
    c.inElement (sc * c.slice + x) = c.inElement x := by
  rw [Fin.ext_iff, inElement_val, inElement_val, Nat.add_mod,
    Nat.mod_eq_zero_of_dvd (Dvd.dvd.mul_left hslice sc), Nat.zero_add, Nat.mod_mod]

theorem element_dvd_of_elementSize {k : ℕ} (h : c.elementSize ∣ k) : c.element ∣ k := by
  rcases Nat.eq_zero_or_pos c.elementSize with hzero | hpos
  · rw [element, hzero]
    exact one_dvd _
  · rwa [element, max_eq_right hpos]

/-- The bytes that an instruction writes of a slice are whole elements. -/
theorem inSlice_of_instBytes (hslice : c.element ∣ c.slice) {a : Assignment} {r sc x : ℕ}
    (hr : executionRank c.env a.inst = r) (hx : x < c.slice)
    (hy : sc * c.slice + x < c.instBytes a.inst a.output.base) :
    x < c.subchunkSize (c.plan.instNode c.env r a) sc / c.grain (c.plan.instNode c.env r a) *
      c.grain (c.plan.instNode c.env r a) := by
  have hwork : (c.plan.instNode c.env r a).workBytes = c.instBytes a.inst a.output.base := by
    rw [instBytes, hr]
    rfl
  have hsize : c.subchunkSize (c.plan.instNode c.env r a) sc =
      min c.slice (c.instBytes a.inst a.output.base - sc * c.slice) := by
    rw [subchunkSize, hwork, if_neg (by omega)]
  have hlt : x < c.subchunkSize (c.plan.instNode c.env r a) sc := by rw [hsize]; omega
  have hdvd : c.grain (c.plan.instNode c.env r a) ∣
      c.subchunkSize (c.plan.instNode c.env r a) sc := by
    unfold grain
    split
    · have hbytes : c.element ∣ c.instBytes a.inst a.output.base :=
        element_dvd_of_elementSize (CompileOptions.dvd_chunkBytesForKey _ _ _ _)
      rw [hsize]
      rcases min_choice c.slice (c.instBytes a.inst a.output.base - sc * c.slice) with h | h <;>
        rw [h]
      · exact hslice
      · exact Nat.dvd_sub hbytes (Dvd.dvd.mul_left hslice sc)
    · exact one_dvd _
  rwa [Nat.div_mul_cancel hdvd]

/-- A defined element of a chunk is defined in the version that the chunk then has. -/
theorem orderValuation_element (hslice : c.element ∣ c.slice) {m : Memory B} (pre post : List Line)
    {sc x y : ℕ} (hx : x < c.slice) {u : Fin c.element → B}
    (hu : c.definedElement (c.sequential reduce (c.userData m) pre base) (sc * c.slice + x) =
      some u) (hy : y / c.element = x / c.element) :
    c.orderValuation reduce m (pre ++ post) ⟨base, count c.lineWrites pre base⟩ sc y =
      some (u (c.inElement y)) := by
  rw [orderValuation_eq pre post (element_in_slice hslice hx hy)]
  have hj := definedElement_eq_some.1 hu (c.inElement y)
  rw [inElement_val, element_of_slice hslice, ← hy, Nat.div_add_mod'] at hj
  exact hj

/-- **A node computes what its instruction makes of the contents before it.** -/
theorem computedBy_of_instByte (hslice : c.element ∣ c.slice) {m : Memory B}
    {order pre post : List Line} {a : Assignment} {k : ℕ} (hat : At (c := c) order pre post a k)
    {r sc x : ℕ} {b : B} (hr : executionRank c.env a.inst = r) (hx : x < c.slice)
    (hy : sc * c.slice + x < c.instBytes a.inst a.output.base)
    (hb : c.instByte reduce (c.sequential reduce (c.userData m) pre) a.inst (sc * c.slice + x) =
      some b) :
    c.ComputedBy reduce (c.orderValuation reduce m order) (c.plan.instNode c.env r a) sc x b := by
  refine ⟨inSlice_of_instBytes hslice hr hx hy,
    fun i y => (c.orderValuation reduce m order i.key sc y).getD b, ?_⟩
  have hkeys := hat.node_inputs r
  obtain rfl := hat.split
  have hop : (c.plan.instNode c.env r a).op = a.inst.op := rfl
  rcases reads_cases hat.produced with ⟨hreduce, a₁, a₂, hreads⟩ | ⟨⟨hop₁, hop₂⟩, a₁, hreads⟩
  · -- both operands are defined on the whole element
    have hgrain : c.grain (c.plan.instNode c.env r a) = c.element := if_pos hreduce
    obtain ⟨i₁, i₂, hin, hk₁, hk₂⟩ : ∃ i₁ i₂, (c.plan.instNode c.env r a).inputs = [i₁, i₂] ∧
        i₁.key = ⟨a₁, count c.lineWrites pre a₁⟩ ∧ i₂.key = ⟨a₂, count c.lineWrites pre a₂⟩ := by
      simp only [hreads, List.map_cons, List.map_nil, List.map_eq_cons_iff, List.map_eq_nil_iff]
        at hkeys
      obtain ⟨i₁, l₁, hin, hk₁, i₂, l₂, rfl, hk₂, rfl⟩ := hkeys
      exact ⟨i₁, i₂, hin, hk₁, hk₂⟩
    obtain ⟨u, v, hu, hv, hres⟩ : ∃ u v,
        c.definedElement (c.sequential reduce (c.userData m) pre a₁) (sc * c.slice + x) = some u ∧
        c.definedElement (c.sequential reduce (c.userData m) pre a₂) (sc * c.slice + x) = some v ∧
        (if a.inst.op = .h2hReduce then reduce u v else reduce v u)
          (c.inElement x) = b := by
      simp only [instByte, hreads, List.head?_cons, Option.bind_some,
        inElement_of_slice hslice] at hb
      split_ifs at hb ⊢ with h₁ h₂
      · obtain ⟨u, hu, hb⟩ := Option.bind_eq_some_iff.1 hb
        obtain ⟨v, hv, hb⟩ := Option.map_eq_some_iff.1 hb
        exact ⟨u, v, hu, hv, hb⟩
      · obtain ⟨v, hv, hb⟩ := Option.bind_eq_some_iff.1 hb
        obtain ⟨u, hu, hb⟩ := Option.map_eq_some_iff.1 hb
        exact ⟨u, v, hu, hv, hb⟩
      · exact absurd hreduce (by tauto)
    have hread : ∀ y, y / c.element = x / c.element →
        c.orderValuation reduce m (pre ++ (a.inst, k) :: post) i₁.key sc y =
            some (u (c.inElement y)) ∧
          c.orderValuation reduce m (pre ++ (a.inst, k) :: post) i₂.key sc y =
            some (v (c.inElement y)) := fun y hy => by
      rw [hk₁, hk₂]
      exact ⟨orderValuation_element hslice pre _ hx hu hy,
        orderValuation_element hslice pre _ hx hv hy⟩
    have hwhole : ∀ j : Fin c.element, (x / c.element * c.element + j) / c.element =
        x / c.element ∧ c.inElement (x / c.element * c.element + j) = j := fun j => by
      rw [Fin.ext_iff, inElement_val, Nat.add_comm, Nat.add_mul_div_right _ _ c.element_pos,
        Nat.div_eq_of_lt j.2, Nat.add_mul_mod_self_right, Nat.mod_eq_of_lt j.2, Nat.zero_add]
      exact ⟨rfl, rfl⟩
    have helement : c.elementAt (fun y => (c.orderValuation reduce m (pre ++ (a.inst, k) :: post)
          i₁.key sc y).getD b) x = u ∧
        c.elementAt (fun y => (c.orderValuation reduce m (pre ++ (a.inst, k) :: post)
          i₂.key sc y).getD b) x = v := by
      constructor <;> funext j <;>
        simp only [elementAt, hread _ (hwhole j).1, Option.getD_some, (hwhole j).2]
    refine ⟨fun i hi y hy => ?_, ?_⟩
    · rw [hgrain] at hy
      rw [hin] at hi
      obtain ⟨h₁, h₂⟩ := hread y hy
      rcases List.mem_cons.1 hi with rfl | hi
      · simp only [h₁, Option.getD_some]
      · simp only [List.mem_singleton.1 hi, h₂, Option.getD_some]
    · simp only [result, hin, hop, List.head?_cons, Option.map_some, helement]
      split_ifs at hres ⊢ with h₁ h₂
      · rw [hres]
      · rw [hres]
      · exact absurd hreduce (by tauto)
  · -- a copy reads the byte alone
    have hgrain : c.grain (c.plan.instNode c.env r a) = 1 :=
      if_neg (fun h => h.elim hop₁ hop₂)
    obtain ⟨i₁, hin, hk₁⟩ : ∃ i₁, (c.plan.instNode c.env r a).inputs = [i₁] ∧
        i₁.key = ⟨a₁, count c.lineWrites pre a₁⟩ := by
      simp only [hreads, List.map_cons, List.map_nil, List.map_eq_cons_iff, List.map_eq_nil_iff]
        at hkeys
      obtain ⟨i₁, l₁, hin, hk₁, rfl⟩ := hkeys
      exact ⟨i₁, hin, hk₁⟩
    have hvalue : c.orderValuation reduce m (pre ++ (a.inst, k) :: post) i₁.key sc x = some b := by
      rw [hk₁, orderValuation_eq pre _ hx]
      simpa only [instByte, hreads, if_neg hop₁, if_neg hop₂] using hb
    refine ⟨fun i hi y hy => ?_, ?_⟩
    · rw [hgrain, Nat.div_one, Nat.div_one] at hy
      rw [hin] at hi
      simp only [List.mem_singleton.1 hi, hy, hvalue, Option.getD_some]
    · simp only [result, hin, hop, if_neg hop₁, if_neg hop₂, hvalue, Option.getD_some]

/-- Input data rings nowhere. -/
theorem ring_of_inputData (h : InputData c.program c.worldSize base) : c.ring base = false := by
  simp [ring, ringChunk, h.1]

/-- **The versions of the compiler name the contents that an order goes through.** -/
theorem InOrder.meaning (hc : c.Plain) (hslice : c.element ∣ c.slice) {order : List Line}
    (h : c.InOrder order) (m : Memory B) : c.Meaning reduce m (c.orderValuation reduce m order) := by
  rintro ⟨base, version⟩ sc x b hb
  have hbound : version ≤ count c.lineWrites order base ∧ x < c.slice := by
    by_contra hno
    rw [orderValuation, if_neg hno] at hb
    cases hb
  obtain ⟨hversion, hx⟩ := hbound
  cases version with
  | zero =>
    rw [orderValuation, if_pos ⟨hversion, hx⟩] at hb
    simp only [upTo, sequential, run_nil] at hb
    by_cases hin : InputData c.program c.worldSize base ∧
        sc * c.slice + x < c.graphOptions.legacyLayout.chunkBytesForKey c.program
          (maxInputChunkCount c.program base.owner) base
    · rw [userData, if_pos hin, Option.some.injEq] at hb
      refine Or.inl ⟨rfl, hx, ?_⟩
      rw [place_of_not_ring (ring_of_inputData hin.1)]
      exact hb
    · rw [userData, if_neg hin] at hb
      cases hb
  | succ v =>
    rw [h.count_eq] at hversion
    obtain ⟨a, ha, hout⟩ := c.plan.exists_producer (Nat.succ_pos v) hversion
    obtain ⟨pre, post, k, hat⟩ := h.exists_at ha
    obtain ⟨r, hr, hexec⟩ := c.plan.exists_executionRank hc.ranks ha
    obtain ⟨i, hnode⟩ := c.plan.exists_node ha hexec
    have hbase : a.output.base = base := by rw [hout]
    subst hbase
    have hw : c.lineWrites (a.inst, k) = some a.output.base := hat.produced
    have hcount : count c.lineWrites (pre ++ [(a.inst, k)]) a.output.base = v + 1 := by
      have hversion := hat.version
      rw [hout] at hversion
      simp only at hversion
      rw [count_append, count_cons, count_nil, if_pos hw]
      omega
    have horder : order = (pre ++ [(a.inst, k)]) ++ post := by simp [hat.split]
    rw [← hcount, horder, orderValuation_eq _ _ hx] at hb
    simp only [sequential, run_append, run_cons, run_nil] at hb
    rw [execute_self hw] at hb
    simp only [lineValue, hat.produced] at hb
    by_cases hy : sc * c.slice + x < c.instBytes a.inst a.output.base
    · rw [if_pos hy] at hb
      exact Or.inr ⟨r, hr, i, _, hnode, hout, computedBy_of_instByte hslice hat hexec hx hy hb⟩
    · rw [if_neg hy] at hb
      cases hb

end Cluster

/-- The piece of a node does what its line does: each operand byte that it reads is the one that
the lines before it, one after the other, leave in the chunk. -/
def Cluster.FollowsOrder (c : Cluster) {B : Type} (reduce : c.Reduction B) (m : Memory B)
    (order : List Line) (tr : List Piece) (p : Piece) : Prop :=
  ∃ n pre line post, c.node? p.rank p.node = some n ∧ order = pre ++ line :: post ∧
    n.op = line.1.op ∧ c.lineWrites line = some n.output.base ∧
    n.inputs.map (·.key.base) = c.reads line.1 ∧
    ∀ a ∈ n.inputs, ∀ x y, p.start ≤ x → x < p.stop → y / c.grain n = x / c.grain n →
      ∀ b, c.sequential reduce (c.userData m) pre a.key.base (p.sc * c.slice + y) = some b →
        c.operandByte (c.memory reduce m tr) p.sc a y = b

section

variable {c : Cluster} {B : Type} {reduce : c.Reduction B} {m : Memory B} {stale : Word → ℕ}
  {ls : List Label} {s s' : State} {l : Label} {order : List Line}

end

/-! ### Two ranks and their sum -/

def pairSumProgram : IRProgram where
  inputChunkCount := 1
  outputChunkCount := 1
  allInstructions :=
    [{ op := .d2h, rank := 0, src := ⟨0, 0⟩, dst := ⟨0, 0⟩ },
     { op := .d2h, rank := 1, src := ⟨0, 0⟩, dst := ⟨0, 1⟩ },
     { op := .h2hReduce, rank := 0, src := ⟨0, 0⟩, src2 := ⟨0, 1⟩, dst := ⟨0, 2⟩ },
     { op := .h2d, rank := 0, src := ⟨0, 2⟩, dst := ⟨0, 0⟩ },
     { op := .h2d, rank := 1, src := ⟨0, 2⟩, dst := ⟨0, 0⟩ }]

/-- The inputs of two ranks are added on the host, and both ranks fetch the sum. -/
def pairSum : Cluster where
  env := {}
  graphOptions := { legacyLayout := { segCount := 2 } }
  program := pairSumProgram
  worldSize := 2
  plan := (plan? _ _ _).get (by decide)
  binding := fun _ => plainBinding
  h2hThreads := 1
  h2hThreads_pos := Nat.one_pos

/-- Rank `r` copies through node `i`, `k` operations after the copy. -/
def copyThrough (r i : ℕ) (q : Queue) (k : ℕ) : List Label :=
  [.attempt r i] ++ runs r 4 ++ [.work r q 0 0 8, .count r q 0 0, .poll r q 0] ++ runs r k

/-- Both inputs are on the host, and the sum is submitted. -/
def pairSumFill : List Label :=
  [.start 0] ++ runs 0 15 ++ [.start 1] ++ runs 1 13 ++ copyThrough 0 0 .d2h 6 ++
  copyThrough 1 0 .d2h 6 ++ [.attempt 0 1] ++ runs 0 4

/-- The sum is computed and fetched. -/
def pairSumAll : List Label :=
  pairSumFill ++ [.work 0 .h2h 0 0 4, .work 0 .h2h 0 0 4, .count 0 .h2h 0 0, .poll 0 .h2h 0] ++
  runs 0 11 ++ copyThrough 0 2 .h2d 8 ++ copyThrough 1 1 .h2d 8

/-- Bytes are added, not elements. -/
def addBytes : pairSum.Reduction ℕ := fun u v j => u j + v j

/-- Byte `y` of the input of rank `r` is `10 r + y`. -/
def pairSumInputs : Memory ℕ := fun base y => 10 * base.owner.toNat + y

theorem pairSum_plain : pairSum.Plain where
  words := by decide
  issued := rfl
  ranks := by decide
  outOfPlace := rfl
  rings := by decide +kernel

theorem pairSum_inOrder : pairSum.InOrder pairSum.lines := ⟨List.Perm.refl _, by decide +kernel⟩

theorem pairSum_finished :
    ∃ s, pairSum.machine.runFrom pairSum.disciplined (State.init fun _ => 0) pairSumAll = some s ∧
      Finished pairSum s := by
  have hobs : ((pairSum.machine.runFrom pairSum.disciplined (State.init fun _ => 0)
      pairSumAll).map fun s => decide (∀ r < 2, ∀ i < 3,
        pairSum.node? r i = none ∨ (s.execs r).completed i = 1)) = some true := by decide +kernel
  obtain ⟨s, hrun, hobs⟩ := Option.map_eq_some_iff.1 hobs
  have hdone := of_decide_eq_true hobs
  refine ⟨s, hrun, fun r hr i n hn => ?_⟩
  have hlen : ∀ r < 2, (pairSum.graph r).nodes.length ≤ 3 := by decide +kernel
  have hi : i < 3 := (List.getElem?_eq_some_iff.1 hn).1.trans_le (hlen r hr)
  rcases hdone r hr i hi with hnone | hcompleted
  · rw [hn] at hnone
    cases hnone
  · rw [hcompleted]
    decide +kernel

end Executor
end HyLink
