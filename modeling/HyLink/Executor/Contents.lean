import HyLink.Executor.Readers

/-!
# What the chunks contain

So far a run has been a matter of cursors.  Here are the bytes: a memory holds the storage of
every chunk, each piece of the ledger changes it, and a slice of a ring-buffered host chunk lives
in the slot the ring gives it.

A **meaning** says what each version of a chunk contains, slice by slice, without mentioning
storage, slots or the order of anything: a version contains what its one writer makes of the
versions that writer reads, and version zero contains what the chunk held at the start.

* `Cluster.memory` — the memory after the pieces of a ledger.
* `Cluster.Meaning` — the equations a meaning satisfies.
* `Cluster.applyPiece_outside`, `Cluster.applyPiece_inside` — what a piece leaves and what it
  stores.
-/

namespace HyLink
namespace Executor

open Ir Compiler

/-- The storage of every chunk, by offset. -/
abbrev Memory (B : Type) := BaseKey → ℕ → B

/-- What each chunk version contains: byte `x` of slice `sc`, where the program says. -/
abbrev Valuation (B : Type) := ProgressKey → ℕ → ℕ → Option B

namespace Cluster

variable (c : Cluster) {B : Type}

/-! ## What a node computes -/

/-- Bytes of an element of a reduction. -/
def element : ℕ := max 1 c.elementSize

theorem element_pos : 0 < c.element := Nat.lt_of_lt_of_le Nat.one_pos (Nat.le_max_left _ _)

/-- `reduceValue`, on the bytes of two elements. -/
abbrev Reduction (B : Type) := (Fin c.element → B) → (Fin c.element → B) → Fin c.element → B

/-- The element that byte `x` lies in. -/
def elementAt (f : ℕ → B) (x : ℕ) : Fin c.element → B := fun j => f (x / c.element * c.element + j)

/-- The place of byte `x` in its element. -/
def inElement (x : ℕ) : Fin c.element := ⟨x % c.element, Nat.mod_lt x c.element_pos⟩

@[simp] theorem inElement_val (x : ℕ) : (c.inElement x : ℕ) = x % c.element := rfl

/-- Byte `x` of a slice that a node writes, from the bytes of its operands.  A host reduce combines
its two sources, a device reduce combines its destination, the second operand, with its source. -/
def result (reduce : c.Reduction B) (n : InstructionNode) (read : NodeInput → ℕ → B) (x : ℕ) :
    Option B :=
  match n.inputs with
  | [] => none
  | a :: rest =>
      if n.op = .h2hReduce then
        rest.head?.map fun b =>
          reduce (c.elementAt (read a) x) (c.elementAt (read b) x) (c.inElement x)
      else if n.op = .d2dReduce then
        rest.head?.map fun b =>
          reduce (c.elementAt (read b) x) (c.elementAt (read a) x) (c.inElement x)
      else some (read a x)

/-- Bytes that are read together: those of an element for a reduce. -/
def grain (n : InstructionNode) : ℕ :=
  if n.op = .h2hReduce ∨ n.op = .d2dReduce then c.element else 1

/-! ## Memories -/

/-- Byte `x` of slice `sc` of an operand: the slice lives where the ring puts it. -/
def operandByte (m : Memory B) (sc : ℕ) (a : NodeInput) (x : ℕ) : B :=
  m a.key.base (c.subOffset a.ringBuffered sc + x)

/-- The bytes `start` to `stop` of a slice are worked through. -/
def applyPiece (reduce : c.Reduction B) (m : Memory B) (p : Piece) : Memory B :=
  match c.node? p.rank p.node with
  | none => m
  | some n => fun base y =>
      let off := c.subOffset n.outputRingBuffered p.sc
      if base = n.output.base ∧ off + p.start ≤ y ∧ y < off + p.stop then
        (c.result reduce n (c.operandByte m p.sc) (y - off)).getD (m base y)
      else m base y

/-- The memory after the pieces of a ledger, in their order. -/
def memory (reduce : c.Reduction B) (m : Memory B) (tr : List Piece) : Memory B :=
  tr.foldl (c.applyPiece reduce) m

/-! ## Meanings -/

/-- Ring flag of a chunk. -/
def ring (base : BaseKey) : Bool := ringChunk c.env c.program c.chunkSize base

/-- Where byte `x` of slice `sc` of a chunk is stored. -/
def place (base : BaseKey) (sc x : ℕ) : ℕ := c.subOffset (c.ring base) sc + x

/-- A version contains byte `b`, because the chunk held it at the start. -/
structure Initially (m : Memory B) (key : ProgressKey) (sc x : ℕ) (b : B) : Prop where
  version : key.version = 0
  inSlice : x < c.slice
  held : m key.base (c.place key.base sc x) = b

/-- A version contains byte `b`, because node `n` computes it from what its operands contain. -/
structure ComputedBy (reduce : c.Reduction B) (V : Valuation B) (n : InstructionNode) (sc x : ℕ)
    (b : B) : Prop where
  inSlice : x < c.subchunkSize n sc / c.grain n * c.grain n
  operands : ∃ read : NodeInput → ℕ → B, (∀ a ∈ n.inputs, ∀ y, y / c.grain n = x / c.grain n →
    V a.key sc y = some (read a y)) ∧ c.result reduce n read x = some b

/-- **The equations of a meaning**, for the program of the cluster started on memory `m`. -/
def Meaning (reduce : c.Reduction B) (m : Memory B) (V : Valuation B) : Prop :=
  ∀ key sc x b, V key sc x = some b → c.Initially m key sc x b ∨
    ∃ r < c.worldSize, ∃ i n, c.node? r i = some n ∧ n.output = key ∧
      c.ComputedBy reduce V n sc x b

variable {c} {reduce : c.Reduction B} {m : Memory B} {p : Piece} {n : InstructionNode}

/-! ## One piece -/

theorem memory_append (tr tr' : List Piece) :
    c.memory reduce m (tr ++ tr') = c.memory reduce (c.memory reduce m tr) tr' :=
  List.foldl_append

theorem memory_snoc (tr : List Piece) (p : Piece) :
    c.memory reduce m (tr ++ [p]) = c.applyPiece reduce (c.memory reduce m tr) p := by
  rw [memory_append]
  rfl

/-- **A piece leaves the rest alone.** -/
theorem applyPiece_outside (hn : c.node? p.rank p.node = some n) {base : BaseKey} {y : ℕ}
    (h : ∀ x, p.start ≤ x → x < p.stop → base = n.output.base →
      y ≠ c.subOffset n.outputRingBuffered p.sc + x) :
    c.applyPiece reduce m p base y = m base y := by
  simp only [applyPiece, hn]
  rw [if_neg]
  rintro ⟨hbase, hstart, hstop⟩
  refine h (y - c.subOffset n.outputRingBuffered p.sc) (by omega) (by omega) hbase ?_
  omega

/-- **A piece stores what its node computes.** -/
theorem applyPiece_inside (hn : c.node? p.rank p.node = some n) {x : ℕ} (hstart : p.start ≤ x)
    (hstop : x < p.stop) {b : B}
    (hb : c.result reduce n (c.operandByte m p.sc) x = some b) :
    c.applyPiece reduce m p n.output.base (c.subOffset n.outputRingBuffered p.sc + x) = b := by
  simp only [applyPiece, hn]
  rw [if_pos ⟨trivial, by omega, by omega⟩, Nat.add_sub_cancel_left, hb, Option.getD_some]

/-- The element of a byte is a grain of a reduce. -/
theorem elementAt_congr (hop : n.op = .h2hReduce ∨ n.op = .d2dReduce) {f g : ℕ → B} {x : ℕ}
    (h : ∀ y, y / c.grain n = x / c.grain n → f y = g y) : c.elementAt f x = c.elementAt g x := by
  have hgrain : c.grain n = c.element := if_pos hop
  rw [hgrain] at h
  funext j
  refine h _ ?_
  rw [Nat.add_comm, Nat.add_mul_div_right _ _ c.element_pos, Nat.div_eq_of_lt j.2, Nat.zero_add]

/-- What a node computes depends on the bytes of the grain only. -/
theorem result_congr {read read' : NodeInput → ℕ → B} {x : ℕ}
    (h : ∀ a ∈ n.inputs, ∀ y, y / c.grain n = x / c.grain n → read a y = read' a y) :
    c.result reduce n read x = c.result reduce n read' x := by
  unfold result
  split
  · rfl
  · next a rest hin =>
    rw [hin] at h
    have ha := h a List.mem_cons_self
    have hrest : ∀ b, rest.head? = some b → ∀ y, y / c.grain n = x / c.grain n →
        read b y = read' b y := fun b hb => h b (List.mem_cons_of_mem _ (List.mem_of_mem_head? hb))
    split
    · next hop =>
      cases hb : rest.head? with
      | none => rfl
      | some b => simp only [Option.map_some, elementAt_congr (Or.inl hop) ha,
          elementAt_congr (Or.inl hop) (hrest b hb)]
    · split
      · next hop =>
        cases hb : rest.head? with
        | none => rfl
        | some b => simp only [Option.map_some, elementAt_congr (Or.inr hop) ha,
            elementAt_congr (Or.inr hop) (hrest b hb)]
      · rw [ha x rfl]

end Cluster

end Executor
end HyLink
