import HyLink.Api.IrSelection
import HyLink.Ir.Program

/-!
# Loading an IR program

`IRLoader` of the CUDA library turns a document into a program.  The document is the element tree
that the XML library has parsed; an element has attributes, and a number is read from one as
`sscanf` reads it.  A rank element names a rank, an instruction element an operation with its
chunks, its NUMA nodes and its buffers; whatever is not given has a default.

The loader rejects an unknown operation or buffer, and a document without the loading rank.  It
takes every number as it is.

* `mem_allInstructions` — the instructions of a program are those of the document's elements.
* `inputChunkCount_le_iff`, `outputChunkCount_le_iff` — the chunk counts are those of the
  instructions.
-/

namespace HyLink
namespace Api
namespace IrLoader

open Ir IrSelection

/-! ## Documents -/

/-- An element of a parsed document.  Text and comments are left out: the loader only asks for
elements. -/
inductive Element
  | mk (name : String) (attributes : List (String × String)) (children : List Element)

/-- The integer that a C `int` of 32 bits holds. -/
def toInt32 (value : ℤ) : ℤ := value.bmod (2 ^ 32)

def isSpace (c : Char) : Bool := c.toNat == 32 || (9 ≤ c.toNat && c.toNat ≤ 13)

def digitValue (base : ℕ) (c : Char) : Option ℕ :=
  let digit :=
    if 48 ≤ c.toNat ∧ c.toNat ≤ 57 then some (c.toNat - 48)
    else if 97 ≤ c.toNat ∧ c.toNat ≤ 102 then some (c.toNat - 87)
    else if 65 ≤ c.toNat ∧ c.toNat ≤ 70 then some (c.toNat - 55)
    else none
  digit.filter fun d => d < base

/-- The digits up to the first other character, as a number after `value`. -/
def scanFrom (base : ℕ) : ℕ → List Char → ℕ
  | value, [] => value
  | value, c :: rest =>
    match digitValue base c with
    | none => value
    | some digit => scanFrom base (value * base + digit) rest

/-- A number starts with a digit. -/
def scanDigits (base : ℕ) : List Char → Option ℕ
  | [] => none
  | c :: rest => (digitValue base c).map fun digit => scanFrom base digit rest

/-- `XMLUtil::ToInt`: decimal with an optional sign, or hexadecimal. -/
def toInt (str : String) : Option ℤ :=
  match str.toList.dropWhile isSpace with
  | '0' :: 'x' :: rest | '0' :: 'X' :: rest => (scanDigits 16 rest).map fun v => toInt32 v
  | '-' :: rest => (scanDigits 10 rest).map fun v => toInt32 (-v)
  | '+' :: rest => (scanDigits 10 rest).map fun v => toInt32 v
  | digits => (scanDigits 10 digits).map fun v => toInt32 v

namespace Element

def name : Element → String
  | mk name _ _ => name

def attributes : Element → List (String × String)
  | mk _ attributes _ => attributes

def children : Element → List Element
  | mk _ _ children => children

/-- `FirstChildElement` and `NextSiblingElement`: the children of a name, in document order. -/
def childrenNamed (elem : Element) (name : String) : List Element :=
  elem.children.filter fun child => child.name == name

/-- `Attribute`. -/
def attr (elem : Element) (name : String) : Option String :=
  (elem.attributes.find? fun a => a.1 == name).map (·.2)

/-- `IntAttribute`. -/
def intAttribute (elem : Element) (name : String) (default : ℤ) : ℤ :=
  ((elem.attr name).bind toInt).getD default

/-- A chunk with its NUMA node; a negative node is the default one. -/
def address (elem : Element) (chunk numa : String) (defaultNuma : ℤ) : ChunkAddress where
  numaId := if 0 ≤ elem.intAttribute numa (-1) then elem.intAttribute numa (-1) else defaultNuma
  chunkIdx := elem.intAttribute chunk 0

end Element

/-! ## Instructions -/

def parseOpCode : Option String → Except String OpCode
  | none => .error "Missing op attribute"
  | some "NOP" => .ok .nop
  | some "D2D" => .ok .d2d
  | some "D2H" => .ok .d2h
  | some "H2D" => .ok .h2d
  | some "H2H" => .ok .h2h
  | some "H2HReduce" => .ok .h2hReduce
  | some "D2DReduce" => .ok .d2dReduce
  | some s => .error ("Unknown OpCode: " ++ s)

def parseDeviceBufferKind : Option String → DeviceBufferKind → Except String DeviceBufferKind
  | none, defaultKind => .ok defaultKind
  | some "input", _ => .ok .input
  | some "output", _ => .ok .output
  | some "scratch", _ => .ok .scratch
  | some "internal", _ => .ok .internal
  | some s, _ => .error ("Unknown device buffer kind: " ++ s)

def parseInstructionCommon (elem : Element) (rankForDefaultNuma defaultNuma : ℤ) :
    Except String Instruction := do
  let op ← parseOpCode (elem.attr "op")
  let srcBuf ← parseDeviceBufferKind (elem.attr "src_buf") .input
  let dstBuf ← parseDeviceBufferKind (elem.attr "dst_buf") .output
  return {
    op := op
    rank := rankForDefaultNuma
    srcRank := elem.intAttribute "src_rank" rankForDefaultNuma
    srcBuf := srcBuf
    dstBuf := dstBuf
    src := if op = .h2hReduce then elem.address "src1_chunk" "src1_numa" defaultNuma
      else elem.address "src_chunk" "src_numa" defaultNuma
    src2 := if op = .h2hReduce then elem.address "src2_chunk" "src2_numa" defaultNuma else ⟨-1, -1⟩
    dst := elem.address "dst_chunk" "dst_numa" defaultNuma }

/-! ## Programs -/

/-- `getNUMAForGPU`. -/
def getNUMAForGPU (topo : LocalTopology) (gpu : ℤ) : ℤ :=
  if gpu < 0 ∨ (topo.deviceToNuma.length : ℤ) ≤ gpu then 0
  else topo.deviceToNuma.getD gpu.toNat 0

/-- The NUMA node of instructions that name none. -/
def defaultNuma (topo : Option LocalTopology) (rank : ℤ) : ℤ :=
  match topo with
  | none => 0
  | some topo => getNUMAForGPU topo rank

/-- `<rank id=...>`. -/
def rankId (elem : Element) : ℤ := elem.intAttribute "id" (-1)

def parseRank (topo : Option LocalTopology) (elem : Element) : Except String (List Instruction) :=
  (elem.childrenNamed "instruction").mapM fun inst =>
    parseInstructionCommon inst (rankId elem) (defaultNuma topo (rankId elem))

/-- The instruction reads this chunk of `INPUT`. -/
def readsInput (inst : Instruction) : Prop :=
  (inst.op = .d2h ∨ inst.op = .d2d ∨ inst.op = .d2dReduce) ∧ inst.srcBuf = .input

/-- The instruction writes this chunk of `OUTPUT`. -/
def writesOutput (inst : Instruction) : Prop :=
  (inst.op = .h2d ∨ inst.op = .d2d ∨ inst.op = .d2dReduce) ∧ inst.dstBuf = .output

instance (inst : Instruction) : Decidable (readsInput inst) := by
  unfold readsInput; infer_instance

instance (inst : Instruction) : Decidable (writesOutput inst) := by
  unfold writesOutput; infer_instance

/-- The largest chunk among the instructions that a condition picks, from `start` on. -/
def maxChunk (picks : Instruction → Bool) (chunk : Instruction → ℤ) (start : ℤ)
    (insts : List Instruction) : ℤ :=
  insts.foldl (fun bound inst => if picks inst then max bound (chunk inst) else bound) start

def maxSrcChunk : ℤ → List Instruction → ℤ := maxChunk (readsInput ·) (·.src.chunkIdx)

def maxDstChunk : ℤ → List Instruction → ℤ := maxChunk (writesOutput ·) (·.dst.chunkIdx)

/-- The rank elements of a document. -/
def rankElements (doc : List Element) : List Element :=
  ((doc.find? fun elem => elem.name == "ir_program").map (·.childrenNamed "rank")).getD []

/-- `parseDocument`: the loading rank's instructions first, then those of all ranks. -/
def parseDocument (doc : List Element) (rank : ℤ) (topo : Option LocalTopology) :
    Except String IRProgram :=
  match doc.find? fun elem => elem.name == "ir_program" with
  | none => .error "Missing <ir_program> root element"
  | some root =>
    match (root.childrenNamed "rank").find? fun elem => rankId elem == rank with
    | none => .error ("No <rank id=\"" ++ toString rank ++ "\"> found in IR")
    | some rankElem => do
      let own ← parseRank topo rankElem
      let all ← (root.childrenNamed "rank").mapM (parseRank topo)
      return {
        inputChunkCount := (maxSrcChunk (maxSrcChunk (-1) own) all.flatten + 1).toNat
        outputChunkCount := (maxDstChunk (maxDstChunk (-1) own) all.flatten + 1).toNat
        allInstructions := all.flatten }

/-! ## What is loaded -/

section

variable {α β ε : Type} {f : α → Except ε β}

theorem bind_eq_ok {γ : Type} {x : Except ε α} {g : α → Except ε γ} {c : γ} :
    x >>= g = .ok c ↔ ∃ a, x = .ok a ∧ g a = .ok c := by
  cases x <;> simp [bind, Except.bind]

/-- What a loop that stops at the first error has collected. -/
theorem mem_of_mapM {l : List α} {ys : List β} (h : l.mapM f = .ok ys) :
    ∀ y, y ∈ ys ↔ ∃ x ∈ l, f x = .ok y := by
  induction l generalizing ys with
  | nil =>
    cases h
    simp
  | cons x l ih =>
    rw [List.mapM_cons] at h
    obtain ⟨y, hy, h⟩ := bind_eq_ok.1 h
    obtain ⟨rest, hrest, h⟩ := bind_eq_ok.1 h
    cases h
    intro z
    rw [List.mem_cons, ih hrest z]
    simp [hy, eq_comm]

theorem exists_of_mapM {l : List α} {ys : List β} (h : l.mapM f = .ok ys) :
    ∀ x ∈ l, ∃ y, f x = .ok y := by
  induction l generalizing ys with
  | nil => simp
  | cons x l ih =>
    rw [List.mapM_cons] at h
    obtain ⟨y, hy, h⟩ := bind_eq_ok.1 h
    obtain ⟨rest, hrest, h⟩ := bind_eq_ok.1 h
    intro z hz
    rcases List.mem_cons.1 hz with rfl | hz
    · exact ⟨y, hy⟩
    · exact ih hrest z hz

end

/-- A maximum is below a bound when everything it is taken of is. -/
theorem maxChunk_lt {picks : Instruction → Bool} {chunk : Instruction → ℤ} {start bound : ℤ}
    {insts : List Instruction} : maxChunk picks chunk start insts < bound ↔
      start < bound ∧ ∀ inst ∈ insts, picks inst = true → chunk inst < bound := by
  induction insts generalizing start with
  | nil => simp [maxChunk]
  | cons inst insts ih =>
    rw [maxChunk, List.foldl_cons, ← maxChunk, ih, List.forall_mem_cons]
    by_cases hp : picks inst = true
    · simp only [hp, if_true, max_lt_iff, forall_const]
      tauto
    · simp [hp]

section

variable {doc : List Element} {rank : ℤ} {topo : Option LocalTopology} {program : IRProgram}

theorem parseDocument_ok (h : parseDocument doc rank topo = .ok program) :
    ∃ rankElem ∈ rankElements doc, ∃ own all, rankId rankElem = rank ∧
      parseRank topo rankElem = .ok own ∧
      (rankElements doc).mapM (parseRank topo) = .ok all ∧
      program = {
        inputChunkCount := (maxSrcChunk (maxSrcChunk (-1) own) all.flatten + 1).toNat
        outputChunkCount := (maxDstChunk (maxDstChunk (-1) own) all.flatten + 1).toNat
        allInstructions := all.flatten } := by
  rw [parseDocument] at h
  split at h
  · cases h
  · next root hroot =>
    have helems : rankElements doc = root.childrenNamed "rank" := by
      rw [rankElements, hroot]
      rfl
    split at h
    · cases h
    · next rankElem hfind =>
      obtain ⟨own, hown, h⟩ := bind_eq_ok.1 h
      obtain ⟨all, hall, h⟩ := bind_eq_ok.1 h
      rw [helems]
      exact ⟨rankElem, List.mem_of_find?_eq_some hfind, own, all,
        by simpa using List.find?_some hfind, hown, hall, (Except.ok.inj h).symm⟩

/-- **The instructions of a program** are those of the elements of all ranks. -/
theorem mem_allInstructions (h : parseDocument doc rank topo = .ok program) {inst : Instruction} :
    inst ∈ program.allInstructions ↔ ∃ r ∈ rankElements doc, ∃ e ∈ r.childrenNamed "instruction",
      parseInstructionCommon e (rankId r) (defaultNuma topo (rankId r)) = .ok inst := by
  obtain ⟨rankElem, -, own, all, -, -, hall, rfl⟩ := parseDocument_ok h
  simp only [List.mem_flatten, mem_of_mapM hall]
  constructor
  · rintro ⟨insts, ⟨r, hr, hparse⟩, hi⟩
    exact ⟨r, hr, (mem_of_mapM hparse inst).1 hi⟩
  · rintro ⟨r, hr, he⟩
    obtain ⟨insts, hparse⟩ := exists_of_mapM hall r hr
    exact ⟨insts, ⟨r, hr, hparse⟩, (mem_of_mapM hparse inst).2 he⟩

/-- Every instruction element is an instruction. -/
theorem exists_instruction (h : parseDocument doc rank topo = .ok program) {r e : Element}
    (hr : r ∈ rankElements doc) (he : e ∈ r.childrenNamed "instruction") :
    ∃ inst, parseInstructionCommon e (rankId r) (defaultNuma topo (rankId r)) = .ok inst := by
  obtain ⟨rankElem, -, own, all, -, -, hall, -⟩ := parseDocument_ok h
  obtain ⟨insts, hparse⟩ := exists_of_mapM hall r hr
  exact exists_of_mapM hparse e he

/-- The loading rank's instructions are among those of all ranks, so that they add nothing to a
maximum. -/
theorem maxChunk_own {picks : Instruction → Bool} {chunk : Instruction → ℤ} {rankElem : Element}
    {own : List Instruction} {all : List (List Instruction)} (hmem : rankElem ∈ rankElements doc)
    (hown : parseRank topo rankElem = .ok own)
    (hall : (rankElements doc).mapM (parseRank topo) = .ok all) {n : ℕ} :
    (maxChunk picks chunk (maxChunk picks chunk (-1) own) all.flatten + 1).toNat ≤ n ↔
      ∀ inst ∈ all.flatten, picks inst = true → chunk inst < n := by
  have hsub : ∀ inst ∈ own, inst ∈ all.flatten := fun inst hi =>
    List.mem_flatten.2 ⟨own, (mem_of_mapM hall own).2 ⟨rankElem, hmem, hown⟩, hi⟩
  have hlt : (maxChunk picks chunk (maxChunk picks chunk (-1) own) all.flatten + 1).toNat ≤ n ↔
      maxChunk picks chunk (maxChunk picks chunk (-1) own) all.flatten < n := by omega
  rw [hlt, maxChunk_lt, maxChunk_lt]
  constructor
  · rintro ⟨-, h⟩
    exact h
  · intro h
    exact ⟨⟨by omega, fun inst hi => h inst (hsub inst hi)⟩, h⟩

theorem inputChunkCount_le_iff (h : parseDocument doc rank topo = .ok program) {n : ℕ} :
    program.inputChunkCount ≤ n ↔
      ∀ inst ∈ program.allInstructions, readsInput inst → inst.src.chunkIdx < n := by
  obtain ⟨rankElem, hmem, own, all, -, hown, hall, rfl⟩ := parseDocument_ok h
  rw [show maxSrcChunk = maxChunk (readsInput ·) (·.src.chunkIdx) from rfl,
    maxChunk_own hmem hown hall]
  simp

theorem outputChunkCount_le_iff (h : parseDocument doc rank topo = .ok program) {n : ℕ} :
    program.outputChunkCount ≤ n ↔
      ∀ inst ∈ program.allInstructions, writesOutput inst → inst.dst.chunkIdx < n := by
  obtain ⟨rankElem, hmem, own, all, -, hown, hall, rfl⟩ := parseDocument_ok h
  rw [show maxDstChunk = maxChunk (writesOutput ·) (·.dst.chunkIdx) from rfl,
    maxChunk_own hmem hown hall]
  simp

end

end IrLoader
end Api
end HyLink
