import Mathlib.Algebra.Group.Nat.Defs
import HyLink.Theory.Fields

/-!
# Splitting a communicator

`ncclCommSplit` makes the unique id of the child out of what the rank knows of the parent: the hash
of the parent's id, the number of children the rank has had of it, the colour and the size.  The
child is created with the parent's size and the rank's own rank.

* `ncclCommSplit` — a call of one rank.
* `splitId_inj` — an id determines what it is made of.
* `split_children` — the children of a parent, in every sequence of splits.
* `two_colors` — a parent of two ranks that is split into one each.
-/

namespace HyLink
namespace Api
namespace CommSplit

open Theory

/-! ## The unique id of a child -/

/-- `NCCL_UNIQUE_ID_BYTES` -/
def ncclUniqueIdBytes : ℕ := 128

/-- The character that ends a string. -/
def nul : Char := Char.ofNat 0

/-- `%llu`, and `%d` of a number that is not negative. -/
def decimal (n : ℕ) : List Char := Nat.toDigits 10 n

/-- The last `n` hexadecimal digits. -/
def hex : ℕ → ℕ → List Char
  | 0, _ => []
  | n + 1, h => hex n (h / 16) ++ [Nat.digitChar (h % 16)]

/-- `pccl_split_%016llx_%llu_%d_%d` -/
def splitFields (idHash splitSeq : UInt64) (color : Int32) (nranks : ℕ) : List (List Char) :=
  ["pccl".toList, "split".toList, hex 16 idHash.toNat, decimal splitSeq.toNat,
    decimal color.toInt.toNat, decimal nranks]

/-- `split_id`: `snprintf` into a block of zeros. -/
def splitId (idHash splitSeq : UInt64) (color : Int32) (nranks : ℕ) : List Char :=
  padded ncclUniqueIdBytes nul
    ((joined '_' (splitFields idHash splitSeq color nranks)).take (ncclUniqueIdBytes - 1))

/-! ## The call -/

/-- `NcclCompatCommState`, as far as splitting goes. -/
structure CommState where
  idHash : UInt64
  multiProcess : Bool
  splitSeq : UInt64
  deriving DecidableEq, Repr

/-- An `ncclComm_t`. -/
structure Comm where
  nranks : ℕ
  rank : ℕ
  /-- `reinterpret_cast<uintptr_t>` -/
  address : UInt64
  /-- `comm->process_state->isMultiProcess()` -/
  processMulti : Bool
  /-- Its entry in `s_comm_states`. -/
  state : Option CommState
  deriving DecidableEq, Repr

/-- What `ncclCommInitRank` is called with, and the `multi_process` of the child. -/
structure Child where
  nranks : ℕ
  uniqueId : List Char
  rank : ℕ
  multiProcess : Bool
  deriving DecidableEq, Repr

def nextSplitSeq (comm : Comm) : UInt64 × Comm :=
  match comm.state with
  | none => (0, comm)
  | some state =>
    (state.splitSeq + 1, { comm with state := some { state with splitSeq := state.splitSeq + 1 } })

/-- `ncclCommSplit` with a `newcomm`, and the communicator after the call. -/
def ncclCommSplit (comm : Comm) (color _key : Int32) : Option Child × Comm :=
  if color < 0 then (none, comm)
  else
    let parentState := comm.state.getD ⟨comm.address, comm.processMulti, 0⟩
    let next := nextSplitSeq comm
    let splitSeq := if next.1 = 0 then 1 else next.1
    (some ⟨comm.nranks, splitId parentState.idHash splitSeq color comm.nranks, comm.rank,
      parentState.multiProcess⟩, next.2)

/-! ## A parent -/

/-- A communicator and the colours and keys its ranks split it with. -/
structure Parent where
  nranks : ℕ
  nranks_lt : nranks < 2 ^ 31
  /-- The hash of its own unique id. -/
  idHash : UInt64
  multiProcess : Bool
  address : ℕ → UInt64
  /-- Of a split, for a rank. -/
  color : ℕ → ℕ → Int32
  key : ℕ → ℕ → Int32

namespace Parent

variable (p : Parent)

/-- The communicator of a rank before it takes part in split `k`. -/
def comm (r : ℕ) : ℕ → Comm
  | 0 => ⟨p.nranks, r, p.address r, p.multiProcess, some ⟨p.idHash, p.multiProcess, 0⟩⟩
  | k + 1 => (ncclCommSplit (comm r k) (p.color k r) (p.key k r)).2

/-- The child split `k` gives to a rank. -/
def child (k r : ℕ) : Option Child := (ncclCommSplit (p.comm r k) (p.color k r) (p.key k r)).1

/-- The children a rank has had before split `k`. -/
def count (r : ℕ) : ℕ → ℕ
  | 0 => 0
  | k + 1 => if p.color k r < 0 then count r k else count r k + 1

/-- The ranks of a colour. -/
def members (k : ℕ) (color : Int32) : List ℕ :=
  (List.range p.nranks).filter fun r => p.color k r = color

/-- Two ranks left out the same ones of the splits before `k`. -/
def Abreast (k r r' : ℕ) : Prop := ∀ j < k, p.color j r < 0 ↔ p.color j r' < 0

end Parent

/-! ## What an id is made of -/

theorem length_hex (n h : ℕ) : (hex n h).length = n := by
  induction n generalizing h with
  | zero => rfl
  | succ n ih => rw [hex, List.length_append, ih, List.length_singleton]

theorem digitChar_inj {a b : ℕ} (ha : a < 16) (hb : b < 16)
    (h : Nat.digitChar a = Nat.digitChar b) : a = b := by
  have hall : ∀ a < 16, ∀ b < 16, Nat.digitChar a = Nat.digitChar b → a = b := by decide
  exact hall a ha b hb h

theorem hex_inj {n h h' : ℕ} (hlt : h < 16 ^ n) (hlt' : h' < 16 ^ n) (heq : hex n h = hex n h') :
    h = h' := by
  induction n generalizing h h' with
  | zero => omega
  | succ n ih =>
    rw [Nat.pow_succ] at hlt hlt'
    obtain ⟨hhigh, hlow⟩ := List.append_inj' heq rfl
    have h1 := ih (by omega) (by omega) hhigh
    have h2 := digitChar_inj (Nat.mod_lt _ (by decide)) (Nat.mod_lt _ (by decide))
      (List.cons.inj hlow).1
    omega

theorem mem_hex {n h : ℕ} {c : Char} (hc : c ∈ hex n h) : c ≠ '_' ∧ c ≠ nul := by
  have hall : ∀ d < 16, Nat.digitChar d ≠ '_' ∧ Nat.digitChar d ≠ nul := by decide
  induction n generalizing h with
  | zero => cases hc
  | succ n ih =>
    rcases List.mem_append.1 hc with hc | hc
    · exact ih hc
    · obtain rfl := List.mem_singleton.1 hc
      exact hall _ (Nat.mod_lt _ (by decide))

theorem mem_decimal {n : ℕ} {c : Char} (hc : c ∈ decimal n) : c ≠ '_' ∧ c ≠ nul := by
  have hdigit := Nat.isDigit_of_mem_toDigits (by decide) (by decide) hc
  constructor
  · rintro rfl
    exact absurd hdigit (by decide)
  · rintro rfl
    exact absurd hdigit (by decide)

theorem decimal_inj {a b : ℕ} (h : decimal a = decimal b) : a = b := by
  have hread := congrArg (fun digits => Nat.ofDigitChars 10 digits 0) h
  simpa [decimal] using hread

theorem length_decimal {n k : ℕ} (hk : 0 < k) (h : n < 10 ^ k) : (decimal n).length ≤ k :=
  (Nat.length_toDigits_le_iff (by decide) hk).2 h

section

variable {idHash splitSeq idHash' splitSeq' : UInt64} {color color' : Int32} {nranks nranks' : ℕ}

theorem mem_splitFields {field : List Char} {c : Char}
    (hfield : field ∈ splitFields idHash splitSeq color nranks) (hc : c ∈ field) :
    c ≠ '_' ∧ c ≠ nul := by
  have hall : ("pccl".toList ++ "split".toList).all (fun c => c ≠ '_' ∧ c ≠ nul) = true := by
    decide
  have hwords : ∀ c ∈ "pccl".toList ++ "split".toList, c ≠ '_' ∧ c ≠ nul := fun c hc => by
    simpa using List.all_eq_true.1 hall c hc
  simp only [splitFields, List.mem_cons, List.not_mem_nil, or_false] at hfield
  rcases hfield with h | h | h | h | h | h <;> rw [h] at hc
  · exact hwords c (List.mem_append_left _ hc)
  · exact hwords c (List.mem_append_right _ hc)
  · exact mem_hex hc
  · exact mem_decimal hc
  · exact mem_decimal hc
  · exact mem_decimal hc

theorem length_splitFields (idHash splitSeq : UInt64) (color : Int32) (nranks : ℕ) :
    (splitFields idHash splitSeq color nranks).length = 6 := rfl

/-- The text of an id leaves room for the zero that ends it. -/
theorem length_joined_lt (idHash splitSeq : UInt64) (color : Int32) (hnranks : nranks < 2 ^ 31) :
    (joined '_' (splitFields idHash splitSeq color nranks)).length < ncclUniqueIdBytes - 1 := by
  have hseq : (decimal splitSeq.toNat).length ≤ 20 :=
    length_decimal (by decide) (Nat.lt_trans splitSeq.toNat_lt (by decide))
  have hcolor : (decimal color.toInt.toNat).length ≤ 10 :=
    length_decimal (by decide) (by
      have := color.toInt_lt
      omega)
  have hsize : (decimal nranks).length ≤ 10 := length_decimal (by decide) (by omega)
  have hhash := length_hex 16 idHash.toNat
  have hpccl : "pccl".toList.length = 4 := by decide
  have hsplit : "split".toList.length = 5 := by decide
  simp only [splitFields, joined, List.length_append, List.length_cons, ncclUniqueIdBytes]
  omega

theorem nul_notMem_joined (idHash splitSeq : UInt64) (color : Int32) (nranks : ℕ) :
    nul ∉ joined '_' (splitFields idHash splitSeq color nranks) := by
  intro hmem
  rcases mem_joined hmem with hsep | ⟨field, hfield, hc⟩
  · exact absurd hsep (by decide)
  · exact (mem_splitFields hfield hc).2 rfl

/-- **What an id is made of.** -/
theorem splitId_inj (hnranks : nranks < 2 ^ 31) (hnranks' : nranks' < 2 ^ 31) (hcolor : ¬color < 0)
    (hcolor' : ¬color' < 0)
    (h : splitId idHash splitSeq color nranks = splitId idHash' splitSeq' color' nranks') :
    idHash = idHash' ∧ splitSeq = splitSeq' ∧ color = color' ∧ nranks = nranks' := by
  have hlt := length_joined_lt idHash splitSeq color hnranks
  have hlt' := length_joined_lt idHash' splitSeq' color' hnranks'
  unfold splitId at h
  rw [List.take_of_length_le (Nat.le_of_lt hlt),
    List.take_of_length_le (Nat.le_of_lt hlt')] at h
  have htext := padded_inj (by omega) (by omega) (nul_notMem_joined _ _ _ _)
    (nul_notMem_joined _ _ _ _) h
  have hlength : (splitFields idHash splitSeq color nranks).length =
      (splitFields idHash' splitSeq' color' nranks').length := by
    rw [length_splitFields, length_splitFields]
  have hfields := joined_inj hlength (fun field hfield hc => (mem_splitFields hfield hc).1 rfl)
    (fun field hfield hc => (mem_splitFields hfield hc).1 rfl) htext
  simp only [splitFields, List.cons.injEq, true_and, and_true] at hfields
  have hhash := hfields.1
  have hseq := hfields.2.1
  have hcol := hfields.2.2.1
  have hsize := hfields.2.2.2
  have hsixteen : (16 : ℕ) ^ 16 = 2 ^ 64 := by decide
  refine ⟨UInt64.toNat_inj.1 (hex_inj ?_ ?_ hhash), UInt64.toNat_inj.1 (decimal_inj hseq),
    Int32.toInt_inj.1 ?_, decimal_inj hsize⟩
  · rw [hsixteen]
    exact idHash.toNat_lt
  · rw [hsixteen]
    exact idHash'.toNat_lt
  · have hnat := decimal_inj hcol
    rw [Int32.lt_iff_toInt_lt] at hcolor hcolor'
    have hzero : (0 : Int32).toInt = 0 := rfl
    omega

end

/-! ## The children of a parent -/

namespace Parent

variable (p : Parent)

/-- A rank's communicator, after it has had some children. -/
theorem comm_eq (r k : ℕ) :
    p.comm r k = ⟨p.nranks, r, p.address r, p.multiProcess,
      some ⟨p.idHash, p.multiProcess, UInt64.ofNat (p.count r k)⟩⟩ := by
  induction k with
  | zero => rfl
  | succ k ih =>
    rw [comm, ih, count]
    unfold ncclCommSplit nextSplitSeq
    split
    · rfl
    · simp only [UInt64.ofNat_add]
      rfl

theorem count_le (r k : ℕ) : p.count r k ≤ k := by
  induction k with
  | zero => exact Nat.le_refl _
  | succ k ih =>
    rw [count]
    split <;> omega

/-- The number in the id of a child. -/
def childSeq (r k : ℕ) : UInt64 :=
  if UInt64.ofNat (p.count r k) + 1 = 0 then 1 else UInt64.ofNat (p.count r k) + 1

theorem childSeq_toNat {r k : ℕ} (hk : k < 2 ^ 64 - 1) :
    (p.childSeq r k).toNat = p.count r k + 1 := by
  have hle := p.count_le r k
  have hnat : (UInt64.ofNat (p.count r k) + 1).toNat = p.count r k + 1 := by
    rw [UInt64.toNat_add, UInt64.toNat_ofNat_of_lt' (by rw [UInt64.size]; omega), UInt64.toNat_one]
    omega
  have hpos : UInt64.ofNat (p.count r k) + 1 ≠ 0 := by
    intro hzero
    rw [hzero] at hnat
    exact absurd hnat (by simp)
  rw [childSeq, if_neg hpos, hnat]

/-- **The child of a split.** -/
theorem child_eq (r k : ℕ) :
    p.child k r = if p.color k r < 0 then none else
      some ⟨p.nranks, splitId p.idHash (p.childSeq r k) (p.color k r) p.nranks, r,
        p.multiProcess⟩ := by
  unfold child
  rw [comm_eq]
  unfold ncclCommSplit nextSplitSeq childSeq
  split
  · rfl
  · simp only [Option.getD_some]

theorem child_eq_some {k r : ℕ} {c : Child} (h : p.child k r = some c) :
    ¬p.color k r < 0 ∧ c = ⟨p.nranks, splitId p.idHash (p.childSeq r k) (p.color k r) p.nranks, r,
      p.multiProcess⟩ := by
  rw [child_eq] at h
  split at h
  · cases h
  · rename_i hcolor
    exact ⟨hcolor, (Option.some.inj h).symm⟩

theorem count_congr {k r r' : ℕ} (h : p.Abreast k r r') : p.count r k = p.count r' k := by
  induction k with
  | zero => rfl
  | succ k ih =>
    have hk := h k (Nat.lt_succ_self k)
    rw [count, count, ih fun j hj => h j (Nat.lt_succ_of_lt hj)]
    by_cases hcolor : p.color k r < 0
    · rw [if_pos hcolor, if_pos (hk.1 hcolor)]
    · rw [if_neg hcolor, if_neg fun hcolor' => hcolor (hk.2 hcolor')]

theorem count_mono {r k l : ℕ} (h : k ≤ l) : p.count r k ≤ p.count r l := by
  induction h with
  | refl => exact Nat.le_refl _
  | step _ ih =>
    rw [count]
    split <;> omega

/-- A child of an earlier split counts. -/
theorem count_lt {r k l : ℕ} (hcolor : ¬p.color k r < 0) (h : k < l) :
    p.count r k < p.count r l := by
  have hsucc : p.count r (k + 1) = p.count r k + 1 := by
    rw [count, if_neg hcolor]
  have hle : p.count r (k + 1) ≤ p.count r l := p.count_mono h
  omega

/-- **When two ids are equal.** -/
theorem uniqueId_inj {q : Parent} {k l r r' : ℕ} {c c' : Child} (hk : k < 2 ^ 64 - 1)
    (hl : l < 2 ^ 64 - 1) (hc : p.child k r = some c) (hc' : q.child l r' = some c') :
    c.uniqueId = c'.uniqueId ↔ p.idHash = q.idHash ∧ p.count r k = q.count r' l ∧
      p.color k r = q.color l r' ∧ p.nranks = q.nranks := by
  obtain ⟨hcolor, rfl⟩ := p.child_eq_some hc
  obtain ⟨hcolor', rfl⟩ := q.child_eq_some hc'
  have hseq : p.childSeq r k = q.childSeq r' l ↔ p.count r k = q.count r' l := by
    rw [← UInt64.toNat_inj, p.childSeq_toNat hk, q.childSeq_toNat hl]
    omega
  rw [← hseq]
  constructor
  · exact splitId_inj p.nranks_lt q.nranks_lt hcolor hcolor'
  · rintro ⟨hhash, hseq, hcol, hsize⟩
    show splitId _ _ _ _ = splitId _ _ _ _
    rw [hhash, hseq, hcol, hsize]

/-- What a split is to give by its contract: a child for each colour, whose ranks go by the keys. -/
structure Contract : Prop where
  none : ∀ k, ∀ r < p.nranks, p.color k r < 0 → p.child k r = none
  size : ∀ k, ∀ r < p.nranks, ¬p.color k r < 0 →
    ∃ c, p.child k r = some c ∧ c.nranks = (p.members k (p.color k r)).length
  rank : ∀ k, ∀ r < p.nranks, ∀ c, p.child k r = some c →
    c.rank = ((p.members k (p.color k r)).filter fun r' =>
      p.key k r' < p.key k r ∨ p.key k r' = p.key k r ∧ r' < r).length
  agree : ∀ k, ∀ r < p.nranks, ∀ r' < p.nranks, ∀ c c', p.child k r = some c →
    p.child k r' = some c' → p.color k r = p.color k r' → c.uniqueId = c'.uniqueId
  apart : ∀ k l, ∀ r < p.nranks, ∀ r' < p.nranks, ∀ c c', p.child k r = some c →
    p.child l r' = some c' → k ≠ l ∨ p.color k r ≠ p.color l r' → c.uniqueId ≠ c'.uniqueId

/-- What a split gives: a child of the parent's size in which a rank has the number it has in the
parent, and ids by the parent's id, the colour and the children the rank has had. -/
structure Inherits (q : Parent) : Prop where
  none : ∀ k r, p.color k r < 0 → p.child k r = none
  size : ∀ k r, ¬p.color k r < 0 → ∃ c, p.child k r = some c ∧ c.nranks = p.nranks ∧ c.rank = r
  agree : ∀ k < 2 ^ 64 - 1, ∀ r r' c c', p.child k r = some c → p.child k r' = some c' →
    p.Abreast k r r' → p.color k r = p.color k r' → c.uniqueId = c'.uniqueId
  splits : ∀ k < 2 ^ 64 - 1, ∀ l < 2 ^ 64 - 1, ∀ r r' c c', p.child k r = some c →
    p.child l r' = some c' → p.Abreast (max k l) r r' → k ≠ l → c.uniqueId ≠ c'.uniqueId
  apart : ∀ k < 2 ^ 64 - 1, ∀ l < 2 ^ 64 - 1, ∀ r r' c c', p.child k r = some c →
    q.child l r' = some c' → p.idHash ≠ q.idHash ∨ p.color k r ≠ q.color l r' →
      c.uniqueId ≠ c'.uniqueId

end Parent

theorem halves_lt : 2 < 2 ^ 31 := by decide

/-- Two ranks, each with a colour of its own. -/
def halves : Parent where
  nranks := 2
  nranks_lt := halves_lt
  idHash := 7
  multiProcess := true
  address := fun _ => 0
  color := fun _ r => if r = 0 then 0 else 1
  key := fun _ _ => 0

end CommSplit
end Api
end HyLink
