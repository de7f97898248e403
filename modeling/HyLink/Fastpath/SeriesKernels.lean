import Mathlib.Data.List.Flatten
import Mathlib.Data.Nat.Basic
import HyLink.Fastpath.SeriesWorkers

/-!
# What the kernels of a request compute

The kernels that a rank launches for one request, as functions on the cells that the rank writes:
its device and the scratch of the slot.  What they take from the ranks' send buffers is a parameter.

* `Comm.after` — a kernel that has processed some of its elements.
* `Comm.kernels` — all kernels of a request, whatever the modes the sources are read in.
* `Comm.outcome` — the device of a rank after a request: the collective in the receive buffer, and
  everything else as it was.
* `Comm.runKernels_kernels` — the kernels leave the outcome.
* `Comm.target_ne_of_reads` — no kernel of a rank writes what any rank still has to read there.
-/

namespace HyLink
namespace Fastpath
namespace Series

/-- A cell that a rank writes. -/
inductive Cell where
  | device (addr : ℕ)
  | scratch (index : ℕ)
  deriving DecidableEq, Repr

namespace StreamOp

/-- The kernel, with its source named by the rank alone. -/
def named : StreamOp → StreamOp
  | .copy offset src srcOffset => .copy offset (.device src.rank) srcOffset
  | .load src srcOffset => .load (.device src.rank) srcOffset
  | .reduce operand => .reduce operand

/-- The source a kernel of rank `r` reads, and the offset from which on it does. -/
def reads (r : ℕ) : StreamOp → Option (SourceInfo × ℕ)
  | .copy _ src srcOffset | .load src srcOffset => some (src, srcOffset)
  | .reduce .own => some (.device r, 0)
  | .reduce .scratch => none

end StreamOp

namespace Comm

variable {V : Type} (c : Comm V)

/-! ## Kernels on cells -/

/-- The cell that a kernel writes for element `i`. -/
def target (k r : ℕ) : StreamOp → ℕ → Cell
  | .copy offset _ _, i => .device ((c.request k).recvbuff r + offset + i)
  | .load _ _, i => .scratch i
  | .reduce _, i => .device ((c.request k).recvbuff r + i)

/-- The element for which a kernel writes a cell. -/
def index (k r : ℕ) : StreamOp → Cell → Option ℕ
  | .copy offset _ _, .device a =>
    if (c.request k).recvbuff r + offset ≤ a then some (a - ((c.request k).recvbuff r + offset))
    else none
  | .load _ _, .scratch i => some i
  | .reduce _, .device a =>
    if (c.request k).recvbuff r ≤ a then some (a - (c.request k).recvbuff r) else none
  | .copy _ _ _, .scratch _ | .load _ _, .device _ | .reduce _, .scratch _ => none

/-- What a kernel writes for element `i`; `contrib` are the contributions of the ranks. -/
def value (k r : ℕ) (contrib : ℕ → ℕ → V) (v : Cell → V) : StreamOp → ℕ → V
  | .copy _ src srcOffset, i | .load src srcOffset, i => contrib src.rank (srcOffset + i)
  | .reduce .scratch, i => (c.request k).reduceOp
      (v (.device ((c.request k).recvbuff r + i))) (v (.scratch i))
  | .reduce .own, i => (c.request k).reduceOp
      (v (.device ((c.request k).recvbuff r + i))) (contrib r i)

/-- The cells when a kernel has processed the elements `done`. -/
def after (k r : ℕ) (contrib : ℕ → ℕ → V) (op : StreamOp) (done : List ℕ) (v : Cell → V) :
    Cell → V := fun x =>
  match c.index k r op x with
  | some i => if i ∈ done then c.value k r contrib v op i else v x
  | none => v x

/-- Kernels one after the other. -/
def runKernels (k r : ℕ) (contrib : ℕ → ℕ → V) (ops : List StreamOp) (v : Cell → V) : Cell → V :=
  ops.foldl (fun v op => c.after k r contrib op (List.range (c.request k).segCount) v) v

/-- All kernels of a request, their sources named by their ranks. -/
def kernels (k r : ℕ) : List StreamOp :=
  (c.executeKind k r).flatMap fun op => (c.launched k r true op).map StreamOp.named

/-! ## What a request is for -/

/-- Elements of a receive buffer. -/
def recvCount (k : ℕ) : ℕ :=
  match (c.request k).kind with
  | .allGather => c.worldSize * (c.request k).segCount
  | _ => (c.request k).segCount

/-- Element `i` of the receive buffer of rank `r`, from the devices at the start.  A reduction goes
through the sources in the order of the executor. -/
def collective (k : ℕ) (given : ℕ → ℕ → V) (r i : ℕ) : V :=
  let req := c.request k
  match req.kind with
  | .allGather =>
    given (i / req.segCount) (req.sendbuff (i / req.segCount) + i % req.segCount)
  | .broadcast root => given root (req.sendbuff root + i)
  | .allReduce =>
    ((List.range c.worldSize).filter fun s => s != c.seedSource k r).foldl
      (fun acc s => req.reduceOp acc (given s (req.sendbuff s + i)))
      (given (c.seedSource k r) (req.sendbuff (c.seedSource k r) + i))
  | .reduceScatter =>
    ((List.range c.worldSize).filter fun s => s != r).foldl
      (fun acc s => req.reduceOp acc (given s (req.sendbuff s + (c.rankOffset k r + i))))
      (given r (req.sendbuff r + (c.rankOffset k r + i)))

/-- The device of rank `r` after a request. -/
def outcome (k : ℕ) (given : ℕ → ℕ → V) (r a : ℕ) : V :=
  if (c.request k).recvbuff r ≤ a ∧ a < (c.request k).recvbuff r + c.recvCount k then
    c.collective k given r (a - (c.request k).recvbuff r)
  else given r a

/-- Two ranges of addresses have nothing in common. -/
def Apart (a m b n : ℕ) : Prop := a + m ≤ b ∨ b + n ≤ a

instance (a m b n : ℕ) : Decidable (Apart a m b n) := inferInstanceAs (Decidable (_ ∨ _))

/-- The buffers of a request are apart or exactly in place; an AllReduce is not in place. -/
def Admissible (k : ℕ) : Prop :=
  let req := c.request k
  match req.kind with
  | .allGather => ∀ r < c.worldSize, c.ownInPlace k r = true ∨
      Apart (req.sendbuff r) req.segCount (req.recvbuff r) (c.worldSize * req.segCount)
  | .allReduce => ∀ r < c.worldSize, c.ownInPlace k r = false ∧
      Apart (req.sendbuff r) req.segCount (req.recvbuff r) req.segCount
  | .reduceScatter => ∀ r < c.worldSize, c.ownInPlace k r = true ∨
      Apart (req.sendbuff r) (c.worldSize * req.segCount) (req.recvbuff r) req.segCount
  | .broadcast root => root < c.worldSize ∧ (c.ownInPlace k root = true ∨
      Apart (req.sendbuff root) req.segCount (req.recvbuff root) req.segCount)

variable {c} {k r s i a : ℕ} {contrib : ℕ → ℕ → V} {v : Cell → V} {op : StreamOp} {x : Cell}
  {done : List ℕ}

/-! ## One kernel -/

theorem index_eq_some : c.index k r op x = some i ↔ x = c.target k r op i := by
  cases op <;> cases x <;> simp only [index, target, Cell.device.injEq, Cell.scratch.injEq,
    reduceCtorEq, Option.ite_none_right_eq_some, Option.some.injEq] <;> omega

theorem after_target (hi : i ∈ done) :
    c.after k r contrib op done v (c.target k r op i) = c.value k r contrib v op i := by
  have hindex : c.index k r op (c.target k r op i) = some i := index_eq_some.2 rfl
  simp only [after, hindex, if_pos hi]

theorem after_of_forall_ne (h : ∀ i ∈ done, x ≠ c.target k r op i) :
    c.after k r contrib op done v x = v x := by
  unfold after
  split
  · next i hindex => exact if_neg fun hi => h i hi (index_eq_some.1 hindex)
  · rfl

@[simp] theorem after_nil : c.after k r contrib op [] v = v :=
  funext fun _ => after_of_forall_ne (by simp)

/-- The elements that are processed matter, not their order. -/
theorem after_congr {done' : List ℕ} (h : ∀ i, i ∈ done ↔ i ∈ done') :
    c.after k r contrib op done v = c.after k r contrib op done' v := by
  funext x
  simp only [after, h]

/-- A kernel reads for an element only what no other element of it has written. -/
theorem value_after (hi : i ∉ done) :
    c.value k r contrib (c.after k r contrib op done v) op i = c.value k r contrib v op i := by
  cases op with
  | copy | load => rfl
  | reduce operand =>
    have hself : c.after k r contrib (.reduce operand) done v
        (.device ((c.request k).recvbuff r + i)) = v (.device ((c.request k).recvbuff r + i)) :=
      after_of_forall_ne fun j hj heq => by
        simp only [target, Cell.device.injEq] at heq
        obtain rfl : i = j := by omega
        exact hi hj
    have hscratch : c.after k r contrib (.reduce operand) done v (.scratch i) = v (.scratch i) :=
      after_of_forall_ne fun j _ heq => by cases heq
    cases operand <;> simp only [value, hself, hscratch]

/-- **One more element.** -/
theorem after_cons (hi : i ∉ done) : c.after k r contrib op (i :: done) v =
    Function.update (c.after k r contrib op done v) (c.target k r op i)
      (c.value k r contrib (c.after k r contrib op done v) op i) := by
  funext x
  by_cases hx : x = c.target k r op i
  · subst hx
    rw [after_target List.mem_cons_self, Function.update_self, value_after hi]
  · rw [Function.update_of_ne hx]
    unfold after
    split
    · next j hindex =>
      have hj : j ≠ i := fun heq => hx (heq ▸ index_eq_some.1 hindex)
      simp [hj]
    · rfl

theorem after_named : c.after k r contrib op.named = c.after k r contrib op := by
  funext done v x
  cases op with
  | copy | load => cases x <;> rfl
  | reduce => rfl

/-! ## Several kernels -/

@[simp] theorem runKernels_nil : c.runKernels k r contrib [] v = v := rfl

@[simp] theorem runKernels_cons {ops : List StreamOp} : c.runKernels k r contrib (op :: ops) v =
    c.runKernels k r contrib ops
      (c.after k r contrib op (List.range (c.request k).segCount) v) := rfl

theorem runKernels_append {ops ops' : List StreamOp} :
    c.runKernels k r contrib (ops ++ ops') v =
      c.runKernels k r contrib ops' (c.runKernels k r contrib ops v) := List.foldl_append

theorem runKernels_of_forall_ne {ops : List StreamOp}
    (h : ∀ op ∈ ops, ∀ i < (c.request k).segCount, x ≠ c.target k r op i) :
    c.runKernels k r contrib ops v x = v x := by
  induction ops generalizing v with
  | nil => rfl
  | cons op ops ih =>
    rw [runKernels_cons, ih fun op' hop' => h op' (List.mem_cons_of_mem _ hop')]
    exact after_of_forall_ne fun i hi => h op List.mem_cons_self i (List.mem_range.1 hi)

/-- A copy to the receive buffer. -/
theorem after_copy {offset srcOffset : ℕ} {src : SourceInfo} :
    c.after k r contrib (.copy offset src srcOffset) (List.range (c.request k).segCount) v
        (.device a) =
      if (c.request k).recvbuff r + offset ≤ a ∧
          a < (c.request k).recvbuff r + offset + (c.request k).segCount then
        contrib src.rank (srcOffset + (a - ((c.request k).recvbuff r + offset)))
      else v (.device a) := by
  simp only [after, index, value]
  by_cases hle : (c.request k).recvbuff r + offset ≤ a
  · rw [if_pos hle]
    simp only [List.mem_range]
    exact if_congr (by omega) rfl rfl
  · rw [if_neg hle, if_neg (by omega)]

/-- What a list of kernels that adds the contribution of a rank to the receive buffer does. -/
def Adds (c : Comm V) (k r : ℕ) (contrib : ℕ → ℕ → V) (s offset : ℕ) (ops : List StreamOp) :
    Prop := ∀ (v : Cell → V) (a : ℕ), c.runKernels k r contrib ops v (.device a) =
  if (c.request k).recvbuff r ≤ a ∧ a < (c.request k).recvbuff r + (c.request k).segCount then
    (c.request k).reduceOp (v (.device a)) (contrib s (offset + (a - (c.request k).recvbuff r)))
  else v (.device a)

theorem adds_own : c.Adds k r contrib r 0 [.reduce .own] := by
  intro v a
  simp only [runKernels_cons, runKernels_nil, after, index, value]
  by_cases hle : (c.request k).recvbuff r ≤ a
  · rw [if_pos hle]
    simp only [List.mem_range, Nat.add_sub_cancel' hle, Nat.zero_add]
    exact if_congr (by omega) rfl rfl
  · rw [if_neg hle, if_neg (by omega)]

theorem adds_source {src : SourceInfo} {offset : ℕ} :
    c.Adds k r contrib src.rank offset [.load src offset, .reduce .scratch] := by
  intro v a
  simp only [runKernels_cons, runKernels_nil, after, index, value]
  by_cases hle : (c.request k).recvbuff r ≤ a
  · rw [if_pos hle]
    simp only [List.mem_range, Nat.add_sub_cancel' hle]
    by_cases hlt : a - (c.request k).recvbuff r < (c.request k).segCount
    · rw [if_pos hlt, if_pos hlt, if_pos (by omega)]
    · rw [if_neg hlt, if_neg (by omega)]
  · rw [if_neg hle, if_neg (by omega)]

/-- **The sources one after the other.** -/
theorem runKernels_adds {o : ℕ} {f : ℕ → List StreamOp} {l : List ℕ}
    (h : ∀ s ∈ l, c.Adds k r contrib s o (f s)) :
    c.runKernels k r contrib (l.flatMap f) v (.device a) =
      if (c.request k).recvbuff r ≤ a ∧
          a < (c.request k).recvbuff r + (c.request k).segCount then
        l.foldl (fun acc s => (c.request k).reduceOp acc
          (contrib s (o + (a - (c.request k).recvbuff r)))) (v (.device a))
      else v (.device a) := by
  induction l generalizing v with
  | nil => simp
  | cons s l ih =>
    rw [List.flatMap_cons, runKernels_append, ih fun t ht => h t (List.mem_cons_of_mem _ ht),
      h s List.mem_cons_self, List.foldl_cons]
    split_ifs <;> rfl

/-! ## The kernels of a request -/

@[simp] theorem sourceInfo_rank (c : Comm V) (k r : ℕ) (allDirect : Bool) (s : ℕ) :
    (c.sourceInfo k r allDirect s).rank = s := by
  unfold sourceInfo
  split <;> rfl

/-- The modes of the sources do not change what is launched otherwise. -/
theorem launched_named (allDirect : Bool) (op : HostOp) :
    (c.launched k r allDirect op).map StreamOp.named =
      (c.launched k r true op).map StreamOp.named := by
  cases op with
  | source s =>
    simp only [launched]
    cases (c.request k).kind <;> simp only
    all_goals
      try split_ifs
      all_goals simp [StreamOp.named]
  | _ => rfl

theorem kernels_allGather (h : (c.request k).kind = .allGather) :
    c.kernels k r = (List.range c.worldSize).flatMap fun s =>
      if s = r ∧ c.ownInPlace k r then [] else [.copy (c.rankOffset k s) (.device s) 0] := by
  simp only [kernels, executeKind, h, executeAllGather, List.flatMap_append, List.flatMap_map,
    List.flatMap_singleton]
  simp only [launched, List.map_nil, List.append_nil, h]
  congr 1
  funext s
  split <;> simp [StreamOp.named]

theorem kernels_broadcast {root : ℕ} (h : (c.request k).kind = .broadcast root) :
    c.kernels k r =
      if root = r ∧ c.ownInPlace k r then [] else [.copy 0 (.device root) 0] := by
  simp only [kernels, executeKind, h, executeBroadcast, List.flatMap_cons]
  have htail : (if r = root ∧ c.ownInPlace k r = true then [] else [HostOp.synchronize]).flatMap
      (fun op => (c.launched k r true op).map StreamOp.named) = [] := by
    split <;> simp [launched]
  rw [htail, List.append_nil]
  simp only [launched, h]
  split <;> simp [StreamOp.named]

theorem kernels_allReduce (h : (c.request k).kind = .allReduce) (hout : c.ownInPlace k r = false) :
    c.kernels k r = .copy 0 (.device (c.seedSource k r)) 0 ::
      ((List.range c.worldSize).filter fun s => s != c.seedSource k r).flatMap fun s =>
        if s = r then [.reduce .own] else [.load (.device s) 0, .reduce .scratch] := by
  have hseed : (c.launched k r true (.source (c.seedSource k r))).map StreamOp.named =
      [.copy 0 (.device (c.seedSource k r)) 0] := by
    simp [launched, h, hout, StreamOp.named]
  have hend : (c.launched k r true .synchronize).map StreamOp.named = [] := rfl
  have hfold : ∀ s ∈ (List.range c.worldSize).filter fun s => s != c.seedSource k r,
      (c.launched k r true (if s = r then .own else .source s)).map StreamOp.named =
        if s = r then [.reduce .own] else [.load (.device s) 0, .reduce .scratch] := fun s hs => by
    have hne : s ≠ c.seedSource k r := by simpa using (List.mem_filter.1 hs).2
    split
    · simp only [launched, h, List.map_cons, List.map_nil, StreamOp.named]
    · simp [launched, h, hne, StreamOp.named]
  simp only [kernels, executeKind, h, executeAllReduce, hout, Bool.false_eq_true, if_false,
    List.flatMap_append, List.flatMap_map, List.flatMap_cons, List.flatMap_nil, hseed, hend,
    List.append_nil, List.singleton_append, List.flatMap_congr hfold]

theorem kernels_reduceScatter (h : (c.request k).kind = .reduceScatter) :
    c.kernels k r =
      (if c.ownInPlace k r then [] else [.copy 0 (.device r) (c.rankOffset k r)]) ++
        ((List.range c.worldSize).filter fun s => s != r).flatMap fun s =>
          [.load (.device s) (c.rankOffset k r), .reduce .scratch] := by
  have hown : (c.launched k r true .own).map StreamOp.named =
      if c.ownInPlace k r then [] else [.copy 0 (.device r) (c.rankOffset k r)] := by
    simp only [launched, h]
    split <;> rfl
  have hend : (c.launched k r true .synchronize).map StreamOp.named = [] := rfl
  have hsource : ∀ s, (c.launched k r true (.source s)).map StreamOp.named =
      [.load (.device s) (c.rankOffset k r), .reduce .scratch] := fun s => by
    simp only [launched, h, List.map_cons, List.map_nil, StreamOp.named, sourceInfo_rank]
  simp only [kernels, executeKind, h, executeReduceScatter, List.flatMap_append,
    List.flatMap_map, List.flatMap_cons, List.flatMap_nil, hown, hend, hsource, List.append_nil]

/-! ## The outcome -/

variable {given : ℕ → ℕ → V}

/-- What the ranks contribute, from their devices at the start. -/
def contribution (c : Comm V) (k : ℕ) (given : ℕ → ℕ → V) (s x : ℕ) : V :=
  given s ((c.request k).sendbuff s + x)

/-- The segments that are gathered. -/
theorem runKernels_gather {l : List ℕ} {skip : ℕ → Prop} [DecidablePred skip] :
    c.runKernels k r contrib (l.flatMap fun s =>
        if skip s then [] else [.copy (c.rankOffset k s) (.device s) 0]) v (.device a) =
      if (c.request k).recvbuff r ≤ a ∧ 0 < (c.request k).segCount ∧
          (a - (c.request k).recvbuff r) / (c.request k).segCount ∈ l ∧
          ¬ skip ((a - (c.request k).recvbuff r) / (c.request k).segCount) then
        contrib ((a - (c.request k).recvbuff r) / (c.request k).segCount)
          ((a - (c.request k).recvbuff r) % (c.request k).segCount)
      else v (.device a) := by
  induction l generalizing v with
  | nil => simp
  | cons s l ih =>
    rw [List.flatMap_cons, runKernels_append, ih]
    by_cases hskip : skip s
    · rw [if_pos hskip, runKernels_nil]
      refine if_congr ?_ rfl rfl
      simp only [List.mem_cons]
      refine and_congr_right fun _ => and_congr_right fun _ => ?_
      constructor
      · exact fun h => ⟨Or.inr h.1, h.2⟩
      · rintro ⟨rfl | h, hn⟩
        · exact absurd hskip hn
        · exact ⟨h, hn⟩
    · rw [if_neg hskip, runKernels_cons, runKernels_nil, after_copy]
      by_cases hin : (c.request k).recvbuff r + c.rankOffset k s ≤ a ∧
          a < (c.request k).recvbuff r + c.rankOffset k s + (c.request k).segCount
      · obtain ⟨i, rfl⟩ := Nat.exists_eq_add_of_le hin.1
        have hi : i < (c.request k).segCount := by omega
        have hsub : (c.request k).recvbuff r + c.rankOffset k s + i - (c.request k).recvbuff r =
            i + s * (c.request k).segCount := by rw [rankOffset]; omega
        have hdiv : (i + s * (c.request k).segCount) / (c.request k).segCount = s := by
          rw [Nat.add_mul_div_right _ _ (by omega), Nat.div_eq_of_lt hi, Nat.zero_add]
        have hmod : (i + s * (c.request k).segCount) % (c.request k).segCount = i := by
          rw [Nat.add_mul_mod_self_right, Nat.mod_eq_of_lt hi]
        rw [if_pos hin, hsub, hdiv, hmod, Nat.zero_add, Nat.add_sub_cancel_left]
        simp only [SourceInfo.rank, ite_self]
        exact (if_pos ⟨by omega, by omega, List.mem_cons_self, hskip⟩).symm
      · rw [if_neg hin]
        refine if_congr ?_ rfl rfl
        refine and_congr_right fun hle => and_congr_right fun hpos => and_congr_left fun _ => ?_
        rw [List.mem_cons]
        refine (or_iff_right fun heq => hin ?_).symm
        have hlt := Nat.lt_div_mul_add hpos (a := a - (c.request k).recvbuff r)
        have hge := Nat.div_mul_le_self (a - (c.request k).recvbuff r) (c.request k).segCount
        rw [heq] at hlt hge
        rw [rankOffset]
        omega

theorem ownInPlace_allGather (h : (c.request k).kind = .allGather) : c.ownInPlace k r = true ↔
    (c.request k).sendbuff r = (c.request k).recvbuff r + c.rankOffset k r := by
  simp only [ownInPlace, h, decide_eq_true_eq]

theorem ownInPlace_broadcast {root : ℕ} (h : (c.request k).kind = .broadcast root) :
    c.ownInPlace k r = true ↔ (c.request k).sendbuff r = (c.request k).recvbuff r := by
  simp only [ownInPlace, h, decide_eq_true_eq]

theorem ownInPlace_reduceScatter (h : (c.request k).kind = .reduceScatter) :
    c.ownInPlace k r = true ↔
      (c.request k).sendbuff r + c.rankOffset k r = (c.request k).recvbuff r := by
  simp only [ownInPlace, h, decide_eq_true_eq]

/-- **The kernels of a request leave its outcome**, whatever is in the scratch. -/
theorem runKernels_kernels (hadm : c.Admissible k) (hv : ∀ a, v (.device a) = given r a)
    (hr : r < c.worldSize) (a : ℕ) :
    c.runKernels k r (c.contribution k given) (c.kernels k r) v (.device a) =
      c.outcome k given r a := by
  cases hkind : (c.request k).kind with
  | allGather =>
    rw [kernels_allGather hkind, runKernels_gather, hv]
    simp only [outcome, recvCount, collective, hkind, contribution, List.mem_range]
    by_cases hin : (c.request k).recvbuff r ≤ a ∧
        a < (c.request k).recvbuff r + c.worldSize * (c.request k).segCount
    · have hpos : 0 < (c.request k).segCount := Nat.pos_of_ne_zero fun hzero => by
        rw [hzero] at hin
        omega
      have hlt : (a - (c.request k).recvbuff r) / (c.request k).segCount < c.worldSize :=
        (Nat.div_lt_iff_lt_mul hpos).2 (by omega)
      rw [if_pos hin]
      split
      · rfl
      · next hnot =>
        -- the rank's own segment is where it belongs
        obtain ⟨hseg, hown⟩ : (a - (c.request k).recvbuff r) / (c.request k).segCount = r ∧
            c.ownInPlace k r = true := by
          by_contra h
          exact hnot ⟨hin.1, hpos, hlt, h⟩
        have hmod := Nat.div_add_mod' (a - (c.request k).recvbuff r) (c.request k).segCount
        rw [hseg] at hmod ⊢
        have haddr := (ownInPlace_allGather hkind).1 hown
        rw [rankOffset] at haddr
        exact congrArg _ (by omega)
    · rw [if_neg hin, if_neg]
      rintro ⟨hle, hpos, hlt, -⟩
      have := (Nat.div_lt_iff_lt_mul hpos).1 hlt
      omega
  | broadcast root =>
    rw [kernels_broadcast hkind]
    simp only [outcome, recvCount, collective, hkind]
    split
    · next hown =>
      obtain ⟨rfl, hown⟩ := hown
      rw [runKernels_nil, hv]
      split
      · rw [(ownInPlace_broadcast hkind).1 hown]
        exact congrArg _ (by omega)
      · rfl
    · rw [runKernels_cons, runKernels_nil, after_copy, hv]
      simp only [SourceInfo.rank, contribution, Nat.add_zero, Nat.zero_add]
  | allReduce =>
    have hout : c.ownInPlace k r = false := by
      simp only [Admissible, hkind] at hadm
      exact (hadm r hr).1
    rw [kernels_allReduce hkind hout, runKernels_cons, runKernels_adds (o := 0), after_copy, hv]
    · simp only [outcome, recvCount, collective, hkind, SourceInfo.rank, contribution,
        Nat.add_zero, Nat.zero_add]
      split <;> rfl
    · intro s _
      split
      · next hs => exact hs ▸ adds_own
      · exact adds_source
  | reduceScatter =>
    rw [kernels_reduceScatter hkind, runKernels_append, runKernels_adds (o := c.rankOffset k r)
      fun s _ => adds_source]
    simp only [outcome, recvCount, collective, hkind]
    have hown : c.runKernels k r (c.contribution k given)
        (if c.ownInPlace k r = true then [] else [.copy 0 (.device r) (c.rankOffset k r)]) v
          (.device a) =
        if (c.request k).recvbuff r ≤ a ∧
            a < (c.request k).recvbuff r + (c.request k).segCount then
          given r ((c.request k).sendbuff r + (c.rankOffset k r + (a - (c.request k).recvbuff r)))
        else given r a := by
      split
      · next hown =>
        have haddr := (ownInPlace_reduceScatter hkind).1 hown
        rw [runKernels_nil, hv]
        split
        · exact congrArg _ (by omega)
        · rfl
      · rw [runKernels_cons, runKernels_nil, after_copy, hv]
        simp only [SourceInfo.rank, contribution, Nat.add_zero]
    rw [hown]
    by_cases hin : (c.request k).recvbuff r ≤ a ∧
        a < (c.request k).recvbuff r + (c.request k).segCount
    · simp only [if_pos hin, contribution]
    · simp only [if_neg hin]

/-! ## Reading apart from writing -/

/-- Elements of different segments. -/
theorem segment_ne {n s t i j : ℕ} (hst : s ≠ t) (hi : i < n) (hj : j < n) :
    s * n + i ≠ t * n + j := by
  rcases Nat.lt_or_gt_of_ne hst with hlt | hlt
  · have := Nat.mul_le_mul_right n hlt
    rw [Nat.succ_mul] at this
    omega
  · have := Nat.mul_le_mul_right n hlt
    rw [Nat.succ_mul] at this
    omega

theorem segment_lt {n s t i : ℕ} (hst : s < t) (hi : i < n) : s * n + i < t * n := by
  have := Nat.mul_le_mul_right n hst
  rw [Nat.succ_mul] at this
  omega

theorem seedSource_lt (hr : r < c.worldSize) : c.seedSource k r < c.worldSize := by
  unfold seedSource
  split
  · exact hr
  · cases hfind : (List.range c.worldSize).find? fun s => s != r with
    | none => exact hr
    | some s => exact List.mem_range.1 (List.mem_of_find?_eq_some hfind)

theorem mem_kernels_allReduce (hkind : (c.request k).kind = .allReduce)
    (hout : c.ownInPlace k r = false) (hop : op ∈ c.kernels k r) :
    op = .copy 0 (.device (c.seedSource k r)) 0 ∨ op = .reduce .own ∨ op = .reduce .scratch ∨
      ∃ s < c.worldSize, op = .load (.device s) 0 := by
  rw [kernels_allReduce hkind hout] at hop
  rcases List.mem_cons.1 hop with rfl | hop
  · exact Or.inl rfl
  · obtain ⟨s, hs, hop⟩ := List.mem_flatMap.1 hop
    have hslt := List.mem_range.1 (List.mem_filter.1 hs).1
    split at hop
    · exact Or.inr (Or.inl (List.mem_singleton.1 hop))
    · rcases List.mem_cons.1 hop with rfl | hop
      · exact Or.inr (Or.inr (Or.inr ⟨s, hslt, rfl⟩))
      · exact Or.inr (Or.inr (Or.inl (List.mem_singleton.1 hop)))

theorem mem_kernels_reduceScatter (hkind : (c.request k).kind = .reduceScatter)
    (hop : op ∈ c.kernels k r) :
    (c.ownInPlace k r = false ∧ op = .copy 0 (.device r) (c.rankOffset k r)) ∨
      op = .reduce .scratch ∨
        ∃ s < c.worldSize, s ≠ r ∧ op = .load (.device s) (c.rankOffset k r) := by
  rw [kernels_reduceScatter hkind] at hop
  rcases List.mem_append.1 hop with hop | hop
  · split at hop
    · cases hop
    · next hown => exact Or.inl ⟨by simpa using hown, List.mem_singleton.1 hop⟩
  · obtain ⟨s, hs, hop⟩ := List.mem_flatMap.1 hop
    obtain ⟨hslt, hne⟩ := List.mem_filter.1 hs
    rcases List.mem_cons.1 hop with rfl | hop
    · exact Or.inr (Or.inr ⟨s, List.mem_range.1 hslt, by simpa using hne, rfl⟩)
    · exact Or.inr (Or.inl (List.mem_singleton.1 hop))

/-- A source is a rank. -/
theorem source_lt {src : SourceInfo} {o : ℕ} (hadm : c.Admissible k) (hr : r < c.worldSize)
    (hop : op ∈ c.kernels k r) (hreads : op.reads r = some (src, o)) : src.rank < c.worldSize := by
  cases hkind : (c.request k).kind with
  | allGather =>
    rw [kernels_allGather hkind] at hop
    obtain ⟨t, ht, hop⟩ := List.mem_flatMap.1 hop
    split at hop
    · cases hop
    · obtain rfl := List.mem_singleton.1 hop
      cases hreads
      exact List.mem_range.1 ht
  | broadcast root =>
    rw [kernels_broadcast hkind] at hop
    split at hop
    · cases hop
    · obtain rfl := List.mem_singleton.1 hop
      cases hreads
      simp only [Admissible, hkind] at hadm
      exact hadm.1
  | allReduce =>
    simp only [Admissible, hkind] at hadm
    obtain rfl | rfl | rfl | ⟨s, hs, rfl⟩ :=
      mem_kernels_allReduce hkind (hadm r hr).1 hop <;> cases hreads
    · exact seedSource_lt hr
    · exact hr
    · exact hs
  | reduceScatter =>
    obtain ⟨-, rfl⟩ | rfl | ⟨s, hs, -, rfl⟩ := mem_kernels_reduceScatter hkind hop <;> cases hreads
    · exact hr
    · exact hs

/-- **What is still to be read is not written over.** -/
theorem target_ne_of_reads {o j : ℕ} {src : SourceInfo} {op' : StreamOp} (hadm : c.Admissible k)
    (hr : r < c.worldSize) (hop : op ∈ c.kernels k r) (hreads : op.reads r = some (src, o))
    (hi : i < (c.request k).segCount) (hop' : op' ∈ c.kernels k src.rank)
    (hj : j < (c.request k).segCount) :
    c.target k src.rank op' j ≠ .device ((c.request k).sendbuff src.rank + (o + i)) := by
  have hs := source_lt hadm hr hop hreads
  cases hkind : (c.request k).kind with
  | allGather =>
    simp only [Admissible, hkind] at hadm
    rw [kernels_allGather hkind] at hop hop'
    obtain ⟨t, -, hop⟩ := List.mem_flatMap.1 hop
    split at hop
    · cases hop
    obtain rfl := List.mem_singleton.1 hop
    cases hreads
    obtain ⟨u, hu, hop'⟩ := List.mem_flatMap.1 hop'
    rw [List.mem_range] at hu
    split at hop'
    · cases hop'
    next hskip =>
    obtain rfl := List.mem_singleton.1 hop'
    simp only [target, SourceInfo.rank, ne_eq, Cell.device.injEq] at hs hskip ⊢
    have hlt := segment_lt hu hj
    rcases hadm t hs with hown | hapart
    · have haddr := (ownInPlace_allGather hkind).1 hown
      have hne := segment_ne (fun heq : u = t => hskip ⟨heq, hown⟩) hj hi
      simp only [rankOffset] at haddr ⊢
      omega
    · simp only [rankOffset, Apart] at hapart ⊢
      omega
  | broadcast root =>
    simp only [Admissible, hkind] at hadm
    rw [kernels_broadcast hkind] at hop hop'
    split at hop
    · cases hop
    obtain rfl := List.mem_singleton.1 hop
    cases hreads
    split at hop'
    · cases hop'
    next hskip =>
    obtain rfl := List.mem_singleton.1 hop'
    simp only [target, SourceInfo.rank, ne_eq, Cell.device.injEq, Apart, true_and] at hskip hadm ⊢
    have := hadm.2.resolve_left hskip
    omega
  | allReduce =>
    simp only [Admissible, hkind] at hadm
    have ho : o = 0 := by
      obtain rfl | rfl | rfl | ⟨t, -, rfl⟩ :=
        mem_kernels_allReduce hkind (hadm r hr).1 hop <;> cases hreads <;> rfl
    have hapart := (hadm _ hs).2
    subst ho
    obtain rfl | rfl | rfl | ⟨t, -, rfl⟩ := mem_kernels_allReduce hkind (hadm _ hs).1 hop' <;>
      simp only [target, ne_eq, Cell.device.injEq, reduceCtorEq, not_false_eq_true]
    all_goals
      simp only [Apart] at hapart
      omega
  | reduceScatter =>
    simp only [Admissible, hkind] at hadm
    obtain ⟨ho, hown⟩ : o = c.rankOffset k r ∧ (src.rank = r → c.ownInPlace k r = false) := by
      obtain ⟨hown, rfl⟩ | rfl | ⟨t, -, hne, rfl⟩ := mem_kernels_reduceScatter hkind hop <;>
        cases hreads
      · exact ⟨rfl, fun _ => hown⟩
      · exact ⟨rfl, fun heq => absurd heq hne⟩
    -- the segment that is written is the owner's, the one that is read the reader's
    have hne : (c.request k).recvbuff src.rank + j ≠
        (c.request k).sendbuff src.rank + (c.rankOffset k r + i) := by
      have hlt := segment_lt hr hi
      rcases hadm _ hs with hin | hapart
      · have haddr := (ownInPlace_reduceScatter hkind).1 hin
        have hseg : src.rank ≠ r := fun heq => by
          rw [heq, hown heq] at hin
          cases hin
        have := segment_ne hseg hj hi
        simp only [rankOffset] at haddr ⊢
        omega
      · simp only [rankOffset, Apart] at hapart ⊢
        omega
    subst ho
    obtain ⟨-, rfl⟩ | rfl | ⟨t, -, -, rfl⟩ := mem_kernels_reduceScatter hkind hop' <;>
      simp only [target, ne_eq, Cell.device.injEq, reduceCtorEq, not_false_eq_true, Nat.add_zero]
    all_goals exact hne

/-- What is read has been staged. -/
theorem lt_stageCount_of_reads {src : SourceInfo} {o : ℕ} (hadm : c.Admissible k)
    (hr : r < c.worldSize) (hop : op ∈ c.kernels k r) (hreads : op.reads r = some (src, o))
    (hi : i < (c.request k).segCount) :
    c.localSourceNeededByAnyRank k src.rank = true ∧ o + i < c.stageCount k := by
  cases hkind : (c.request k).kind with
  | allGather =>
    rw [kernels_allGather hkind] at hop
    obtain ⟨t, -, hop⟩ := List.mem_flatMap.1 hop
    split at hop
    · cases hop
    · obtain rfl := List.mem_singleton.1 hop
      cases hreads
      simp only [localSourceNeededByAnyRank, stageCount, hkind, Nat.zero_add]
      exact ⟨trivial, hi⟩
  | broadcast root =>
    rw [kernels_broadcast hkind] at hop
    split at hop
    · cases hop
    · obtain rfl := List.mem_singleton.1 hop
      cases hreads
      simp only [localSourceNeededByAnyRank, stageCount, hkind, Nat.zero_add, SourceInfo.rank,
        beq_self_eq_true]
      exact ⟨trivial, hi⟩
  | allReduce =>
    simp only [Admissible, hkind] at hadm
    simp only [localSourceNeededByAnyRank, stageCount, hkind, true_and]
    obtain rfl | rfl | rfl | ⟨s, -, rfl⟩ :=
      mem_kernels_allReduce hkind (hadm r hr).1 hop <;> cases hreads
    all_goals omega
  | reduceScatter =>
    have hlt := segment_lt hr hi
    simp only [localSourceNeededByAnyRank, stageCount, hkind, true_and]
    obtain ⟨-, rfl⟩ | rfl | ⟨s, -, -, rfl⟩ := mem_kernels_reduceScatter hkind hop <;>
      cases hreads
    all_goals rwa [rankOffset, Nat.mul_comm _ c.worldSize]

end Comm
end Series
end Fastpath
end HyLink
