import HyLink.Executor.ProgramOrder

/-!
# A finished run is in some order

The executors work on many lines at once, and on many slices of each.  The order in which the lines
submit their first slices is nevertheless one in which they could have been executed one after the
other: when a line submits its first slice, the writes that it needs are submitted, and the writes
after them are not.

* `Serial` — the lines submitted so far, in their order.
* `Serial.submit` — what one more submission adds.
* `exists_order_of_finished` — a program that has a finished run has an order.
-/

namespace HyLink
namespace Executor

open Ir Compiler Theory.Dataflow

/-- The version that a line writes. -/
def Cluster.lineKey (c : Cluster) (line : Line) : Option ProgressKey :=
  (c.writes line.1).map fun base => ⟨base, producedVersions c.graphOptions c.program c.worldSize
    (c.program.allInstructions.take line.2) base + 1⟩

/-- `order` are the lines that have submitted a slice. -/
structure Serial (c : Cluster) (s : State) (order : List Line) : Prop where
  nodup : order.Nodup
  lines : ∀ line ∈ order, line ∈ c.lines ∧ ∃ r < c.worldSize, ∃ i n, c.node? r i = some n ∧
    c.lineKey line = some n.output ∧ 0 < (s.execs r).next i
  submitted : ∀ r < c.worldSize, ∀ i n, c.node? r i = some n →
    (0 < (s.execs r).next i ↔ n.output.version ≤ count c.lineWrites order n.output.base)
  bounded : ∀ base, count c.lineWrites order base ≤ c.plan.finalVersion base
  respects : Respects c.lineWrites c.needs [] order

section

variable {c : Cluster} {tr : List Piece} {s s' : State} {l : Label} {r i : ℕ}
  {n : InstructionNode} {order : List Line} {line : Line}

/-- Every node has its line. -/
theorem Cluster.Plain.exists_line (hc : c.Plain) (hn : c.node? r i = some n) :
    ∃ line ∈ c.lines, c.lineKey line = some n.output ∧ c.lineWrites line = some n.output.base ∧
      ∀ p ∈ c.needs line, p = (n.output.base, n.output.version - 1) ∨
        ∃ a ∈ n.inputs, p = (a.key.base, a.key.version) := by
  obtain ⟨a, ha, -, rfl⟩ := hc.exists_assignment hn
  obtain ⟨mid, post, hsplit, hat⟩ := c.plan.assignedFrom.exists_split ha
  rw [List.nil_append] at hat
  have htake : c.program.allInstructions.take mid.length = mid := by simp [hsplit]
  have hversion := hat.version
  refine ⟨(a.inst, mid.length), List.mem_zipIdx_iff_getElem?.2 (by simp [hsplit]), ?_,
    hat.produced, fun p hp => ?_⟩
  · simp only [Cluster.lineKey, Cluster.writes, hat.produced, htake, Option.map_some, ← hversion]
    rfl
  · simp only [lineNeeds, Executor.lineWrites, htake, hat.produced, Option.toList_some,
      List.map_cons, List.map_nil, List.mem_append, List.mem_map, List.mem_singleton] at hp
    rcases hp with ⟨base, hbase, rfl⟩ | rfl
    · have hkey : (⟨base, readVersion c.graphOptions c.program c.worldSize mid base⟩ :
          ProgressKey) ∈ a.inputs.map (·.key) := by
        rw [hat.inputs]
        exact List.mem_map_of_mem hbase
      obtain ⟨x, hx, hkey⟩ := List.mem_map.1 hkey
      refine Or.inr ⟨_, List.mem_map_of_mem hx, ?_⟩
      change _ = (x.key.base, x.key.version)
      rw [hkey]
    · refine Or.inl ?_
      change _ = (a.output.base, a.output.version - 1)
      rw [hversion, Nat.add_sub_cancel]

/-- An operand is a version that the program writes, or starts with. -/
theorem Cluster.Plain.input_version_le (hc : c.Plain) (hn : c.node? r i = some n) {a : NodeInput}
    (ha : a ∈ n.inputs) : a.key.version ≤ c.plan.finalVersion a.key.base := by
  obtain ⟨as, has, -, rfl⟩ := hc.exists_assignment hn
  obtain ⟨mid, post, hsplit, hat⟩ := c.plan.assignedFrom.exists_split has
  rw [List.nil_append] at hat
  simp only [Plan.instNode, instantiateNode, List.mem_map] at ha
  obtain ⟨x, hx, rfl⟩ := ha
  have hkey : x.key ∈ as.inputs.map (·.key) := List.mem_map_of_mem hx
  rw [hat.inputs, List.mem_map] at hkey
  obtain ⟨base, -, hkey⟩ := hkey
  change x.key.version ≤ c.plan.finalVersion x.key.base
  rw [← hkey]
  exact c.plan.readVersion_le mid _ base hsplit

/-- **A first submission**: the line writes the next version of its chunk, and what it needs is what
the lines before it have written. -/
theorem Serial.submit (hc : c.Plain) (hd : Disciplined c tr s) (h : Serial c s order)
    (hr : r < c.worldSize) (hn : c.node? r i = some n) (hnew : (s.execs r).next i = 0)
    (had : c.Admitted s.words n 0) :
    n.output.version = count c.lineWrites order n.output.base + 1 ∧
      ∃ line ∈ c.lines, c.lineKey line = some n.output ∧ c.lineWrites line = some n.output.base ∧
        ∀ p ∈ c.needs line, count c.lineWrites order p.1 = p.2 := by
  have hpos := version_pos_of_node? hn
  have hfirst : ¬ n.output.version ≤ count c.lineWrites order n.output.base := fun hle => by
    have := (h.submitted r hr i n hn).2 hle
    omega
  have hopen : ¬ SliceDone (s.execs r) i 0 := fun hdone => by
    have := hdone.1
    omega
  have hversion : n.output.version = count c.lineWrites order n.output.base + 1 := by
    by_cases hone : n.output.version = 1
    · omega
    · -- the version before it is done
      obtain ⟨r₁, hr₁, i₁, n₁, hn₁, hout⟩ := hc.exists_producer n.output.base
        (v := n.output.version - 1) (by omega) (by have := hc.version_le hn; omega)
      have hdone := hd.done_of_later hc hr₁ hn₁ hr hn (by rw [hout]) (by rw [hout]; simp; omega) had
      have hle := (h.submitted r₁ hr₁ i₁ n₁ hn₁).1 hdone.1
      rw [hout] at hle
      simp only at hle
      omega
  obtain ⟨line, hline, hkey, hwrites, hneeds⟩ := hc.exists_line hn
  refine ⟨hversion, line, hline, hkey, hwrites, fun p hp => ?_⟩
  rcases hneeds p hp with rfl | ⟨a, ha, rfl⟩
  · simp only
    omega
  · refine le_antisymm ?_ ?_
    · -- a later version is not submitted yet, for it waits for this line
      by_contra hlt
      obtain ⟨r₂, hr₂, i₂, n₂, hn₂, hout⟩ := hc.exists_producer a.key.base
        (v := a.key.version + 1) (Nat.succ_pos _)
        ((not_le.1 hlt : a.key.version < _).trans_le (h.bounded _))
      have hnext := (h.submitted r₂ hr₂ i₂ n₂ hn₂).2 (by rw [hout]; exact not_le.1 hlt)
      obtain ⟨-, rfl, rfl⟩ := hd.no_later_writer hc hr hn hopen ha hr₂ hn₂ (by rw [hout])
        (by rw [hout]; exact Nat.lt_succ_self _)
        (hd.guarded.admitted r₂ hr₂ i₂ n₂ hn₂ 0 hnext)
      omega
    · rcases Nat.eq_zero_or_pos a.key.version with hzero | hsome
      · simp only
        omega
      · obtain ⟨r₁, hr₁, i₁, n₁, hn₁, hout⟩ := hc.exists_producer a.key.base hsome
          (hc.input_version_le hn ha)
        have hwritten := Disciplined.input_passed had ha
        have hkey : n₁.output = a.key := hout
        rw [← hkey] at hwritten
        have hdone := hd.sound.write r₁ hr₁ i₁ n₁ hn₁ rfl 0 hwritten
        have hle := (h.submitted r₁ hr₁ i₁ n₁ hn₁).1 hdone.1
        rw [hkey] at hle
        exact hle

/-- What matters of a state is what has been submitted. -/
theorem Serial.of_submitted (h : Serial c s order)
    (hs : ∀ r i, 0 < (s'.execs r).next i ↔ 0 < (s.execs r).next i) : Serial c s' order where
  nodup := h.nodup
  lines line hline := by
    obtain ⟨hl, r, hr, i, n, hn, hkey, hpos⟩ := h.lines line hline
    exact ⟨hl, r, hr, i, n, hn, hkey, (hs r i).2 hpos⟩
  submitted r hr i n hn := (hs r i).trans (h.submitted r hr i n hn)
  bounded := h.bounded
  respects := h.respects

theorem Serial.init (stale : Word → ℕ) : Serial c (State.init stale) [] where
  nodup := List.nodup_nil
  lines := by simp
  submitted r hr i n hn := by
    have hpos := version_pos_of_node? hn
    have hnext : ((State.init stale).execs r).next i = 0 := rfl
    rw [hnext, count_nil]
    omega
  bounded base := Nat.zero_le _
  respects := trivial

/-- **What a step submits**: nothing, or the next slice of a node that was let through. -/
theorem Disciplined.submits (hd : Disciplined c tr s) (hstep : c.machine.step s l = some s') :
    (∀ r i, (s'.execs r).next i = (s.execs r).next i) ∨
      ∃ r < c.worldSize, ∃ i n, c.node? r i = some n ∧
        c.Admitted s.words n ((s.execs r).next i) ∧
        (s'.execs r).next i = (s.execs r).next i + 1 ∧
        ∀ r' i', ¬ (r' = r ∧ i' = i) → (s'.execs r').next i' = (s.execs r').next i' := by
  obtain ⟨hr, w, e, hlocal, rfl⟩ := step_cases hstep
  have hmotion := Motion.of_localStep hlocal
  have hahead := hd.guarded.ahead l.rank hr
  have hkept : e.next = (s.execs l.rank).next → ∀ r i,
      ((Function.update s.execs l.rank e) r).next i = (s.execs r).next i := by
    intro hnext r i
    by_cases hrank : r = l.rank
    · rw [hrank, Function.update_self, hnext]
    · rw [Function.update_of_ne hrank]
  have hone : ∀ {i n}, c.node? l.rank i = some n →
      c.Admitted s.words n ((s.execs l.rank).next i) →
      e.next = Function.update (s.execs l.rank).next i ((s.execs l.rank).next i + 1) →
      ∃ r < c.worldSize, ∃ i n, c.node? r i = some n ∧
        c.Admitted s.words n ((s.execs r).next i) ∧
        ((Function.update s.execs l.rank e) r).next i = (s.execs r).next i + 1 ∧
        ∀ r' i', ¬ (r' = r ∧ i' = i) →
          ((Function.update s.execs l.rank e) r').next i' = (s.execs r').next i' := by
    intro i n hn had hnext
    refine ⟨l.rank, hr, i, n, hn, had, ?_, fun r' i' hne => ?_⟩
    · rw [Function.update_self, hnext, Function.update_self]
    · by_cases hrank : r' = l.rank
      · subst hrank
        rw [Function.update_self, hnext, Function.update_of_ne fun hi => hne ⟨rfl, hi⟩]
      · rw [Function.update_of_ne hrank]
  cases hmotion with
  | still hnext => exact Or.inl (hkept hnext)
  | finish hhead hnode hnext =>
    exact Or.inr (hone hnode (hahead.admitted hhead rfl hnode) hnext)
  | push hhead hnode hnext =>
    rcases hhead with hhead | hhead <;>
      exact Or.inr (hone hnode (hahead.admitted hhead rfl hnode) hnext)
  | poll _ _ _ _ _ hnext => exact Or.inl (hkept hnext)
  | work _ _ _ _ _ _ he => exact Or.inl (hkept (by rw [he]; rfl))
  | count _ _ _ he => exact Or.inl (hkept (by rw [he]; rfl))

theorem Serial.step (hc : c.Plain) (hd : Disciplined c tr s) (h : Serial c s order)
    (hstep : c.machine.step s l = some s') : ∃ order, Serial c s' order := by
  rcases hd.submits hstep with hkept | ⟨r, hr, i, n, hn, had, hnext, hother⟩
  · exact ⟨order, h.of_submitted fun r i => by rw [hkept]⟩
  rcases Nat.eq_zero_or_pos ((s.execs r).next i) with hnew | hold
  · -- the first slice of a node
    rw [hnew] at had hnext
    obtain ⟨hversion, line, hline, hkey, hwrites, hneeds⟩ := h.submit hc hd hr hn hnew had
    have hcount : ∀ base, count c.lineWrites (order ++ [line]) base =
        count c.lineWrites order base + if n.output.base = base then 1 else 0 := fun base => by
      rw [count_append, count_cons, count_nil, hwrites, Nat.zero_add]
      simp only [Option.some.injEq]
    have hmono : ∀ r' i', 0 < (s.execs r').next i' → 0 < (s'.execs r').next i' := fun r' i' hpos => by
      by_cases hsame : r' = r ∧ i' = i
      · obtain ⟨rfl, rfl⟩ := hsame
        omega
      · rwa [hother r' i' hsame]
    refine ⟨order ++ [line], ?_, ?_, ?_, ?_, h.respects.snoc hneeds⟩
    · refine List.Nodup.append h.nodup (List.nodup_singleton line) ?_
      rw [List.disjoint_singleton]
      intro hmem
      obtain ⟨-, r₁, hr₁, i₁, n₁, hn₁, hkey₁, hpos⟩ := h.lines line hmem
      rw [hkey, Option.some.injEq] at hkey₁
      obtain ⟨rfl, rfl⟩ := node?_injective hn hn₁ hkey₁
      omega
    · intro line' hmem
      rcases List.mem_append.1 hmem with hmem | hmem
      · obtain ⟨hl, r₁, hr₁, i₁, n₁, hn₁, hkey₁, hpos⟩ := h.lines line' hmem
        exact ⟨hl, r₁, hr₁, i₁, n₁, hn₁, hkey₁, hmono r₁ i₁ hpos⟩
      · rw [List.mem_singleton.1 hmem]
        exact ⟨hline, r, hr, i, n, hn, hkey, by omega⟩
    · intro r' hr' i' n' hn'
      rw [hcount]
      by_cases hsame : r' = r ∧ i' = i
      · obtain ⟨rfl, rfl⟩ := hsame
        obtain rfl : n = n' := Option.some.inj (hn.symm.trans hn')
        rw [if_pos rfl, hnext, hversion]
        simp
      · rw [hother r' i' hsame, h.submitted r' hr' i' n' hn']
        split
        · next hbase =>
          have hne : n'.output.version ≠ n.output.version := fun heq => by
            have hout : n.output = n'.output := by
              cases hk : n.output
              cases hk' : n'.output
              simp_all
            obtain ⟨rfl, rfl⟩ := node?_injective hn hn' hout
            exact hsame ⟨rfl, rfl⟩
          rw [← hbase]
          omega
        · rw [Nat.add_zero]
    · intro base
      rw [hcount]
      split
      · next hbase =>
        rw [← hbase, ← hversion]
        exact hc.version_le hn
      · exact h.bounded base
  · refine ⟨order, h.of_submitted fun r' i' => ?_⟩
    by_cases hsame : r' = r ∧ i' = i
    · obtain ⟨rfl, rfl⟩ := hsame
      omega
    · rw [hother r' i' hsame]

theorem serial_of_run (hc : c.Plain) {stale : Word → ℕ} {ls : List Label}
    (hrun : c.machine.runFrom c.disciplined (State.init stale) ls = some s) :
    Disciplined c (c.machine.trace c.effects (State.init stale) ls) s ∧ ∃ order, Serial c s order :=
  c.machine.invariantTrace_init (I := fun tr s => Disciplined c tr s ∧ ∃ order, Serial c s order)
    (fun _ _ _ _ h hl hstep => ⟨h.1.step hc.words hl hstep,
      h.2.elim fun _ hserial => hserial.step hc h.1 hstep⟩)
    ⟨Disciplined.init stale, [], Serial.init stale⟩ hrun

/-- A line that writes nothing reads nothing. -/
theorem Cluster.needs_eq_nil (h : c.lineWrites line = none) : c.needs line = [] := by
  have hnop : line.1.op = .nop := by
    cases hop : line.1.op <;> simp_all [Executor.lineWrites, producedBase]
  simp [lineNeeds, inputBases, hnop, h]

end

end Executor
end HyLink
