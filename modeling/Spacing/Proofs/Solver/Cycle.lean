import Spacing.Proofs.Graph.Removal
import Spacing.Proofs.Solver.Structure

namespace Spacing

open Relation

section Numbering

variable {β γ : Type} {r : β → β → Prop} {f : β → γ} {D : Set β} {b c : β} {i j : γ}

theorem BehindCycle.iff_transGen : BehindCycle r b ↔ ∃ c, TransGen r c c ∧ TransGen r c b := by
  constructor
  · rintro ⟨c, hcycle, hpath⟩
    exact ⟨c, hcycle, hcycle.trans_left hpath⟩
  · rintro ⟨c, hcycle, hpath⟩
    exact ⟨c, hcycle, hpath.to_reflTransGen⟩

variable (hr : ∀ b c, r b c → b ∈ D ∧ c ∈ D)
include hr

theorem ends_mem_of_transGen (h : TransGen r b c) : b ∈ D ∧ c ∈ D := by
  obtain ⟨d, hd, -⟩ := TransGen.head'_iff.mp h
  obtain ⟨e, -, he⟩ := TransGen.tail'_iff.mp h
  exact ⟨(hr b d hd).1, (hr e c he).2⟩

variable (hf : Set.InjOn f D)
include hf

theorem transGen_map : TransGen (Relation.Map r f f) i j ↔ Relation.Map (TransGen r) f f i j := by
  constructor
  · intro h
    induction h with
    | single h =>
      obtain ⟨b, c, hbc, rfl, rfl⟩ := h
      exact ⟨b, c, .single hbc, rfl, rfl⟩
    | tail _ h ih =>
      obtain ⟨b, c, hbc, rfl, rfl⟩ := ih
      obtain ⟨c', d, hcd, hc, rfl⟩ := h
      obtain rfl := hf (hr c' d hcd).1 (ends_mem_of_transGen hr hbc).2 hc
      exact ⟨b, d, hbc.tail hcd, rfl, rfl⟩
  · rintro ⟨b, c, hbc, rfl, rfl⟩
    exact hbc.lift f fun b c h => ⟨b, c, h, rfl, rfl⟩

theorem cycle_map : TransGen (Relation.Map r f f) i i ↔ ∃ b, TransGen r b b ∧ f b = i := by
  rw [transGen_map hr hf]
  constructor
  · rintro ⟨b, c, h, rfl, hc⟩
    obtain ⟨hb, hcD⟩ := ends_mem_of_transGen hr h
    obtain rfl := hf hcD hb hc
    exact ⟨c, h, rfl⟩
  · rintro ⟨b, h, rfl⟩
    exact ⟨b, b, h, rfl, rfl⟩

theorem behindCycle_map (hb : b ∈ D) : BehindCycle (Relation.Map r f f) (f b) ↔ BehindCycle r b := by
  simp only [BehindCycle.iff_transGen, cycle_map hr hf]
  constructor
  · rintro ⟨_, ⟨c, hcycle, rfl⟩, hpath⟩
    obtain ⟨d, e, hde, hd, he⟩ := (transGen_map hr hf).mp hpath
    obtain ⟨hdD, heD⟩ := ends_mem_of_transGen hr hde
    obtain rfl := hf hdD (ends_mem_of_transGen hr hcycle).1 hd
    obtain rfl := hf heD hb he
    exact ⟨d, hcycle, hde⟩
  · rintro ⟨c, hcycle, hpath⟩
    exact ⟨f c, ⟨c, hcycle, rfl⟩, (transGen_map hr hf).mpr ⟨c, b, hpath, rfl, rfl⟩⟩

end Numbering

variable {α : Type} [Scalar α] {p : Problem α}

namespace Arrangement

variable {a : Arrangement α} {b b' : BlockId} {i j : Nat}

def Precedes (a : Arrangement α) (b b' : BlockId) : Prop :=
  ∃ c < a.problem.constraints.size, a.leftBlock c = b ∧ a.rightBlock c = b' ∧ b ≠ b'

structure Partitioned (a : Arrangement α) : Prop where
  nodup : a.blockIds.Nodup
  named : ∀ b ∈ a.blockIds, ∀ v ∈ (a.blockAt b).members, a.blockOf v = b
  covered : ∀ v < a.problem.vars.size, ∃ b ∈ a.blockIds, v ∈ (a.blockAt b).members

theorem Partitioned.blockOf_mem (ha : a.Partitioned) {v : VarId} (hv : v < a.problem.vars.size) :
    a.blockOf v ∈ a.blockIds := by
  obtain ⟨b, hb, hmem⟩ := ha.covered v hv
  rwa [ha.named b hb v hmem]

theorem Intact.partitioned (ha : a.Intact) : a.Partitioned where
  nodup := ha.live_nodup.filter _
  named b hb v hv := by
    obtain ⟨B, hB⟩ := Option.isSome_iff_exists.mp ((mem_blockIds ha).mp hb)
    rw [blockAt_eq hB] at hv
    exact ((ha.mem_iff b B hB v).mp hv).2
  covered v hv := by
    obtain ⟨B, hB⟩ := ha.exists_block hv
    refine ⟨a.blockOf v, (mem_blockIds ha).mpr (by rw [hB]; rfl), ?_⟩
    rw [blockAt_eq hB]
    exact (ha.mem_iff _ B hB v).mpr ⟨hv, rfl⟩

theorem count_grouped (arcs : List (Nat × Nat)) (n j : Nat) :
    ((List.range n).flatMap fun i => (arcs.filter fun e => e.1 == i).map Prod.snd).count j =
      arcs.countP fun e => decide (e.1 < n) && e.2 == j := by
  induction n with
  | zero => simp
  | succ n ih =>
    have hsplit : (arcs.countP fun e => decide (e.1 < n + 1) && e.2 == j) =
        (arcs.countP fun e => decide (e.1 < n) && e.2 == j) +
          arcs.countP fun e => e.2 == j && e.1 == n := by
      rw [List.countP_eq_countP_filter_add arcs _ fun e => decide (e.1 < n), List.countP_filter,
        List.countP_filter]
      congr 1
      · apply List.countP_congr
        intro e _
        simp
        omega
      · apply List.countP_congr
        intro e _
        simp
        omega
    rw [List.range_succ, List.flatMap_append, List.count_append, ih, List.flatMap_singleton, hsplit,
      List.count, List.countP_map, List.countP_filter]
    rfl

theorem mem_constraints {k : Constraint α} :
    k ∈ p.constraints.toList ↔ ∃ c < p.constraints.size, p.constraintAt c = k := by
  rw [List.mem_iff_getElem]
  apply exists_congr
  intro c
  by_cases hc : c < p.constraints.size
  · simp [Problem.constraintAt, hc]
  · simp [hc]

theorem idxOf?_of_mem {bs : List BlockId} (hb : b ∈ bs) : bs.idxOf? b = some (bs.idxOf b) := by
  rw [List.idxOf?, List.findIdx?_eq_some_iff_findIdx_eq]
  exact ⟨List.idxOf_lt_length_of_mem hb, rfl⟩

theorem size_graph (a : Arrangement α) : a.graph.size = a.blockIds.length := by
  simp [graph, Digraph.size]

/-- The check for cycles counts off just the blocks that no cycle leads to, and without counting below
zero. -/
structure FindsCycles (a : Arrangement α) : Prop where
  eliminate_eq : a.graph.eliminate ((Array.range a.blockIds.length).map fun i =>
      a.arcs.countP fun e => e.2 == i) =
    some { b | b ∈ a.blockIds ∧ ¬ BehindCycle a.Precedes b }.ncard
  isCyclic_iff : a.isCyclic = true ↔ ∃ b, TransGen a.Precedes b b

section Partitioned

variable (hp : a.problem.Consistent) (ha : a.Partitioned)
include hp ha

theorem mem_of_precedes (h : a.Precedes b b') : b ∈ a.blockIds ∧ b' ∈ a.blockIds := by
  obtain ⟨c, hc, rfl, rfl, -⟩ := h
  exact ⟨ha.blockOf_mem (hp.leftEnd_lt hc), ha.blockOf_mem (hp.rightEnd_lt hc)⟩

theorem mem_arcs {e : Nat × Nat} : e ∈ a.arcs ↔
    Relation.Map a.Precedes a.blockIds.idxOf a.blockIds.idxOf e.1 e.2 := by
  have hmem (c : ConId) (hc : c < a.problem.constraints.size) :
      a.leftBlock c ∈ a.blockIds ∧ a.rightBlock c ∈ a.blockIds :=
    ⟨ha.blockOf_mem (hp.leftEnd_lt hc), ha.blockOf_mem (hp.rightEnd_lt hc)⟩
  rw [arcs, List.mem_filterMap]
  constructor
  · rintro ⟨k, hk, h⟩
    obtain ⟨c, hc, rfl⟩ := mem_constraints.mp hk
    change (if a.leftBlock c = a.rightBlock c then none else do
      return (← a.blockIds.idxOf? (a.leftBlock c), ← a.blockIds.idxOf? (a.rightBlock c))) = some e at h
    split at h
    · cases h
    · rename_i hne
      rw [idxOf?_of_mem (hmem c hc).1, idxOf?_of_mem (hmem c hc).2] at h
      cases h
      exact ⟨_, _, ⟨c, hc, rfl, rfl, hne⟩, rfl, rfl⟩
  · rintro ⟨b, b', ⟨c, hc, rfl, rfl, hne⟩, hi, hj⟩
    refine ⟨_, mem_constraints.mpr ⟨c, hc, rfl⟩, ?_⟩
    change (if a.leftBlock c = a.rightBlock c then none else do
      return (← a.blockIds.idxOf? (a.leftBlock c), ← a.blockIds.idxOf? (a.rightBlock c))) = some e
    rw [if_neg hne, idxOf?_of_mem (hmem c hc).1, idxOf?_of_mem (hmem c hc).2]
    exact congrArg some (Prod.ext hi hj)

theorem lt_of_mem_arcs {e : Nat × Nat} (he : e ∈ a.arcs) :
    e.1 < a.blockIds.length ∧ e.2 < a.blockIds.length := by
  obtain ⟨b, b', h, hi, hj⟩ := (mem_arcs hp ha).mp he
  obtain ⟨hb, hb'⟩ := mem_of_precedes hp ha h
  rw [← hi, ← hj]
  exact ⟨List.idxOf_lt_length_of_mem hb, List.idxOf_lt_length_of_mem hb'⟩

theorem next_graph (i : Nat) :
    a.graph.next i = (a.arcs.filter fun e => e.1 == i).map Prod.snd := by
  by_cases hi : i < a.blockIds.length
  · simp [graph, Digraph.next, hi]
  · have hnone : a.arcs.filter (fun e => e.1 == i) = [] := by
      rw [List.filter_eq_nil_iff]
      intro e he
      have := (lt_of_mem_arcs hp ha he).1
      simp
      omega
    simp [graph, Digraph.next, hi, hnone]

theorem arc_graph : a.graph.Arc = Relation.Map a.Precedes a.blockIds.idxOf a.blockIds.idxOf := by
  ext i j
  rw [Digraph.Arc, next_graph hp ha, List.mem_map, ← mem_arcs hp ha (e := (i, j))]
  constructor
  · rintro ⟨e, he, rfl⟩
    obtain ⟨he, hi⟩ := List.mem_filter.mp he
    rwa [← beq_iff_eq.mp hi]
  · intro he
    exact ⟨(i, j), List.mem_filter.mpr ⟨he, beq_self_eq_true i⟩, rfl⟩

theorem bounded_graph : a.graph.Bounded := by
  intro i j h
  rw [arc_graph hp ha, ← mem_arcs hp ha (e := (i, j))] at h
  rw [size_graph]
  exact (lt_of_mem_arcs hp ha h).2

theorem indegrees_eq (j : Nat) : ((Array.range a.blockIds.length).map fun i =>
    a.arcs.countP fun e => e.2 == i).getD j 0 = a.graph.arcsInto (List.range a.graph.size) j := by
  have hall : a.graph.arcsInto (List.range a.graph.size) j = a.arcs.countP fun e => e.2 == j := by
    rw [Digraph.arcsInto, funext (next_graph hp ha), count_grouped, size_graph]
    apply List.countP_congr
    intro e he
    simp [(lt_of_mem_arcs hp ha he).1]
  rw [hall]
  by_cases hj : j < a.blockIds.length
  · simp [hj]
  · have hnone : a.arcs.countP (fun e => e.2 == j) = 0 := by
      rw [List.countP_eq_zero]
      intro e he
      have := (lt_of_mem_arcs hp ha he).2
      simp
      omega
    simp [hj, hnone]

theorem findsCycles : a.FindsCycles := by
  have hr (b b' : BlockId) (h : a.Precedes b b') := mem_of_precedes hp ha h
  have hf : Set.InjOn a.blockIds.idxOf { b | b ∈ a.blockIds } := by
    intro b hb b' _ h
    exact (List.idxOf_inj hb).mp h
  have hbounded := bounded_graph hp ha
  have hcounts := indegrees_eq hp ha
  constructor
  case eliminate_eq =>
    have himage : { i | i < a.graph.size ∧ ¬ BehindCycle a.graph.Arc i } =
        a.blockIds.idxOf '' { b | b ∈ a.blockIds ∧ ¬ BehindCycle a.Precedes b } := by
      ext i
      rw [arc_graph hp ha, size_graph]
      constructor
      · rintro ⟨hi, hfree⟩
        have hmem := List.getElem_mem hi
        have hidx := ha.nodup.idxOf_getElem i hi
        refine ⟨a.blockIds[i], ⟨hmem, fun h => hfree ?_⟩, hidx⟩
        rw [← hidx]
        exact (behindCycle_map hr hf hmem).mpr h
      · rintro ⟨b, ⟨hb, hfree⟩, rfl⟩
        exact ⟨List.idxOf_lt_length_of_mem hb, fun h => hfree ((behindCycle_map hr hf hb).mp h)⟩
    rw [Digraph.eliminate_eq hbounded hcounts, himage, (hf.mono fun b hb => hb.1).ncard_image]
  case isCyclic_iff =>
    rw [isCyclic, Digraph.isCyclic_iff hbounded hcounts, arc_graph hp ha]
    simp only [cycle_map hr hf]
    rw [exists_comm]
    simp

end Partitioned

end Arrangement

namespace Solver

/-- Of whatever blocks divide up the variables of a problem, retired ones still listed or not, the check
says whether constraints lead from one back to itself. The blocks of a new solver divide them up, and so
do those after any operations, whether these succeeded or not. -/
theorem blocks_isCyclic_iff (hp : p.Built) :
    (∀ a : Arrangement α, a.problem.given = p.given → a.Partitioned → a.FindsCycles) ∧
    ∀ (mode : Mode) (options : Options α) (rounds : Nat) (ops : List (Operation α)),
      YieldsUnless (Excused p ops) ((new p mode options).run rounds ops) fun r =>
        r.1.arrangement.Partitioned ∧ r.1.arrangement.FindsCycles := by
  constructor
  · intro a hgiven ha
    exact a.findsCycles (hp.consistent.of_given hgiven) ha
  · intro mode options rounds ops
    apply (leads_run hp mode options rounds ops).mono (fun _ he => he)
    intro r hr
    have hintact := hr.sound.intact
    have hpartitioned := hintact.partitioned
    exact ⟨hpartitioned, r.1.arrangement.findsCycles hintact.consistent hpartitioned⟩

end Solver

def Problem.lasso : Problem Rat :=
  ((((((Problem.empty.insertVariable 0 0 1).insertVariable 1 0 1).insertVariable 2 0 1).insertConstraint
    0 2 0 true).insertConstraint 0 1 (-9) false).insertConstraint 1 2 (-9) false).insertConstraint
    0 2 1 false

theorem Problem.built_lasso : Problem.lasso.Built :=
  Built.empty.edits [.addVariable 0 0 1, .addVariable 1 0 1, .addVariable 2 0 1,
    .addConstraint 0 2 0 true, .addConstraint 0 1 (-9) false, .addConstraint 1 2 (-9) false,
    .addConstraint 0 2 1 false] rfl

theorem Solver.blocks_isCyclic_iff_lasso : Problem.lasso.Built ∧ ∃ s replies,
    (Solver.new Problem.lasso .incremental Options.standard).run 3 [.solve] = .ok (s, replies) ∧
    s.arrangement.live.length = 3 ∧ s.arrangement.blockIds.length = 2 ∧
    { b | b ∈ s.arrangement.blockIds ∧ ¬ BehindCycle s.arrangement.Precedes b }.ncard = 0 ∧
    ∃ b, TransGen s.arrangement.Precedes b b := by
  -- The run gives up with a retired block in its list, and the block of the two variables at one
  -- place comes both before and after that of the third one.
  obtain ⟨hall, hruns⟩ := Solver.blocks_isCyclic_iff Problem.built_lasso
  have hcyclic : Yields ((Solver.new Problem.lasso .incremental Options.standard).run 3 [.solve]) fun r =>
      r.1.arrangement.problem.given = Problem.lasso.given ∧ r.1.arrangement.live.length = 3 ∧
      r.1.arrangement.blockIds.length = 2 ∧ r.1.arrangement.isCyclic = true ∧
      r.1.arrangement.graph.eliminate ((Array.range r.1.arrangement.blockIds.length).map fun i =>
        r.1.arrangement.arcs.countP fun e => e.2 == i) = some 0 := by decide +kernel
  obtain ⟨⟨s, replies⟩, hrun, hgiven, hlive, hblocks, hcyclic, hnone⟩ := hcyclic
  have hpartitioned := ((hruns .incremental Options.standard 3 [.solve]).of_ok hrun).1
  have hfinds := hall s.arrangement hgiven hpartitioned
  rw [hfinds.eliminate_eq, Option.some.injEq] at hnone
  exact ⟨Problem.built_lasso, s, replies, hrun, hlive, hblocks, hnone,
    hfinds.isCyclic_iff.mp hcyclic⟩

end Spacing
