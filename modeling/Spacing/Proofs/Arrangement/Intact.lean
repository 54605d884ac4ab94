import Spacing.Arrangement.Merge
import Spacing.Proofs.Arrangement.Walk
/-!
Intact arrangements: the blocks in use divide up the variables, active constraints join the members
of each block into a tree, and what a block knows of its boundary is all there is to know.
-/

namespace Spacing

def Side.other : Side → Side
  | .left => .right
  | .right => .left

def Edges.endOn (g : Edges) : Side → ConId → VarId
  | .left => g.left
  | .right => g.right

variable {α : Type} [Scalar α]

theorem Problem.endOn_edges (p : Problem α) (side : Side) (c : ConId) :
    (p.constraintAt c).endOn side = p.edges.endOn side c := by
  cases side <;> rfl

theorem Problem.Consistent.endOn_lt {p : Problem α} (hp : p.Consistent) {c : ConId}
    (hc : c < p.constraints.size) (side : Side) : p.edges.endOn side c < p.vars.size := by
  cases side
  · exact hp.left_lt c hc
  · exact hp.right_lt c hc

theorem Problem.Consistent.mem_towards {p : Problem α} (hp : p.Consistent) {v : VarId} {c : ConId}
    (side : Side) : c ∈ (p.variableAt v).towards side ↔
      c < p.constraints.size ∧ p.edges.endOn side.other c = v := by
  cases side
  · exact hp.mem_ins v c
  · exact hp.mem_outs v c

theorem Problem.Consistent.nodup_towards {p : Problem α} (hp : p.Consistent) (side : Side)
    (v : VarId) : ((p.variableAt v).towards side).Nodup := by
  cases side
  · exact hp.nodup_ins v
  · exact hp.nodup_outs v

namespace Arrangement

variable {a a' : Arrangement α} {b : BlockId} {B : Block α} {c : ConId} {u v : VarId} {side : Side}

structure Crosses (a : Arrangement α) (side : Side) (b : BlockId) (c : ConId) : Prop where
  lt_size : c < a.problem.constraints.size
  near : a.blockOf (a.problem.edges.endOn side.other c) = b
  far : a.blockOf (a.problem.edges.endOn side c) ≠ b

/-- `cs` is what `b` knows of its boundary on `side`: all that crosses, and perhaps what used to. -/
structure Covers (a : Arrangement α) (side : Side) (b : BlockId) (cs : List ConId) : Prop where
  near : ∀ c ∈ cs, c < a.problem.constraints.size ∧
    a.blockOf (a.problem.edges.endOn side.other c) = b
  all : ∀ c, a.Crosses side b c → c ∈ cs

structure Intact (a : Arrangement α) : Prop where
  consistent : a.problem.Consistent
  nodup : ∀ b B, a.block? b = some B → B.members.Nodup
  mem_iff : ∀ b B, a.block? b = some B →
    ∀ v, v ∈ B.members ↔ v < a.problem.vars.size ∧ a.blockOf v = b
  standing : ∀ v < a.problem.vars.size, (a.block? (a.blockOf v)).isSome
  nonempty : ∀ b B, a.block? b = some B → B.members ≠ []
  live : ∀ b B, a.block? b = some B → b ∈ a.live
  live_nodup : a.live.Nodup
  live_lt : ∀ b ∈ a.live, b < a.blocks.size
  together : ∀ c ∈ a.problem.active,
    a.blockOf (a.problem.edges.left c) = a.blockOf (a.problem.edges.right c)
  linked : ∀ u < a.problem.vars.size, ∀ v < a.problem.vars.size, a.blockOf u = a.blockOf v →
    a.problem.edges.Linked a.problem.active u v
  forest : a.problem.edges.IsForest a.problem.active
  covers : ∀ b B, a.block? b = some B → ∀ side cs, B.boundary side = some cs → a.Covers side b cs

theorem leftBlock_eq : a.leftBlock c = a.blockOf (a.problem.edges.left c) := rfl

theorem rightBlock_eq : a.rightBlock c = a.blockOf (a.problem.edges.right c) := rfl

omit [Scalar α] in
theorem block?_eq_some_lt (h : a.block? b = some B) : b < a.blocks.size :=
  Slots.lt_size_of_getD h

theorem blockAt_eq (h : a.block? b = some B) : a.blockAt b = B := by
  simp [blockAt, h]

theorem mem_blockIds (ha : a.Intact) : b ∈ a.blockIds ↔ (a.block? b).isSome := by
  refine ⟨fun hb => (List.mem_filter.mp hb).2, fun hb => List.mem_filter.mpr ⟨?_, hb⟩⟩
  obtain ⟨B, hB⟩ := Option.isSome_iff_exists.mp hb
  exact ha.live b B hB

omit [Scalar α] in
theorem standing_eq (a : Arrangement α) :
    a.standing = ((List.range a.blocks.size).filter fun b => (a.block? b).isSome).length := by
  have hblocks : a.blocks.toList = (List.range a.blocks.size).map a.block? := by
    apply List.ext_getElem
    · simp
    · intro i h₁ h₂
      simp [block?, Array.getD, show i < a.blocks.size by simpa using h₁]
  rw [standing, ← Array.countP_toList, hblocks, List.countP_map, List.countP_eq_length_filter]
  rfl

theorem length_blockIds (ha : a.Intact) : a.blockIds.length = a.standing := by
  rw [standing_eq]
  apply List.Perm.length_eq
  apply (List.perm_ext_iff_of_nodup (ha.live_nodup.filter _) (List.nodup_range.filter _)).mpr
  intro b
  refine (mem_blockIds ha).trans ?_
  rw [List.mem_filter, List.mem_range]
  refine ⟨fun hb => ⟨?_, hb⟩, fun hb => hb.2⟩
  obtain ⟨B, hB⟩ := Option.isSome_iff_exists.mp hb
  exact block?_eq_some_lt hB

namespace Intact

variable (h : a.Intact)
include h

theorem exists_block (hv : v < a.problem.vars.size) : ∃ B, a.block? (a.blockOf v) = some B :=
  Option.isSome_iff_exists.mp (h.standing v hv)

theorem blockOf_eq (hb : a.block? b = some B) (hv : v ∈ B.members) : a.blockOf v = b :=
  ((h.mem_iff b B hb v).mp hv).2

theorem lt_of_mem (hb : a.block? b = some B) (hv : v ∈ B.members) : v < a.problem.vars.size :=
  ((h.mem_iff b B hb v).mp hv).1

theorem mem_of_blockOf (hb : a.block? b = some B) (hv : v < a.problem.vars.size)
    (hvb : a.blockOf v = b) : v ∈ B.members :=
  (h.mem_iff b B hb v).mpr ⟨hv, hvb⟩

theorem blockOf_lt (hv : v < a.problem.vars.size) : a.blockOf v < a.blocks.size := by
  obtain ⟨B, hB⟩ := h.exists_block hv
  exact block?_eq_some_lt hB

theorem left_lt (hc : c ∈ a.problem.active) : a.problem.edges.left c < a.problem.vars.size :=
  h.consistent.left_lt c (Problem.lt_size_of_mem_active hc)

theorem right_lt (hc : c ∈ a.problem.active) : a.problem.edges.right c < a.problem.vars.size :=
  h.consistent.right_lt c (Problem.lt_size_of_mem_active hc)

theorem blockOf_eq_of_linked (hl : a.problem.edges.Linked a.problem.active u v) :
    a.blockOf u = a.blockOf v :=
  hl.congr h.together

theorem linked_inside {E : Set ConId} (hE : E ⊆ a.problem.active) (hl : a.problem.edges.Linked E u v) :
    a.problem.edges.Linked { c | c ∈ E ∧ a.leftBlock c = a.blockOf u } u v := by
  induction hl with
  | refl => exact .refl
  | @tail w x hw hc ih =>
    obtain ⟨c, hc, hj⟩ := hc
    have hwu : a.blockOf w = a.blockOf u := (h.blockOf_eq_of_linked (Edges.Linked.mono hE hw)).symm
    have hxu : a.blockOf x = a.blockOf u :=
      (h.blockOf_eq_of_linked (.joins (hE hc) hj)).symm.trans hwu
    have hcu : a.leftBlock c = a.blockOf u := by
      rcases hj with ⟨hl, -⟩ | ⟨-, hl⟩
      · rw [leftBlock_eq, hl, hwu]
      · rw [leftBlock_eq, hl, hxu]
    exact ih.trans (.joins ⟨hc, hcu⟩ hj)

theorem isSpanningTree (hb : a.block? b = some B) : a.problem.edges.IsSpanningTree B.members
    { c | c ∈ a.problem.active ∧ a.leftBlock c = b } where
  inside c hc := by
    obtain ⟨hc, hcb⟩ := hc
    exact ⟨h.mem_of_blockOf hb (h.left_lt hc) hcb,
      h.mem_of_blockOf hb (h.right_lt hc) ((h.together c hc).symm.trans hcb)⟩
  linked u hu v hv := by
    have hub := h.blockOf_eq hb hu
    have hl := h.linked u (h.lt_of_mem hb hu) v (h.lt_of_mem hb hv)
      (hub.trans (h.blockOf_eq hb hv).symm)
    have hinside := h.linked_inside (Set.Subset.refl _) hl
    rwa [hub] at hinside
  forest := h.forest.mono fun _ hc => hc.1

end Intact

theorem Intact.congr (h : a.Intact) (hp : a'.problem.Consistent)
    (hn : a'.problem.vars.size = a.problem.vars.size)
    (hm : a'.problem.constraints.size = a.problem.constraints.size)
    (he : a'.problem.edges = a.problem.edges) (ha : a'.problem.active = a.problem.active)
    (hv : ∀ v, a'.blockOf v = a.blockOf v)
    (hb : ∀ b B', a'.block? b = some B' → ∃ B, a.block? b = some B ∧ B'.members = B.members ∧
      ∀ side cs, B'.boundary side = some cs → B.boundary side = some cs ∨ a.Covers side b cs)
    (hs : ∀ b, (a.block? b).isSome → (a'.block? b).isSome) (hz : a'.blocks.size = a.blocks.size)
    (hl : ∀ b ∈ a'.live, b ∈ a.live) (hl' : ∀ b, (a'.block? b).isSome → b ∈ a.live → b ∈ a'.live)
    (hln : a'.live.Nodup) : a'.Intact where
  consistent := hp
  nodup b B' hB' := by
    obtain ⟨B, hB, hm, -⟩ := hb b B' hB'
    exact hm ▸ h.nodup b B hB
  mem_iff b B' hB' v := by
    obtain ⟨B, hB, hm, -⟩ := hb b B' hB'
    rw [hm, hn, hv]
    exact h.mem_iff b B hB v
  standing v hvn := hs _ (by rw [hv]; exact h.standing v (hn ▸ hvn))
  nonempty b B' hB' := by
    obtain ⟨B, hB, hm, -⟩ := hb b B' hB'
    exact hm ▸ h.nonempty b B hB
  live b B' hB' := by
    obtain ⟨B, hB, -⟩ := hb b B' hB'
    exact hl' b (by rw [hB']; rfl) (h.live b B hB)
  live_nodup := hln
  live_lt b hb := hz ▸ h.live_lt b (hl b hb)
  together c hc := by
    rw [he, hv, hv]
    exact h.together c (ha ▸ hc)
  linked u hu v hvn huv := by
    rw [he, ha]
    exact h.linked u (hn ▸ hu) v (hn ▸ hvn) (by rwa [← hv, ← hv])
  forest := by
    rw [he, ha]
    exact h.forest
  covers b B' hB' side cs hcs := by
    obtain ⟨B, hB, -, hcov⟩ := hb b B' hB'
    have : a.Covers side b cs := (hcov side cs hcs).elim (h.covers b B hB side cs) id
    refine ⟨fun c hc => ?_, fun c hc => this.all c ⟨?_, ?_, ?_⟩⟩
    · rw [he, hm, hv]
      exact this.near c hc
    · exact hm ▸ hc.lt_size
    · rw [← hv, ← he]
      exact hc.near
    · rw [← hv, ← he]
      exact hc.far

end Arrangement

end Spacing
