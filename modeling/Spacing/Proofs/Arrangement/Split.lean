import Spacing.Arrangement.Split
import Spacing.Proofs.Arrangement.Intact

namespace Spacing

variable {α : Type} [Scalar α]

theorem Problem.Consistent.lt_of_linked {p : Problem α} (hp : p.Consistent) {E : Set ConId}
    (hE : E ⊆ p.active) {u v : VarId} (hu : u < p.vars.size) (h : p.edges.Linked E u v) :
    v < p.vars.size := by
  refine (h.transport (P := fun v => v < p.vars.size) fun c hc => ?_).mp hu
  have hlt := lt_size_of_mem_active (hE hc)
  exact iff_of_true (hp.left_lt c hlt) (hp.right_lt c hlt)

theorem Block.weigh_congr {p q : Problem α} (h : p.given = q.given) (members : List VarId) :
    Block.weigh p members = Block.weigh q members := by
  simp only [Block.weigh, Problem.weight_eq h]

theorem Block.place_congr {p q : Problem α} (h : p.given = q.given) (members : List VarId)
    (position : α) : Block.place p members position = Block.place q members position := by
  rw [Block.place, Block.place, Block.weigh_congr h]

namespace Arrangement

variable {a a₁ a₂ a' : Arrangement α} {c d : ConId} {l r i old : BlockId} {B : Block α}
  {start v : VarId} {position : α} {M L R : List VarId}

structure Detached (a a' : Arrangement α) (start : VarId) (position : α) (M : List VarId) :
    Prop where
  nodup : M.Nodup
  mem_iff : ∀ v, v ∈ M ↔ a.problem.edges.Linked a.problem.active start v
  given_eq : a'.problem.given = a.problem.given
  constraints_eq : a'.problem.constraints = a.problem.constraints
  variableAt_eq : ∀ v, a'.problem.variableAt v =
    if v ∈ M then { a.problem.variableAt v with block := a.blocks.size }
    else a.problem.variableAt v
  blocks_eq : a'.blocks = a.blocks.push (some (Block.place a.problem M position))
  live_eq : a'.live = a.live ++ [a.blocks.size]
  journal_eq : a'.journal = a.journal

theorem exists_detach (hp : a.problem.Consistent)
    (ht : ∀ c ∈ a.problem.active,
      a.blockOf (a.problem.edges.left c) = a.blockOf (a.problem.edges.right c))
    (hs : start < a.problem.vars.size) (hb : a.blockOf start = old) (position : α) :
    ∃ a' M, a.detach old start position = (a', a.blocks.size) ∧ Detached a a' start position M := by
  let M := start :: childrenOf (a.problem.tree old start)
  have hmem (v : VarId) : v ∈ M ↔ a.problem.edges.Linked a.problem.active start v :=
    Problem.mem_tree_iff hp ht hb v
  have hnodup : M.Nodup := Problem.nodup_tree _ _ _
  have hlt : ∀ v ∈ M, v < a.problem.vars.size :=
    fun v hv => hp.lt_of_linked (Set.Subset.refl _) hs ((hmem v).mp hv)
  have hf (x : Variable α) : ({ x with block := a.blocks.size } : Variable α).given = x.given := rfl
  refine ⟨_, M, rfl, ⟨hnodup, hmem, Problem.given_modifyAll hf M, Problem.constraints_modifyAll _ M,
    fun v => Problem.variableAt_modifyAll _ hnodup hlt, ?_, rfl, rfl⟩⟩
  exact congrArg (fun B => a.blocks.push (some B))
    (Block.place_congr (Problem.given_modifyAll hf M) M position)

theorem Detached.active_eq (h : Detached a a' start position M) :
    a'.problem.active = a.problem.active := by
  ext d
  rw [Problem.mem_active, Problem.constraintAt, h.constraints_eq]
  rfl

theorem Detached.blockOf_eq (h : Detached a a' start position M) :
    a'.blockOf v = if v ∈ M then a.blocks.size else a.blockOf v := by
  rw [blockOf, Problem.blockOf, h.variableAt_eq]
  split <;> rfl

theorem Detached.together (h : Detached a a' start position M)
    (ht : ∀ c ∈ a.problem.active,
      a.blockOf (a.problem.edges.left c) = a.blockOf (a.problem.edges.right c)) :
    ∀ c ∈ a'.problem.active,
      a'.blockOf (a'.problem.edges.left c) = a'.blockOf (a'.problem.edges.right c) := by
  intro c hc
  rw [h.active_eq] at hc
  have hedge : a.problem.edges.Linked a.problem.active (a.problem.edges.left c)
      (a.problem.edges.right c) := .edge hc
  have hM : a.problem.edges.left c ∈ M ↔ a.problem.edges.right c ∈ M := by
    rw [h.mem_iff, h.mem_iff]
    exact ⟨fun hl => hl.trans hedge, fun hr => hr.trans hedge.symm⟩
  rw [Problem.edges_eq h.given_eq, h.blockOf_eq, h.blockOf_eq]
  simp only [hM, ht c hc]

/-- The block of `c` has been split into `l` with the members `L` and `r` with the members `R`. -/
structure Halved (a a' : Arrangement α) (c : ConId) (l r : BlockId) (B : Block α)
    (L R : List VarId) : Prop where
  old : a.block? (a.leftBlock c) = some B
  left_eq : l = a.blocks.size
  right_eq : r = a.blocks.size + 1
  nodup_left : L.Nodup
  nodup_right : R.Nodup
  mem_left : ∀ v, v ∈ L ↔
    a.problem.edges.Linked (a.problem.active \ {c}) (a.problem.edges.left c) v
  mem_right : ∀ v, v ∈ R ↔
    a.problem.edges.Linked (a.problem.active \ {c}) (a.problem.edges.right c) v
  given_eq : a'.problem.given = a.problem.given
  constraintAt_eq : ∀ d, a'.problem.constraintAt d =
    if d = c then { a.problem.constraintAt d with active := false } else a.problem.constraintAt d
  variableAt_eq : ∀ v, a'.problem.variableAt v = { a.problem.variableAt v with
    block := if v ∈ R then r else if v ∈ L then l else a.blockOf v }
  block?_eq : ∀ i, a'.block? i = if i = l then some (Block.place a.problem L B.position)
    else if i = r then some (Block.place a.problem R B.position)
    else if i = a.leftBlock c then none else a.block? i
  size_blocks : a'.blocks.size = a.blocks.size + 2
  live_eq : a'.live = a.live ++ [l, r]
  journal_eq : a'.journal =
    a.journal.push (.event (.split c (a.problem.constraintAt c).multiplier l r))

theorem active_deactivate (hc : c ∈ a.problem.active) :
    (a.problem.modifyConstraint c fun k => { k with active := false }).active =
      a.problem.active \ {c} := by
  ext d
  rw [Problem.mem_active,
    Problem.constraintAt_modifyConstraint _ (Problem.lt_size_of_mem_active hc)]
  by_cases hd : d = c
  · simp [hd]
  · simp [hd, Problem.mem_active]

theorem Detached.lookup_block (h : Detached a a' start position M) (i : BlockId) :
    a'.block? i = if i = a.blocks.size then some (Block.place a.problem M position)
      else a.block? i := by
  simp only [block?, h.blocks_eq, Array.getD_eq_getD_getElem?, Array.getElem?_push]
  split_ifs <;> rfl

theorem Detached.size_blocks (h : Detached a a' start position M) :
    a'.blocks.size = a.blocks.size + 1 := by
  rw [h.blocks_eq, Array.size_push]

theorem Detached.halved (hc : c ∈ a.problem.active) (hB : a.block? (a.leftBlock c) = some B)
    (hL : Detached { a with
      problem := a.problem.modifyConstraint c fun k => { k with active := false } } a₁
      (a.problem.edges.left c) B.position L)
    (hR : Detached a₁ a₂ (a.problem.edges.right c) B.position R) :
    Halved a ({ a₂ with blocks := a₂.blocks.setIfInBounds (a.leftBlock c) none }.record
      (.split c (a.problem.constraintAt c).multiplier a.blocks.size a₁.blocks.size)) c
      a.blocks.size a₁.blocks.size B L R := by
  have hgiven₀ : (a.problem.modifyConstraint c fun k => { k with active := false }).given =
      a.problem.given := Problem.given_modifyConstraint fun _ => rfl
  have hgiven₁ := hL.given_eq.trans hgiven₀
  have hold := block?_eq_some_lt hB
  constructor
  case old => exact hB
  case left_eq => rfl
  case right_eq => exact hL.size_blocks
  case nodup_left => exact hL.nodup
  case nodup_right => exact hR.nodup
  case mem_left =>
    intro v
    rw [hL.mem_iff, active_deactivate hc, Problem.edges_eq hgiven₀]
  case mem_right =>
    intro v
    rw [hR.mem_iff, hL.active_eq, active_deactivate hc, Problem.edges_eq hgiven₁]
  case given_eq => exact hR.given_eq.trans hgiven₁
  case constraintAt_eq =>
    intro d
    have hk := hR.constraints_eq.trans hL.constraints_eq
    refine (congrArg (fun ks : Array (Constraint α) => ks.getD d default) hk).trans ?_
    exact Problem.constraintAt_modifyConstraint _ (Problem.lt_size_of_mem_active hc)
  case variableAt_eq =>
    intro v
    refine (hR.variableAt_eq v).trans ?_
    rw [hL.variableAt_eq]
    split_ifs <;> rfl
  case block?_eq =>
    intro i
    have hlookup : Arrangement.block? { a₂ with
        blocks := a₂.blocks.setIfInBounds (a.leftBlock c) none } i =
        if i = a.leftBlock c then none else a₂.block? i := by
      by_cases hi : i = a.leftBlock c
      · have : a.leftBlock c < a₂.blocks.size := by
          rw [hR.size_blocks, hL.size_blocks]
          exact Nat.lt_succ_of_lt (Nat.lt_succ_of_lt hold)
        simp [block?, hi, this]
      · simp only [block?, if_neg hi]
        exact Slots.getD_set_of_ne _ _ (Ne.symm hi)
    refine hlookup.trans ?_
    rw [hR.lookup_block, hL.lookup_block, Block.place_congr hgiven₁, Block.place_congr hgiven₀]
    have hsize := hL.size_blocks
    have hold' : a.leftBlock c ≠ a.blocks.size := Nat.ne_of_lt hold
    -- Three slots have changed: that of the block, now empty, and the two added for its halves.
    by_cases h0 : i = a.leftBlock c
    · subst h0
      have : a.leftBlock c ≠ a₁.blocks.size := by
        rw [hsize]
        exact Nat.ne_of_lt (Nat.lt_succ_of_lt hold)
      simp [hold', this]
    · by_cases h1 : i = a.blocks.size
      · subst h1
        have : a.blocks.size ≠ a₁.blocks.size := by
          rw [hsize]
          exact Nat.ne_of_lt (Nat.lt_succ_self _)
        simp [Ne.symm hold', this]
      · simp only [h0, h1, if_false]
        rfl
  case size_blocks =>
    rw [record, Array.size_setIfInBounds, hR.size_blocks, hL.size_blocks]
  case live_eq =>
    refine hR.live_eq.trans ?_
    rw [hL.live_eq, List.append_assoc]
    rfl
  case journal_eq =>
    rw [record, hR.journal_eq, hL.journal_eq]

theorem journal_split (h : a.split c = .ok (a', l, r)) : a'.journal =
    a.journal.push (.event (.split c (a.problem.constraintAt c).multiplier l r)) := by
  simp only [split] at h
  split at h
  · cases h
  · split at h
    · cases h
    · cases h
      rfl

theorem exists_split (ha : a.Intact) (hc : c ∈ a.problem.active) :
    ∃ a' l r B L R, a.split c = .ok (a', l, r) ∧ Halved a a' c l r B L R := by
  have hleft := ha.left_lt hc
  have hright := ha.right_lt hc
  obtain ⟨B, hB⟩ := ha.exists_block hleft
  let a₀ : Arrangement α := { a with
    problem := a.problem.modifyConstraint c fun k => { k with active := false } }
  have hgiven₀ : a₀.problem.given = a.problem.given :=
    Problem.given_modifyConstraint fun _ => rfl
  have ht₀ : ∀ d ∈ a₀.problem.active,
      a₀.blockOf (a₀.problem.edges.left d) = a₀.blockOf (a₀.problem.edges.right d) := by
    intro d hd
    rw [active_deactivate hc] at hd
    rw [Problem.edges_eq hgiven₀]
    exact ha.together d hd.1
  obtain ⟨a₁, L, hd₁, hL⟩ := exists_detach (ha.consistent.of_given hgiven₀) ht₀ hleft
    (rfl : a₀.blockOf _ = a.leftBlock c) B.position
  have hgiven₁ := hL.given_eq.trans hgiven₀
  -- The right end is not in the left part, as the block is a tree.
  have hnot : a.problem.edges.right c ∉ L := by
    rw [hL.mem_iff, active_deactivate hc, Problem.edges_eq hgiven₀]
    exact ha.forest c hc
  have hright₁ : a₁.blockOf (a.problem.edges.right c) = a.leftBlock c := by
    rw [hL.blockOf_eq, if_neg hnot]
    exact (ha.together c hc).symm
  obtain ⟨a₂, R, hd₂, hR⟩ := exists_detach (ha.consistent.of_given hgiven₁) (hL.together ht₀)
    ((Problem.size_vars_eq hgiven₁).symm ▸ hright) hright₁ B.position
  refine ⟨_, _, _, B, L, R, ?_, Detached.halved hc hB hL hR⟩
  have hend : a.rightBlock c = a.leftBlock c := (ha.together c hc).symm
  have hd₁' : a₀.detach (a.leftBlock c) (a.problem.constraintAt c).left B.position =
      (a₁, a.blocks.size) := hd₁
  have hd₂' : a₁.detach (a.leftBlock c) (a.problem.constraintAt c).right B.position =
      (a₂, a₁.blocks.size) := hd₂
  have hB' : a.block? (a.leftBlock c) = some B := hB
  simp only [split, hend, ne_eq, not_true_eq_false, if_false, hB']
  rw [hd₁', hd₂']

namespace Halved

section

variable (h : Halved a a' c l r B L R)
include h

theorem left_ne_right : l ≠ r := by
  rw [h.left_eq, h.right_eq]
  exact Nat.ne_of_lt (Nat.lt_succ_self _)

theorem edges_eq : a'.problem.edges = a.problem.edges :=
  Problem.edges_eq h.given_eq

theorem active_eq : a'.problem.active = a.problem.active \ {c} := by
  ext d
  rw [Problem.mem_active, h.constraintAt_eq]
  by_cases hd : d = c
  · simp [hd]
  · simp [hd, Problem.mem_active]

theorem offset_eq : (a'.problem.variableAt v).offset = (a.problem.variableAt v).offset := by
  rw [h.variableAt_eq]

theorem block?_left : a'.block? l = some (Block.place a.problem L B.position) := by
  rw [h.block?_eq, if_pos rfl]

theorem block?_right : a'.block? r = some (Block.place a.problem R B.position) := by
  rw [h.block?_eq, if_neg h.left_ne_right.symm, if_pos rfl]

end

variable (h : Halved a a' c l r B L R) (ha : a.Intact) (hc : c ∈ a.problem.active)

include h ha hc in
theorem disjoint (hL : v ∈ L) : v ∉ R := by
  intro hR
  exact ha.forest c hc (((h.mem_left v).mp hL).trans ((h.mem_right v).mp hR).symm)

include h ha hc in
theorem blockOf_eq : a'.blockOf v = if v ∈ L then l else if v ∈ R then r else a.blockOf v := by
  rw [blockOf, Problem.blockOf, h.variableAt_eq]
  by_cases hL : v ∈ L
  · simp [hL, h.disjoint ha hc hL]
  · simp [hL]

include h ha hc in
theorem mem_iff_blockOf (hv : v < a.problem.vars.size) :
    v ∈ L ∨ v ∈ R ↔ a.blockOf v = a.leftBlock c := by
  have hsub : a.problem.active \ {c} ⊆ a.problem.active := Set.sdiff_subset
  rw [h.mem_left, h.mem_right]
  constructor
  · rintro (hl | hr)
    · exact (ha.blockOf_eq_of_linked (hl.mono hsub)).symm
    · exact (ha.blockOf_eq_of_linked (hr.mono hsub)).symm.trans (ha.together c hc).symm
  · intro hb
    exact (ha.linked _ (ha.left_lt hc) v hv hb.symm).of_left hc

include h ha hc in
theorem lt_of_mem (hv : v ∈ L ∨ v ∈ R) : v < a.problem.vars.size := by
  have hsub : a.problem.active \ {c} ⊆ a.problem.active := Set.sdiff_subset
  rcases hv with hv | hv
  · exact ha.consistent.lt_of_linked hsub (ha.left_lt hc) ((h.mem_left v).mp hv)
  · exact ha.consistent.lt_of_linked hsub (ha.right_lt hc) ((h.mem_right v).mp hv)

include h ha hc in
theorem blockOf_of_ne (hv : v < a.problem.vars.size) (hb : a.blockOf v ≠ a.leftBlock c) :
    a'.blockOf v = a.blockOf v := by
  have := (h.mem_iff_blockOf ha hc hv).not.mpr hb
  rw [h.blockOf_eq ha hc, if_neg (not_or.mp this).1, if_neg (not_or.mp this).2]

include h ha hc in
theorem blockOf_left (hv : v ∈ L) : a'.blockOf v = l := by
  rw [h.blockOf_eq ha hc, if_pos hv]

include h ha hc in
theorem blockOf_right (hv : v ∈ R) : a'.blockOf v = r := by
  rw [h.blockOf_eq ha hc, if_neg fun hL => h.disjoint ha hc hL hv, if_pos hv]

include h ha hc in
theorem blockOf_cases (hv : v < a.problem.vars.size) :
    (v ∈ L ∧ a'.blockOf v = l) ∨ (v ∈ R ∧ a'.blockOf v = r) ∨
      (a'.blockOf v = a.blockOf v ∧ a.blockOf v ≠ a.leftBlock c ∧ a.blockOf v < a.blocks.size) := by
  by_cases hb : a.blockOf v = a.leftBlock c
  · rcases (h.mem_iff_blockOf ha hc hv).mpr hb with hL | hR
    · exact .inl ⟨hL, h.blockOf_left ha hc hL⟩
    · exact .inr (.inl ⟨hR, h.blockOf_right ha hc hR⟩)
  · exact .inr (.inr ⟨h.blockOf_of_ne ha hc hv hb, hb, ha.blockOf_lt hv⟩)

include h ha hc in
theorem blockOf_eq_left_iff (hv : v < a.problem.vars.size) : a'.blockOf v = l ↔ v ∈ L := by
  refine ⟨fun hb => ?_, h.blockOf_left ha hc⟩
  rcases h.blockOf_cases ha hc hv with ⟨hL, -⟩ | ⟨-, hr⟩ | ⟨ho, -, hlt⟩
  · exact hL
  · exact absurd (hb.symm.trans hr) h.left_ne_right
  · exact absurd (hb.symm.trans ho) (h.left_eq ▸ (Nat.ne_of_lt hlt).symm)

include h ha hc in
theorem blockOf_eq_right_iff (hv : v < a.problem.vars.size) : a'.blockOf v = r ↔ v ∈ R := by
  refine ⟨fun hb => ?_, h.blockOf_right ha hc⟩
  rcases h.blockOf_cases ha hc hv with ⟨-, hl⟩ | ⟨hR, -⟩ | ⟨ho, -, hlt⟩
  · exact absurd (hl.symm.trans hb) h.left_ne_right
  · exact hR
  · refine absurd (hb.symm.trans ho) ?_
    rw [h.right_eq]
    exact (Nat.ne_of_lt (Nat.lt_succ_of_lt hlt)).symm

include h ha hc in
theorem blockOf_eq_other_iff (hv : v < a.problem.vars.size) (hi : i < a.blocks.size)
    (hio : i ≠ a.leftBlock c) : a'.blockOf v = i ↔ a.blockOf v = i := by
  rcases h.blockOf_cases ha hc hv with ⟨hL, hl⟩ | ⟨hR, hr⟩ | ⟨ho, -⟩
  · rw [hl, (h.mem_iff_blockOf ha hc hv).mp (.inl hL)]
    exact iff_of_false (h.left_eq ▸ (Nat.ne_of_lt hi).symm) (Ne.symm hio)
  · rw [hr, (h.mem_iff_blockOf ha hc hv).mp (.inr hR), h.right_eq]
    exact iff_of_false (Nat.ne_of_lt (Nat.lt_succ_of_lt hi)).symm (Ne.symm hio)
  · rw [ho]

include h in
theorem ends_mem : a.problem.edges.left c ∈ L ∧ a.problem.edges.right c ∈ R :=
  ⟨(h.mem_left _).mpr .refl, (h.mem_right _).mpr .refl⟩

include h in
theorem block?_cases {B' : Block α} (hB' : a'.block? i = some B') :
    (i = l ∧ B' = Block.place a.problem L B.position) ∨
      (i = r ∧ B' = Block.place a.problem R B.position) ∨
      (i ≠ a.leftBlock c ∧ a.block? i = some B') := by
  rw [h.block?_eq] at hB'
  split_ifs at hB' with hl hr ho
  · exact .inl ⟨hl, (Option.some.inj hB').symm⟩
  · exact .inr (.inl ⟨hr, (Option.some.inj hB').symm⟩)
  · exact .inr (.inr ⟨ho, hB'⟩)

include h ha hc in
theorem position_eq (hv : v < a.problem.vars.size) : a'.position v = a.position v := by
  have hplace : (a'.blockAt (a'.blockOf v)).position = (a.blockAt (a.blockOf v)).position := by
    rcases h.blockOf_cases ha hc hv with ⟨hL, hl⟩ | ⟨hR, hr⟩ | ⟨ho, hne, hlt⟩
    · rw [hl, blockAt_eq h.block?_left, (h.mem_iff_blockOf ha hc hv).mp (.inl hL), blockAt_eq h.old]
      rfl
    · rw [hr, blockAt_eq h.block?_right, (h.mem_iff_blockOf ha hc hv).mp (.inr hR), blockAt_eq h.old]
      rfl
    · have hl : a.blockOf v ≠ l := h.left_eq ▸ Nat.ne_of_lt hlt
      have hr : a.blockOf v ≠ r := by
        rw [h.right_eq]
        exact Nat.ne_of_lt (Nat.lt_succ_of_lt hlt)
      rw [ho, blockAt, h.block?_eq, if_neg hl, if_neg hr, if_neg hne, ← blockAt]
  rw [Arrangement.position, hplace, h.offset_eq]
  rfl

include h ha hc in
theorem members_perm : B.members.Perm (L ++ R) := by
  refine (List.perm_ext_iff_of_nodup (ha.nodup _ B h.old) ?_).mpr fun v => ?_
  · exact List.nodup_append.mpr ⟨h.nodup_left, h.nodup_right,
      fun u hu w hw he => h.disjoint ha hc hu (he ▸ hw)⟩
  · rw [List.mem_append, ha.mem_iff _ B h.old]
    constructor
    · exact fun ⟨hv, hvb⟩ => (h.mem_iff_blockOf ha hc hv).mpr hvb
    · exact fun hv => ⟨h.lt_of_mem ha hc hv, (h.mem_iff_blockOf ha hc (h.lt_of_mem ha hc hv)).mp hv⟩

include h ha hc in
theorem linked_of_blockOf_eq {u : VarId} (hu : u < a.problem.vars.size)
    (hv : v < a.problem.vars.size) (huv : a'.blockOf u = a'.blockOf v) :
    a.problem.edges.Linked (a.problem.active \ {c}) u v := by
  rcases h.blockOf_cases ha hc hu with ⟨hL, hl⟩ | ⟨hR, hr⟩ | ⟨ho, hne, hlt⟩
  · have hL' := (h.blockOf_eq_left_iff ha hc hv).mp (huv.symm.trans hl)
    exact ((h.mem_left u).mp hL).symm.trans ((h.mem_left v).mp hL')
  · have hR' := (h.blockOf_eq_right_iff ha hc hv).mp (huv.symm.trans hr)
    exact ((h.mem_right u).mp hR).symm.trans ((h.mem_right v).mp hR')
  · have hv' := (h.blockOf_eq_other_iff ha hc hv hlt hne).mp (huv.symm.trans ho)
    -- Elsewhere no link ever passed through the block of `c`.
    rcases (ha.linked u hu v hv hv'.symm).cut hc with hl | ⟨hl, -⟩ | ⟨hl, -⟩
    · exact hl
    · exact absurd (ha.blockOf_eq_of_linked (hl.mono Set.sdiff_subset)) hne
    · refine absurd (ha.blockOf_eq_of_linked (hl.mono Set.sdiff_subset)) ?_
      rw [← ha.together c hc]
      exact hne

include h ha hc in
theorem ends_together {d : ConId} (hd : d ∈ a'.problem.active) :
    a'.blockOf (a'.problem.edges.left d) = a'.blockOf (a'.problem.edges.right d) := by
  rw [h.active_eq] at hd
  rw [h.edges_eq]
  have hedge : a.problem.edges.Linked (a.problem.active \ {c}) (a.problem.edges.left d)
      (a.problem.edges.right d) := .edge hd
  have hL : a.problem.edges.left d ∈ L ↔ a.problem.edges.right d ∈ L := by
    rw [h.mem_left, h.mem_left]
    exact ⟨fun hl => hl.trans hedge, fun hr => hr.trans hedge.symm⟩
  have hR : a.problem.edges.left d ∈ R ↔ a.problem.edges.right d ∈ R := by
    rw [h.mem_right, h.mem_right]
    exact ⟨fun hl => hl.trans hedge, fun hr => hr.trans hedge.symm⟩
  rw [h.blockOf_eq ha hc, h.blockOf_eq ha hc]
  simp only [hL, hR, ha.together d hd.1]

include h ha hc in
theorem covers_of_crosses {side : Side} {cs : List ConId} (hi : i < a.blocks.size)
    (ho : i ≠ a.leftBlock c) (hcs : a.Covers side i cs) : a'.Covers side i cs := by
  have hm := Problem.size_constraints_eq h.given_eq
  constructor
  · intro d hd
    obtain ⟨hlt, hnear⟩ := hcs.near d hd
    rw [hm, h.edges_eq]
    have hnlt := ha.consistent.endOn_lt hlt side.other
    exact ⟨hlt, (h.blockOf_eq_other_iff ha hc hnlt hi ho).mpr hnear⟩
  · intro d hd
    have hlt := hm ▸ hd.lt_size
    have hnear := hd.near
    have hfar := hd.far
    rw [h.edges_eq] at hnear hfar
    have hnlt := ha.consistent.endOn_lt hlt side.other
    have hflt := ha.consistent.endOn_lt hlt side
    exact hcs.all d ⟨hlt, (h.blockOf_eq_other_iff ha hc hnlt hi ho).mp hnear,
      (h.blockOf_eq_other_iff ha hc hflt hi ho).not.mp hfar⟩

include h ha hc in
theorem intact : a'.Intact := by
  have hn := Problem.size_vars_eq h.given_eq
  have hends := h.ends_mem
  constructor
  case consistent => exact ha.consistent.of_given h.given_eq
  case nodup =>
    intro i B' hB'
    rcases h.block?_cases hB' with ⟨-, rfl⟩ | ⟨-, rfl⟩ | ⟨-, hB⟩
    · exact h.nodup_left
    · exact h.nodup_right
    · exact ha.nodup i B' hB
  case mem_iff =>
    intro i B' hB' v
    rw [hn]
    rcases h.block?_cases hB' with ⟨rfl, rfl⟩ | ⟨rfl, rfl⟩ | ⟨ho, hB⟩
    · refine ⟨fun hv => ?_, fun hv => (h.blockOf_eq_left_iff ha hc hv.1).mp hv.2⟩
      exact ⟨h.lt_of_mem ha hc (.inl hv), h.blockOf_left ha hc hv⟩
    · refine ⟨fun hv => ?_, fun hv => (h.blockOf_eq_right_iff ha hc hv.1).mp hv.2⟩
      exact ⟨h.lt_of_mem ha hc (.inr hv), h.blockOf_right ha hc hv⟩
    · rw [ha.mem_iff i B' hB]
      exact and_congr_right fun hv =>
        (h.blockOf_eq_other_iff ha hc hv (block?_eq_some_lt hB) ho).symm
  case standing =>
    intro v hv
    rw [hn] at hv
    rcases h.blockOf_cases ha hc hv with ⟨-, hl⟩ | ⟨-, hr⟩ | ⟨ho, hne, -⟩
    · rw [hl, h.block?_left]
      rfl
    · rw [hr, h.block?_right]
      rfl
    · rw [ho, h.block?_eq]
      split_ifs
      · rfl
      · rfl
      · exact ha.standing v hv
  case nonempty =>
    intro i B' hB'
    rcases h.block?_cases hB' with ⟨-, rfl⟩ | ⟨-, rfl⟩ | ⟨-, hB⟩
    · exact List.ne_nil_of_mem hends.1
    · exact List.ne_nil_of_mem hends.2
    · exact ha.nonempty i B' hB
  case live =>
    intro i B' hB'
    rw [h.live_eq]
    rcases h.block?_cases hB' with ⟨rfl, -⟩ | ⟨rfl, -⟩ | ⟨-, hB⟩
    · simp
    · simp
    · exact List.mem_append_left _ (ha.live i B' hB)
  case live_nodup =>
    rw [h.live_eq, h.left_eq, h.right_eq]
    apply List.nodup_append.mpr
    refine ⟨ha.live_nodup, by simp, ?_⟩
    intro i hi j hj hij
    have hlt := ha.live_lt i hi
    simp only [List.mem_cons, List.not_mem_nil, or_false] at hj
    rcases hj with rfl | rfl
    · exact Nat.ne_of_lt hlt hij
    · exact Nat.ne_of_lt (Nat.lt_succ_of_lt hlt) hij
  case live_lt =>
    intro i hi
    rw [h.live_eq, h.left_eq, h.right_eq] at hi
    rw [h.size_blocks]
    rcases List.mem_append.mp hi with hi | hi
    · exact Nat.lt_add_right 2 (ha.live_lt i hi)
    · simp only [List.mem_cons, List.not_mem_nil, or_false] at hi
      rcases hi with rfl | rfl
      · exact Nat.lt_add_of_pos_right Nat.two_pos
      · exact Nat.lt_succ_self _
  case together => exact fun d hd => h.ends_together ha hc hd
  case linked =>
    intro u hu v hv huv
    rw [h.edges_eq, h.active_eq]
    exact h.linked_of_blockOf_eq ha hc (hn ▸ hu) (hn ▸ hv) huv
  case forest =>
    rw [h.edges_eq, h.active_eq]
    exact ha.forest.mono Set.sdiff_subset
  case covers =>
    intro i B' hB' side cs hcs
    rcases h.block?_cases hB' with ⟨-, rfl⟩ | ⟨-, rfl⟩ | ⟨ho, hB⟩
    · cases side <;> cases hcs
    · cases side <;> cases hcs
    · exact h.covers_of_crosses ha hc (block?_eq_some_lt hB) ho (ha.covers i B' hB side cs hcs)

end Halved

end Arrangement

end Spacing
