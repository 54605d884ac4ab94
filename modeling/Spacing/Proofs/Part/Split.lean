import Spacing.Proofs.Arrangement.Rebalance
import Spacing.Proofs.Part.Merge
import Spacing.Proofs.Part.Tree

namespace Spacing.Arrangement

variable {α : Type} [Scalar α] {e : Renaming} {a a' b b' : Arrangement α} {q : Problem α}
  {c : ConId} {l r i : BlockId} {B : Block α} {L R : List VarId} {v w : VarId}

def released (a : Arrangement α) (c : ConId) : Problem α :=
  a.problem.modifyConstraint c fun k => { k with active := false }

def leftHalf (a : Arrangement α) (c : ConId) : List VarId :=
  a.problem.edges.left c ::
    childrenOf ((a.released c).tree (a.leftBlock c) (a.problem.edges.left c))

def leftReleased (a : Arrangement α) (c : ConId) : Problem α :=
  (a.leftHalf c).foldl (fun p v => p.modifyVariable v fun x => { x with block := a.blocks.size })
    (a.released c)

def rightHalf (a : Arrangement α) (c : ConId) : List VarId :=
  a.problem.edges.right c ::
    childrenOf ((a.leftReleased c).tree (a.leftBlock c) (a.problem.edges.right c))

theorem members_of_split (h : a.split c = .ok (a', l, r)) :
    (a'.blockAt a.blocks.size).members = a.leftHalf c ∧
      (a'.blockAt (a.blocks.size + 1)).members = a.rightHalf c := by
  simp only [split] at h
  split at h
  · cases h
  · split at h
    · cases h
    · rename_i B hB
      have hlt := block?_eq_some_lt hB
      have hslots (x y : Block α) :
          let slots := ((a.blocks.push (some x)).push (some y)).setIfInBounds (a.leftBlock c) none
          slots.getD a.blocks.size none = some x ∧ slots.getD (a.blocks.size + 1) none = some y := by
        intro slots
        rw [Array.getD_eq_getD_getElem?, Array.getD_eq_getD_getElem?,
          Array.getElem?_setIfInBounds_ne (Nat.ne_of_lt hlt),
          Array.getElem?_setIfInBounds_ne (Nat.ne_of_lt (Nat.lt_succ_of_lt hlt)), Array.getElem?_push,
          Array.getElem?_push, Array.getElem?_push, Array.size_push]
        simp
      cases h
      constructor
      · exact congrArg (fun o : Option (Block α) => (o.getD default).members) (hslots _ _).1
      · exact congrArg (fun o : Option (Block α) => (o.getD default).members) (hslots _ _).2

theorem exists_halves (ha : a.Intact) (hc : c ∈ a.problem.active) :
    ∃ a' B, a.split c = .ok (a', a.blocks.size, a.blocks.size + 1) ∧
      Halved a a' c a.blocks.size (a.blocks.size + 1) B (a.leftHalf c) (a.rightHalf c) := by
  obtain ⟨a', l, r, B, L, R, hs, hh⟩ := exists_split ha hc
  obtain ⟨hl, hr⟩ := members_of_split hs
  obtain rfl := hh.left_eq
  obtain rfl := hh.right_eq
  rw [blockAt_eq hh.block?_left] at hl
  rw [blockAt_eq hh.block?_right] at hr
  obtain rfl : L = a.leftHalf c := hl
  obtain rfl : R = a.rightHalf c := hr
  exact ⟨a', B, hs, hh⟩

theorem given_released (a : Arrangement α) (c : ConId) : (a.released c).given = a.problem.given :=
  Problem.given_modifyConstraint fun _ => rfl

theorem given_leftReleased (a : Arrangement α) (c : ConId) :
    (a.leftReleased c).given = a.problem.given := by
  have hf (x : Variable α) : ({ x with block := a.blocks.size } : Variable α).given = x.given := rfl
  exact (Problem.given_modifyAll hf _).trans (a.given_released c)

theorem active_leftReleased (hc : c ∈ a.problem.active) :
    (a.leftReleased c).active = a.problem.active \ {c} := by
  rw [← active_deactivate hc]
  ext d
  rw [Problem.mem_active, Problem.constraintAt, leftReleased, Problem.constraints_modifyAll]
  rfl

theorem blockOf_leftReleased_iff (ha : a.Intact) (hc : c ∈ a.problem.active) :
    (a.leftReleased c).blockOf w = a.leftBlock c ↔ a.blockOf w = a.leftBlock c ∧ w ∉ a.leftHalf c := by
  obtain ⟨a', B, -, hh⟩ := exists_halves ha hc
  have hlt (v : VarId) (hv : v ∈ a.leftHalf c) : v < (a.released c).vars.size :=
    hh.lt_of_mem ha hc (.inl hv)
  have hold := block?_eq_some_lt hh.old
  rw [Problem.blockOf, leftReleased, Problem.variableAt_modifyAll _ hh.nodup_left hlt]
  split
  · rename_i hw
    exact iff_of_false (Nat.ne_of_lt hold).symm fun h => h.2 hw
  · rename_i hw
    exact (and_iff_left hw).symm

namespace Mirrors

variable (h : Mirrors e q a b)
include h

theorem leftHalf_eq (hc : c < q.constraints.size) (hact : c ∈ b.problem.active) :
    a.leftHalf (e.con c) = (b.leftHalf c).map e.var := by
  have hact' := (h.active_iff c hc).mpr hact
  have htree : (a.released (e.con c)).tree (a.leftBlock (e.con c)) (e.var (b.problem.edges.left c)) =
      ((b.released c).tree (b.leftBlock c) (b.problem.edges.left c)).map e.branch := by
    apply (h.part'.given (given_released a _) (given_released b c)).tree_eq
    · intro d hd
      have hd : d < q.constraints.size := by
        rwa [Problem.size_constraints_eq (given_released b c),
          Problem.size_constraints_eq h.given_eq] at hd
      rw [released, released, active_deactivate hact, active_deactivate hact']
      simp [h.active_iff d hd, Renaming.con_inj]
    · exact h.intact'.consistent.of_given (given_released b c)
    · exact h.var_lt' (h.left_lt hc)
    · intro w
      rw [h.leftBlock_eq hc]
      have hb := h.blockOf_eq_iff (w := w) (h.left_lt hc)
      rw [← Problem.size_vars_eq h.given_eq] at hb
      exact hb
  rw [leftHalf, leftHalf, h.left_eq hc, htree, Renaming.childrenOf_branch, List.map_cons]

theorem rightHalf_eq (hc : c < q.constraints.size) (hact : c ∈ b.problem.active) :
    a.rightHalf (e.con c) = (b.rightHalf c).map e.var := by
  have hact' := (h.active_iff c hc).mpr hact
  have hgiven := given_leftReleased b c
  have htree : (a.leftReleased (e.con c)).tree (a.leftBlock (e.con c))
      (e.var (b.problem.edges.right c)) =
        ((b.leftReleased c).tree (b.leftBlock c) (b.problem.edges.right c)).map e.branch := by
    apply (h.part'.given (given_leftReleased a _) hgiven).tree_eq
    · intro d hd
      have hd : d < q.constraints.size := by
        rwa [Problem.size_constraints_eq hgiven, Problem.size_constraints_eq h.given_eq] at hd
      rw [active_leftReleased hact, active_leftReleased hact']
      simp [h.active_iff d hd, Renaming.con_inj]
    · exact h.intact'.consistent.of_given hgiven
    · rw [Problem.size_vars_eq hgiven]
      exact h.var_lt' (h.right_lt hc)
    · intro w
      have hb := h.blockOf_eq_iff (w := w) (h.left_lt hc)
      rw [← h.leftBlock_eq hc] at hb
      rw [Problem.size_vars_eq (given_leftReleased a _), Problem.size_vars_eq hgiven,
        Problem.size_vars_eq h.given_eq, blockOf_leftReleased_iff h.intact hact', ← and_assoc, hb,
        h.leftHalf_eq hc hact]
      constructor
      · rintro ⟨⟨v, hv, hblock, rfl⟩, hnot⟩
        rw [List.mem_map_of_injective e.var_mono.injective] at hnot
        exact ⟨v, hv, (blockOf_leftReleased_iff h.intact' hact).mpr ⟨hblock, hnot⟩, rfl⟩
      · rintro ⟨v, hv, hblock, rfl⟩
        rw [blockOf_leftReleased_iff h.intact' hact] at hblock
        rw [List.mem_map_of_injective e.var_mono.injective]
        exact ⟨⟨v, hv, hblock.1, rfl⟩, hblock.2⟩
  rw [rightHalf, rightHalf, h.right_eq hc, htree, Renaming.childrenOf_branch, List.map_cons]

end Mirrors

namespace Halved

variable (h : Halved a a' c l r B L R) (ha : a.Intact)
include h ha

theorem home_eq (hc : c ∈ a.problem.active) (hv : v < a.problem.vars.size) : a'.home v =
    if v ∈ L then Block.place a.problem L B.position
    else if v ∈ R then Block.place a.problem R B.position else a.home v := by
  split_ifs with hL hR
  · exact Arrangement.home_eq (h.blockOf_left ha hc hL) h.block?_left
  · exact Arrangement.home_eq (h.blockOf_right ha hc hR) h.block?_right
  · have hne : a.blockOf v ≠ a.leftBlock c := (h.mem_iff_blockOf ha hc hv).not.mp (not_or.mpr ⟨hL, hR⟩)
    have hlt := ha.blockOf_lt hv
    have hl : a.blockOf v ≠ l := h.left_eq ▸ Nat.ne_of_lt hlt
    have hr : a.blockOf v ≠ r := h.right_eq ▸ Nat.ne_of_lt (Nat.lt_succ_of_lt hlt)
    rw [home, home, h.blockOf_of_ne ha hc hv hne, blockAt, h.block?_eq, if_neg hl, if_neg hr,
      if_neg hne, blockAt]

theorem roots_eq : a'.roots = (a.roots.filter fun w => a.blockOf w ≠ a.leftBlock c) ++
    (L.head?.toList ++ R.head?.toList) := by
  have hold (i : BlockId) (hi : i ∈ a.live) : i ≠ l ∧ i ≠ r := by
    have hlt := ha.live_lt i hi
    exact ⟨h.left_eq ▸ Nat.ne_of_lt hlt, h.right_eq ▸ Nat.ne_of_lt (Nat.lt_succ_of_lt hlt)⟩
  have hids : a'.blockIds = (a.blockIds.filter fun i => i ≠ a.leftBlock c) ++ [l, r] := by
    rw [blockIds, h.live_eq, List.filter_append, blockIds, List.filter_filter]
    apply congrArg₂ List.append
    · apply List.filter_congr
      intro i hi
      rw [h.block?_eq, if_neg (hold i hi).1, if_neg (hold i hi).2]
      by_cases ho : i = a.leftBlock c
      · simp [ho]
      · simp [ho]
    · rw [List.filter_eq_self]
      simp [h.block?_left, h.block?_right]
  rw [roots, hids, List.filterMap_append]
  apply congrArg₂ List.append
  · apply filterMap_roots ha
    intro i hi ho
    have hlive := hold i (List.mem_filter.mp hi).1
    rw [blockAt, h.block?_eq, if_neg hlive.1, if_neg hlive.2, if_neg (of_decide_eq_true ho), blockAt]
  · obtain ⟨hl, hr⟩ := h.ends_mem
    obtain ⟨u, us, rfl⟩ := List.exists_cons_of_ne_nil (List.ne_nil_of_mem hl)
    obtain ⟨w, ws, rfl⟩ := List.exists_cons_of_ne_nil (List.ne_nil_of_mem hr)
    simp [blockAt_eq h.block?_left, blockAt_eq h.block?_right, Block.place]

end Halved

theorem place_renamed {p q : Problem α} {members : List VarId} (x : α)
    (hw : ∀ v ∈ members, (p.variableAt (e.var v)).weight = (q.variableAt v).weight) :
    Block.place p (members.map e.var) x = (Block.place q members x).renamed e.var := by
  have hweigh : Block.weigh p (members.map e.var) = Block.weigh q members := by
    rw [Block.weigh, Block.weigh, List.foldl_map]
    apply List.foldl_ext
    intro y v hv
    rw [hw v hv]
  simp only [Block.place, Block.renamed, hweigh]

namespace Mirrors

variable (h : Mirrors e q a b)
include h

theorem halved {A : Block α} {l' r' : BlockId} (hc : c < q.constraints.size)
    (hact : c ∈ b.problem.active) (hh : Halved a a' (e.con c) l r A (L.map e.var) (R.map e.var))
    (hh' : Halved b b' c l' r' B L R) : Mirrors e q a' b' := by
  have hact' := (h.active_iff c hc).mpr hact
  have hposition : A.position = B.position := by
    have hhome := h.home_eq _ (h.left_lt hc)
    rw [Arrangement.home_eq (h.leftBlock_eq hc).symm hh.old,
      Arrangement.home_eq (v := b.problem.edges.left c) rfl hh'.old] at hhome
    exact (congrArg Block.position hhome :)
  have hlt (v : VarId) (hv : v ∈ L ∨ v ∈ R) : v < b.problem.vars.size :=
    hh'.lt_of_mem h.intact' hact hv
  have hmem (v : VarId) (vs : List VarId) : e.var v ∈ vs.map e.var ↔ v ∈ vs :=
    List.mem_map_of_injective e.var_mono.injective
  have hplace (vs : List VarId) (hvs : ∀ v ∈ vs, v < b.problem.vars.size) :
      Block.place a.problem (vs.map e.var) A.position =
        (Block.place b.problem vs B.position).renamed e.var := by
    rw [hposition]
    exact place_renamed _ fun v hv => h.part'.weight_eq v (hvs v hv)
  have hhead (vs : List VarId) (hvs : ∀ v ∈ vs, v < b.problem.vars.size) :
      ((vs.map e.var).head?.toList).filter (fun w => decide (e.Reaches q.vars.size w)) =
        vs.head?.toList.map e.var := by
    cases vs with
    | nil => rfl
    | cons v vs =>
      have hv : v < q.vars.size := Problem.size_vars_eq h.given_eq ▸ hvs v List.mem_cons_self
      simpa [Renaming.reaches_var] using hv
  constructor
  case intact => exact hh.intact h.intact hact'
  case intact' => exact hh'.intact h.intact' hact
  case charted => exact hh.charted h.intact hact' h.charted
  case charted' => exact hh'.charted h.intact' hact h.charted'
  case part => exact h.part.given hh.given_eq rfl
  case given_eq => exact hh'.given_eq.trans h.given_eq
  case offset_eq =>
    intro v hv
    rw [hh.offset_eq, hh'.offset_eq, h.offset_eq v hv]
  case active_iff =>
    intro d hd
    rw [hh.active_eq, hh'.active_eq, Set.mem_sdiff, Set.mem_sdiff, h.active_iff d hd,
      Set.mem_singleton_iff, Set.mem_singleton_iff, Renaming.con_inj]
  case home_eq =>
    intro v hv
    rw [hh.home_eq h.intact hact' (h.var_lt hv), hh'.home_eq h.intact' hact (h.var_lt' hv),
      hplace L fun u hu => hlt u (.inl hu), hplace R fun u hu => hlt u (.inr hu), h.home_eq v hv]
    simp only [hmem]
    split_ifs <;> rfl
  case roots_eq =>
    -- The old root goes from both lists, and each half brings its first member.
    rw [hh.roots_eq h.intact, hh'.roots_eq h.intact', List.filter_append, List.filter_append,
      hhead L fun u hu => hlt u (.inl hu), hhead R fun u hu => hlt u (.inr hu), List.map_append,
      List.map_append]
    apply congrArg (· ++ _)
    apply h.filter_roots (fun i => i ≠ a.leftBlock (e.con c)) (fun i => i ≠ b.leftBlock c)
    intro v hv
    have hiff := h.blockOf_iff hv (h.left_lt hc)
    rw [← h.leftBlock_eq hc] at hiff
    simp only [ne_eq, hiff]
    rfl

theorem split (hc : c < q.constraints.size) (hact : c ∈ b.problem.active) : ∃ a' l r b' l' r',
    a.split (e.con c) = .ok (a', l, r) ∧ b.split c = .ok (b', l', r') ∧ Mirrors e q a' b' ∧
      a'.blockOf (e.var (b.problem.edges.left c)) = l ∧
      b'.blockOf (b.problem.edges.left c) = l' := by
  have hact' := (h.active_iff c hc).mpr hact
  obtain ⟨a', A, ha, hh⟩ := exists_halves h.intact hact'
  obtain ⟨b', B, hb, hh'⟩ := exists_halves h.intact' hact
  have hl := hh.blockOf_left h.intact hact' hh.ends_mem.1
  have hl' := hh'.blockOf_left h.intact' hact hh'.ends_mem.1
  rw [h.left_eq hc] at hl
  rw [h.leftHalf_eq hc hact, h.rightHalf_eq hc hact] at hh
  exact ⟨a', _, _, b', _, _, ha, hb, h.halved hc hact hh hh', hl, hl'⟩

theorem halved_apart (hc : ∀ d < q.constraints.size, e.con d ≠ c) (hact : c ∈ a.problem.active)
    (hh : Halved a a' c l r B L R) : Elsewhere e q b a' l := by
  have hlt := Problem.lt_size_of_mem_active hact
  have hne (v : VarId) (hv : v < q.vars.size) : a.blockOf (e.var v) ≠ a.leftBlock c :=
    h.blockOf_ne_end hlt hc hv .left
  have hout (v : VarId) (hv : v < q.vars.size) : e.var v ∉ L ∧ e.var v ∉ R :=
    not_or.mp ((hh.mem_iff_blockOf h.intact hact (h.var_lt hv)).not.mpr (hne v hv))
  have hnone (w : VarId) (hw : w ∈ L ∨ w ∈ R) : ¬ e.Reaches q.vars.size w := by
    rintro ⟨v, hv, rfl⟩
    exact hw.elim (hout v hv).1 (hout v hv).2
  have hhead (vs : List VarId) (hvs : ∀ w ∈ vs, ¬ e.Reaches q.vars.size w) :
      vs.head?.toList.filter (fun w => decide (e.Reaches q.vars.size w)) = [] := by
    cases vs with
    | nil => rfl
    | cons w vs => simpa using hvs w List.mem_cons_self
  constructor
  case mirrors =>
    apply h.of_eq_left (hh.intact h.intact hact) (hh.charted h.intact hact h.charted) hh.given_eq
    · exact fun v _ => hh.offset_eq
    · intro d hd
      rw [hh.active_eq, Set.mem_sdiff, Set.mem_singleton_iff]
      exact and_iff_left (hc d hd)
    · intro v hv
      rw [hh.home_eq h.intact hact (h.var_lt hv), if_neg (hout v hv).1, if_neg (hout v hv).2]
    · rw [hh.roots_eq h.intact, List.filter_append, List.filter_append,
        hhead L fun w hw => hnone w (.inl hw), hhead R fun w hw => hnone w (.inr hw), List.append_nil,
        List.append_nil]
      exact h.filter_roots_apart (fun i => i ≠ a.leftBlock c) fun v hv => decide_eq_true (hne v hv)
  case ne =>
    intro v hv
    rw [hh.blockOf_of_ne h.intact hact (h.var_lt hv) (hne v hv), hh.left_eq]
    exact Nat.ne_of_lt (h.intact.blockOf_lt (h.var_lt hv))

end Mirrors

theorem home_settle (ha : a.Intact) (hv : v < a.problem.vars.size) (i : BlockId) :
    (a.settle i).home v = if a.blockOf v = i then (a.home v).settle a.problem else a.home v := by
  obtain ⟨B, hB⟩ := ha.exists_block hv
  have hB' : (a.settle i).block? (a.blockOf v) =
      if a.blockOf v = i then some (B.settle a.problem) else some B := by
    rw [settle, block?_modifyBlock, hB]
    rfl
  rw [Arrangement.home_eq rfl hB]
  split
  · rename_i hi
    rw [if_pos hi] at hB'
    exact Arrangement.home_eq rfl hB'
  · rename_i hi
    rw [if_neg hi] at hB'
    exact Arrangement.home_eq rfl hB'

theorem roots_settle (a : Arrangement α) (i : BlockId) : (a.settle i).roots = a.roots := by
  have hblock (j : BlockId) : ((a.settle i).block? j).isSome = (a.block? j).isSome ∧
      ((a.settle i).blockAt j).members = (a.blockAt j).members := by
    simp only [blockAt, settle, block?_modifyBlock]
    split
    · cases a.block? j <;> exact ⟨rfl, rfl⟩
    · exact ⟨rfl, rfl⟩
  have hids : (a.settle i).blockIds = a.blockIds :=
    List.filter_congr fun j _ => (hblock j).1
  simp only [roots, hids, (hblock _).2]

theorem settle_renamed {p q : Problem α} {B : Block α}
    (hB : ∀ v ∈ B.members, (p.variableAt (e.var v)).desired = (q.variableAt v).desired ∧
      (p.variableAt (e.var v)).offset = (q.variableAt v).offset ∧
      (p.variableAt (e.var v)).weight = (q.variableAt v).weight) :
    (B.renamed e.var).settle p = (B.settle q).renamed e.var := by
  have hpull : Block.pullOf p (B.members.map e.var) = Block.pullOf q B.members := by
    rw [Block.pullOf, List.map_map, Block.pullOf]
    apply congrArg Scalar.sum
    apply List.map_congr_left
    intro v hv
    obtain ⟨hd, ho, hw⟩ := hB v hv
    simp only [Function.comp_apply, hd, ho, hw]
  simp only [Block.settle, Block.renamed, hpull]

namespace Mirrors

variable (h : Mirrors e q a b)
include h

theorem settle (hv : v < q.vars.size) :
    Mirrors e q (a.settle (a.blockOf (e.var v))) (b.settle (b.blockOf v)) where
  intact := h.intact.settle
  intact' := h.intact'.settle
  charted := h.charted.settle
  charted' := h.charted'.settle
  part := h.part
  given_eq := h.given_eq
  offset_eq := h.offset_eq
  active_iff := h.active_iff
  home_eq w hw := by
    have hhome : ((b.home w).renamed e.var).settle a.problem =
        ((b.home w).settle b.problem).renamed e.var := by
      apply settle_renamed
      intro u hu
      have hu := ((h.intact'.mem_home (h.var_lt' hw)).mp hu).1
      exact ⟨h.part'.desired_eq u hu, h.offset_eq u (Problem.size_vars_eq h.given_eq ▸ hu),
        h.part'.weight_eq u hu⟩
    rw [home_settle h.intact (h.var_lt hw), home_settle h.intact' (h.var_lt' hw), h.home_eq w hw, hhome]
    simp only [h.blockOf_iff hw hv]
    split <;> rfl
  roots_eq := by
    rw [roots_settle, roots_settle]
    exact h.roots_eq

end Mirrors

theorem Elsewhere.settle (h : Elsewhere e q b a i) : Elsewhere e q b (a.settle i) i := by
  constructor
  case mirrors =>
    have hm := h.mirrors
    apply hm.of_eq_left hm.intact.settle hm.charted.settle rfl
    · exact fun _ _ => rfl
    · exact fun _ _ => Iff.rfl
    · exact fun v hv => (home_settle hm.intact (hm.var_lt hv) i).trans (if_neg (h.ne v hv))
    · rw [roots_settle]
  case ne => exact h.ne

theorem rebalance_of_split {a₁ a₂ a₃ : Arrangement α} {j : BlockId} (hs : a.split c = .ok (a₁, l, r))
    (hl : (a₁.settle l).mergeTowards .left l = .ok (a₂, i))
    (hr : (a₂.settle (a₂.rightBlock c)).mergeTowards .right (a₂.rightBlock c) = .ok (a₃, j)) :
    a.rebalance c = .ok a₃ := by
  simp only [rebalance, hs, hl, hr, bind, Except.bind, pure, Except.pure]

namespace Mirrors

variable (h : Mirrors e q a b)
include h

theorem rebalance (hc : c < q.constraints.size) (hact : c ∈ b.problem.active) : ∃ a' b',
    a.rebalance (e.con c) = .ok a' ∧ b.rebalance c = .ok b' ∧ Mirrors e q a' b' := by
  obtain ⟨a₁, _, r, b₁, _, r', hs, hs', h₁, rfl, rfl⟩ := h.split hc hact
  have hleft := h.left_lt hc
  obtain ⟨a₂, i, b₂, i', hm, hm', h₂⟩ := (h₁.settle hleft).mergeTowards hleft .left
  have hright := h₂.right_lt hc
  obtain ⟨a₃, j, b₃, j', hn, hn', h₃⟩ := (h₂.settle hright).mergeTowards hright .right
  refine ⟨a₃, b₃, rebalance_of_split (j := j) hs hm ?_, rebalance_of_split hs' hm' hn', h₃⟩
  rw [h₂.rightBlock_eq hc]
  exact hn

theorem rebalance_apart (hc : ∀ d < q.constraints.size, e.con d ≠ c) (hact : c ∈ a.problem.active) :
    Yields (a.rebalance c) fun a' => Mirrors e q a' b := by
  have hlt := Problem.lt_size_of_mem_active hact
  refine (rebalance_yields h.intact hact (loopInvariant_elsewhere e q b .left)
    (loopInvariant_elsewhere e q b .right) ?_ ?_).mono ?_
  · exact fun a' l r B L R _ hh => (h.halved_apart hc hact hh).settle
  · intro a' t ha hsize _ hI _ _
    have hne (v : VarId) (hv : v < q.vars.size) : a'.blockOf (e.var v) ≠ a'.rightBlock c :=
      hI.mirrors.blockOf_ne_end (hsize.symm ▸ hlt) hc hv .right
    exact Elsewhere.settle ⟨hI.mirrors, hne⟩
  · exact fun a' ⟨_, _, _, h', _⟩ => h'.mirrors

end Mirrors

end Spacing.Arrangement
