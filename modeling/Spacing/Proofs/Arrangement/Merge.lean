import Spacing.Proofs.Arrangement.Intact

namespace Spacing.Arrangement

variable {α : Type} [Scalar α] {a a' : Arrangement α} {c d : ConId} {t r i : BlockId}
  {s b : Block α} {shift : α} {v : VarId} {side : Side}

structure Merged (a a' : Arrangement α) (c : ConId) (t r : BlockId) (s b : Block α) (shift : α) :
    Prop where
  survivor : a.block? t = some s
  absorbed : a.block? r = some b
  ne : t ≠ r
  ends : (t = a.leftBlock c ∧ r = a.rightBlock c ∧
      shift = (a.problem.variableAt (a.problem.edges.left c)).offset + (a.problem.constraintAt c).gap -
        (a.problem.variableAt (a.problem.edges.right c)).offset) ∨
    (t = a.rightBlock c ∧ r = a.leftBlock c ∧
      shift = (a.problem.variableAt (a.problem.edges.right c)).offset - (a.problem.constraintAt c).gap -
        (a.problem.variableAt (a.problem.edges.left c)).offset)
  result : a' = ({ a with
    problem := a.problem.modifyConstraint c fun k => { k with active := true } }.absorb
      t r s b shift).record (.merged c t r)

theorem merged_of_merge (h : a.merge c = .ok (a', t)) :
    ∃ r s b shift, Merged a a' c t r s b shift := by
  simp only [merge] at h
  split at h
  · cases h
  · rename_i hne
    split at h
    · cases h
    · cases h
    · rename_i l r hl hr
      split at h
      · cases h
        exact ⟨_, _, _, _, hr, hl, Ne.symm hne, .inr ⟨rfl, rfl, rfl⟩, rfl⟩
      · cases h
        exact ⟨_, _, _, _, hl, hr, hne, .inl ⟨rfl, rfl, rfl⟩, rfl⟩

theorem exists_merge (hne : a.leftBlock c ≠ a.rightBlock c) (hl : (a.block? (a.leftBlock c)).isSome)
    (hr : (a.block? (a.rightBlock c)).isSome) : ∃ a' t, a.merge c = .ok (a', t) := by
  obtain ⟨l, hl⟩ := Option.isSome_iff_exists.mp hl
  obtain ⟨r, hr⟩ := Option.isSome_iff_exists.mp hr
  simp only [merge, hne, if_false, hl, hr]
  split
  · exact ⟨_, _, rfl⟩
  · exact ⟨_, _, rfl⟩

theorem lt_size_of_ends_ne (h : a.leftBlock c ≠ a.rightBlock c) : c < a.problem.constraints.size := by
  by_contra hc
  have hk : a.problem.constraintAt c = default := by
    simp [Problem.constraintAt, Array.getD_eq_getD_getElem?,
      Array.getElem?_eq_none (Nat.not_lt.mp hc)]
  exact h (by rw [leftBlock, rightBlock, hk]; rfl)

theorem mem_join {m : VarId} : m ∈ (s.join b shift).members ↔ m ∈ s.members ∨ m ∈ b.members := by
  simp [Block.join]

theorem boundary_join {cs : List ConId} (hcs : (s.join b shift).boundary side = some cs) :
    ∃ xs ys, s.boundary side = some xs ∧ b.boundary side = some ys ∧ cs = xs ++ ys := by
  cases side <;>
  · simp only [Block.boundary, Block.join, Option.bind_eq_bind, Option.bind_eq_some_iff,
      Option.pure_def, Option.some.injEq] at hcs ⊢
    obtain ⟨xs, hx, ys, hy, rfl⟩ := hcs
    exact ⟨xs, ys, hx, hy, rfl⟩

namespace Merged

variable (h : Merged a a' c t r s b shift)
include h

theorem ends_ne : a.leftBlock c ≠ a.rightBlock c := by
  rcases h.ends with ⟨ht, hr, -⟩ | ⟨ht, hr, -⟩
  · exact ht ▸ hr ▸ h.ne
  · exact ht ▸ hr ▸ h.ne.symm

theorem lt_size : c < a.problem.constraints.size :=
  lt_size_of_ends_ne h.ends_ne

theorem live_eq : a'.live = a.live := by
  rw [h.result]
  rfl

theorem journal_eq : a'.journal = a.journal.push (.event (.merged c t r)) := by
  rw [h.result]
  rfl

theorem size_blocks : a'.blocks.size = a.blocks.size := by
  rw [h.result]
  simp [record, absorb]

theorem block?_eq : a'.block? i =
    if i = t then some (s.join b shift) else if i = r then none else a.block? i := by
  have ht := block?_eq_some_lt h.survivor
  have hr := block?_eq_some_lt h.absorbed
  rw [h.result]
  simp only [record, absorb, block?, Array.getD_eq_getD_getElem?, Array.getElem?_setIfInBounds,
    Array.size_setIfInBounds]
  by_cases hit : i = t
  · subst hit
    simp [ht]
  · by_cases hir : i = r
    · subst hir
      simp [hit, Ne.symm hit, hr]
    · simp [hit, hir, Ne.symm hit, Ne.symm hir]

theorem block?_survivor : a'.block? t = some (s.join b shift) := by
  rw [h.block?_eq, if_pos rfl]

theorem block?_of_ne (ht : i ≠ t) (hr : i ≠ r) : a'.block? i = a.block? i := by
  rw [h.block?_eq, if_neg ht, if_neg hr]

theorem block?_cases {B' : Block α} (hB' : a'.block? i = some B') :
    (i = t ∧ B' = s.join b shift) ∨ (i ≠ t ∧ i ≠ r ∧ a.block? i = some B') := by
  rw [h.block?_eq] at hB'
  split_ifs at hB' with hit hir
  · exact .inl ⟨hit, (Option.some.inj hB').symm⟩
  · exact .inr ⟨hit, hir, hB'⟩

theorem constraintAt_eq : a'.problem.constraintAt d =
    if d = c then { a.problem.constraintAt d with active := true } else a.problem.constraintAt d := by
  have hk : a'.problem.constraints =
      (a.problem.modifyConstraint c fun k => { k with active := true }).constraints := by
    rw [h.result]
    exact Problem.constraints_modifyAll _ _
  rw [Problem.constraintAt, hk, ← Problem.constraintAt,
    Problem.constraintAt_modifyConstraint _ h.lt_size]

theorem given_eq : a'.problem.given = a.problem.given := by
  rw [h.result]
  refine (Problem.given_modifyAll ?_ _).trans (Problem.given_modifyConstraint ?_)
  · exact fun _ => rfl
  · exact fun _ => rfl

theorem active_eq : a'.problem.active = insert c a.problem.active := by
  ext d
  rw [Problem.mem_active, h.constraintAt_eq, Set.mem_insert_iff]
  by_cases hd : d = c
  · simp [hd]
  · simp [hd, Problem.mem_active]

theorem edges_eq : a'.problem.edges = a.problem.edges :=
  Problem.edges_eq h.given_eq

section Intact

variable (ha : a.Intact)
include ha

theorem variableAt_eq : a'.problem.variableAt v = if v ∈ b.members then
    { a.problem.variableAt v with offset := (a.problem.variableAt v).offset + shift, block := t }
    else a.problem.variableAt v := by
  rw [h.result]
  refine (Problem.variableAt_modifyAll _ (ha.nodup r b h.absorbed) ?_).trans rfl
  exact fun v hv => ha.lt_of_mem h.absorbed hv

theorem blockOf_eq : a'.blockOf v = if v ∈ b.members then t else a.blockOf v := by
  rw [blockOf, Problem.blockOf, h.variableAt_eq ha]
  split <;> rfl

theorem offset_eq : (a'.problem.variableAt v).offset = if v ∈ b.members then
    (a.problem.variableAt v).offset + shift else (a.problem.variableAt v).offset := by
  rw [h.variableAt_eq ha]
  split <;> rfl

theorem blockOf_of_ne (hv : a.blockOf v ≠ r) : a'.blockOf v = a.blockOf v := by
  rw [h.blockOf_eq ha, if_neg fun hm => hv (ha.blockOf_eq h.absorbed hm)]

theorem blockOf_of_eq (hv : v < a.problem.vars.size) (hr : a.blockOf v = r) : a'.blockOf v = t := by
  rw [h.blockOf_eq ha, if_pos (ha.mem_of_blockOf h.absorbed hv hr)]

theorem blockOf_eq_iff (hv : v < a.problem.vars.size) :
    a'.blockOf v = t ↔ a.blockOf v = t ∨ a.blockOf v = r := by
  by_cases hr : a.blockOf v = r
  · simp [h.blockOf_of_eq ha hv hr, hr]
  · simp [h.blockOf_of_ne ha hr, hr]

theorem blockOf_eq_iff_ends (hv : v < a.problem.vars.size) :
    a'.blockOf v = t ↔ a.blockOf v = a.leftBlock c ∨ a.blockOf v = a.rightBlock c := by
  rw [h.blockOf_eq_iff ha hv]
  rcases h.ends with ⟨ht, hr, -⟩ | ⟨ht, hr, -⟩
  · rw [ht, hr]
  · rw [ht, hr]
    exact or_comm

theorem blockOf_ne_absorbed : a'.blockOf v ≠ r ∨ a.problem.vars.size ≤ v := by
  by_cases hv : v < a.problem.vars.size
  · left
    by_cases hr : a.blockOf v = r
    · rw [h.blockOf_of_eq ha hv hr]
      exact h.ne
    · rwa [h.blockOf_of_ne ha hr]
  · exact .inr (Nat.not_lt.mp hv)

theorem blockOf_congr {u v : VarId} (hu : u < a.problem.vars.size) (hv : v < a.problem.vars.size)
    (huv : a.blockOf u = a.blockOf v) : a'.blockOf u = a'.blockOf v := by
  by_cases hr : a.blockOf v = r
  · rw [h.blockOf_of_eq ha hu (huv.trans hr), h.blockOf_of_eq ha hv hr]
  · rw [h.blockOf_of_ne ha hr, h.blockOf_of_ne ha (huv ▸ hr), huv]

theorem eq_or_ends_of_blockOf_eq {u v : VarId} (hu : u < a.problem.vars.size)
    (hv : v < a.problem.vars.size) (huv : a'.blockOf u = a'.blockOf v) :
    a.blockOf u = a.blockOf v ∨ (a.blockOf u = a.leftBlock c ∧ a.blockOf v = a.rightBlock c) ∨
      (a.blockOf u = a.rightBlock c ∧ a.blockOf v = a.leftBlock c) := by
  by_cases hur : a.blockOf u = r <;> by_cases hvr : a.blockOf v = r
  · exact .inl (hur.trans hvr.symm)
  · rw [h.blockOf_of_eq ha hu hur, h.blockOf_of_ne ha hvr] at huv
    rcases h.ends with ⟨ht, hr, -⟩ | ⟨ht, hr, -⟩
    · exact .inr (.inr ⟨hur.trans hr, huv.symm.trans ht⟩)
    · exact .inr (.inl ⟨hur.trans hr, huv.symm.trans ht⟩)
  · rw [h.blockOf_of_ne ha hur, h.blockOf_of_eq ha hv hvr] at huv
    rcases h.ends with ⟨ht, hr, -⟩ | ⟨ht, hr, -⟩
    · exact .inr (.inl ⟨huv.trans ht, hvr.trans hr⟩)
    · exact .inr (.inr ⟨huv.trans ht, hvr.trans hr⟩)
  · rw [h.blockOf_of_ne ha hur, h.blockOf_of_ne ha hvr] at huv
    exact .inl huv

theorem eq_or_of_blockOf_eq {Q : VarId → Prop}
    (hQ : ∀ u < a.problem.vars.size, ∀ v < a.problem.vars.size, a.blockOf u = a.blockOf v →
      u = v ∨ (Q u ∧ Q v))
    (ht : ∀ v < a.problem.vars.size, a'.blockOf v = t → Q v) :
    ∀ u < a.problem.vars.size, ∀ v < a.problem.vars.size, a'.blockOf u = a'.blockOf v →
      u = v ∨ (Q u ∧ Q v) := by
  intro u hu v hv huv
  by_cases hut : a'.blockOf u = t
  · exact .inr ⟨ht u hu hut, ht v hv (huv.symm.trans hut)⟩
  · rcases h.eq_or_ends_of_blockOf_eq ha hu hv huv with he | he
    · exact hQ u hu v hv he
    · exact absurd ((h.blockOf_eq_iff_ends ha hu).mpr (he.imp And.left And.left)) hut

theorem ends_together : a'.leftBlock c = a'.rightBlock c := by
  have hl : a.problem.edges.left c < a.problem.vars.size := ha.consistent.left_lt c h.lt_size
  have hr : a.problem.edges.right c < a.problem.vars.size := ha.consistent.right_lt c h.lt_size
  rw [leftBlock_eq, rightBlock_eq, h.edges_eq, (h.blockOf_eq_iff_ends ha hl).mpr (.inl rfl),
    (h.blockOf_eq_iff_ends ha hr).mpr (.inr rfl)]

theorem not_linked_ends : ¬ a.problem.edges.Linked a.problem.active (a.problem.edges.left c)
    (a.problem.edges.right c) :=
  fun hl => h.ends_ne (ha.blockOf_eq_of_linked hl)

theorem covers_of_crosses {cs : List ConId} (hit : i ≠ t) (hir : i ≠ r)
    (hcs : a.Covers side i cs) : a'.Covers side i cs := by
  have hn := Problem.size_vars_eq h.given_eq
  have hm := Problem.size_constraints_eq h.given_eq
  constructor
  · intro d hd
    obtain ⟨hlt, hnear⟩ := hcs.near d hd
    rw [hm, h.edges_eq, h.blockOf_of_ne ha (hnear ▸ hir)]
    exact ⟨hlt, hnear⟩
  · intro d hd
    have hlt := hm ▸ hd.lt_size
    have hnear := hd.near
    have hfar := hd.far
    rw [h.edges_eq] at hnear hfar
    have hnlt := ha.consistent.endOn_lt hlt side.other
    have hflt := ha.consistent.endOn_lt hlt side
    refine hcs.all d ⟨hlt, ?_, fun hf => hfar ?_⟩
    · by_cases hr : a.blockOf (a.problem.edges.endOn side.other d) = r
      · exact absurd ((h.blockOf_of_eq ha hnlt hr).symm.trans hnear) (Ne.symm hit)
      · rwa [h.blockOf_of_ne ha hr] at hnear
    · rw [h.blockOf_of_ne ha (hf ▸ hir), hf]

theorem covers_join {cs cs' : List ConId} (hcs : a.Covers side t cs) (hcs' : a.Covers side r cs') :
    a'.Covers side t (cs ++ cs') := by
  have hm := Problem.size_constraints_eq h.given_eq
  constructor
  · intro d hd
    rw [hm, h.edges_eq]
    rcases List.mem_append.mp hd with hd | hd
    · obtain ⟨hlt, hnear⟩ := hcs.near d hd
      exact ⟨hlt, (h.blockOf_eq_iff ha (ha.consistent.endOn_lt hlt _)).mpr (.inl hnear)⟩
    · obtain ⟨hlt, hnear⟩ := hcs'.near d hd
      exact ⟨hlt, (h.blockOf_eq_iff ha (ha.consistent.endOn_lt hlt _)).mpr (.inr hnear)⟩
  · intro d hd
    have hlt := hm ▸ hd.lt_size
    have hnear := hd.near
    have hfar := hd.far
    rw [h.edges_eq] at hnear hfar
    rw [h.blockOf_eq_iff ha (ha.consistent.endOn_lt hlt _)] at hnear
    rw [Ne, h.blockOf_eq_iff ha (ha.consistent.endOn_lt hlt _), not_or] at hfar
    rw [List.mem_append]
    rcases hnear with hnear | hnear
    · exact .inl (hcs.all d ⟨hlt, hnear, hfar.1⟩)
    · exact .inr (hcs'.all d ⟨hlt, hnear, hfar.2⟩)

theorem linked_of_blockOf_eq {u : VarId} (hu : u < a.problem.vars.size)
    (hv : v < a.problem.vars.size) (huv : a'.blockOf u = a'.blockOf v) :
    a.problem.edges.Linked (insert c a.problem.active) u v := by
  have hl : a.problem.edges.left c < a.problem.vars.size := ha.consistent.left_lt c h.lt_size
  have hr : a.problem.edges.right c < a.problem.vars.size := ha.consistent.right_lt c h.lt_size
  have hsub : a.problem.active ⊆ insert c a.problem.active := Set.subset_insert _ _
  have hedge : a.problem.edges.Linked (insert c a.problem.active) (a.problem.edges.left c)
      (a.problem.edges.right c) := .edge (Set.mem_insert _ _)
  rcases h.eq_or_ends_of_blockOf_eq ha hu hv huv with he | ⟨hul, hvr⟩ | ⟨hur, hvl⟩
  · exact (ha.linked u hu v hv he).mono hsub
  · exact ((ha.linked u hu _ hl hul).mono hsub).trans
      (hedge.trans ((ha.linked _ hr v hv hvr.symm).mono hsub))
  · exact ((ha.linked u hu _ hr hur).mono hsub).trans
      (hedge.symm.trans ((ha.linked _ hl v hv hvl.symm).mono hsub))

theorem intact : a'.Intact := by
  have hn := Problem.size_vars_eq h.given_eq
  constructor
  case consistent => exact ha.consistent.of_given h.given_eq
  case nodup =>
    intro i B' hB'
    rcases h.block?_cases hB' with ⟨rfl, rfl⟩ | ⟨-, -, hB⟩
    · refine List.nodup_append.mpr ⟨ha.nodup i s h.survivor, ha.nodup r b h.absorbed, ?_⟩
      rintro u hu v hv rfl
      exact h.ne ((ha.blockOf_eq h.survivor hu).symm.trans (ha.blockOf_eq h.absorbed hv))
    · exact ha.nodup i B' hB
  case mem_iff =>
    intro i B' hB' v
    rw [hn]
    rcases h.block?_cases hB' with ⟨rfl, rfl⟩ | ⟨hit, hir, hB⟩
    · rw [mem_join, ha.mem_iff i s h.survivor, ha.mem_iff r b h.absorbed, ← and_or_left]
      exact and_congr_right fun hv => (h.blockOf_eq_iff ha hv).symm
    · rw [ha.mem_iff i B' hB]
      refine and_congr_right fun hv => ?_
      by_cases hr : a.blockOf v = r
      · rw [h.blockOf_of_eq ha hv hr, hr]
        exact iff_of_false (Ne.symm hir) (Ne.symm hit)
      · rw [h.blockOf_of_ne ha hr]
  case standing =>
    intro v hv
    rw [hn] at hv
    by_cases hr : a.blockOf v = r
    · rw [h.blockOf_of_eq ha hv hr, h.block?_survivor]
      rfl
    · rw [h.blockOf_of_ne ha hr, h.block?_eq]
      split_ifs
      · rfl
      · exact ha.standing v hv
  case nonempty =>
    intro i B' hB'
    rcases h.block?_cases hB' with ⟨rfl, rfl⟩ | ⟨-, -, hB⟩
    · simp [Block.join, ha.nonempty i s h.survivor]
    · exact ha.nonempty i B' hB
  case live =>
    intro i B' hB'
    rw [h.live_eq]
    rcases h.block?_cases hB' with ⟨rfl, rfl⟩ | ⟨-, -, hB⟩
    · exact ha.live i s h.survivor
    · exact ha.live i B' hB
  case live_nodup => exact h.live_eq ▸ ha.live_nodup
  case live_lt =>
    rw [h.live_eq, h.size_blocks]
    exact ha.live_lt
  case together =>
    intro d hd
    rw [h.active_eq, Set.mem_insert_iff] at hd
    rcases hd with rfl | hd
    · exact h.ends_together ha
    · rw [h.edges_eq]
      exact h.blockOf_congr ha (ha.left_lt hd) (ha.right_lt hd) (ha.together d hd)
  case linked =>
    intro u hu v hv huv
    rw [h.edges_eq, h.active_eq]
    exact h.linked_of_blockOf_eq ha (hn ▸ hu) (hn ▸ hv) huv
  case forest =>
    rw [h.edges_eq, h.active_eq]
    exact ha.forest.insert (h.not_linked_ends ha)
  case covers =>
    intro i B' hB' side cs hcs
    rcases h.block?_cases hB' with ⟨rfl, rfl⟩ | ⟨hit, hir, hB⟩
    · obtain ⟨xs, ys, hx, hy, rfl⟩ := boundary_join hcs
      exact h.covers_join ha (ha.covers i s h.survivor side xs hx)
        (ha.covers r b h.absorbed side ys hy)
    · exact h.covers_of_crosses ha hit hir (ha.covers i B' hB side cs hcs)

end Intact

end Merged

end Spacing.Arrangement
