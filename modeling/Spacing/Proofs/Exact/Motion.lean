import Spacing.Proofs.Exact.Balance

namespace Spacing.Arrangement

variable {a a' : Arrangement Rat} {b i t r l : BlockId} {s B Bl Br : Block Rat} {c d : ConId} {v : VarId}
  {shift : Rat} {L R : List VarId}

namespace Merged

variable (h : Merged a a' c t r s B shift) (ha : a.Intact)
include h ha

theorem blockAt_eq_of_mem (hv : v < a.problem.vars.size)
    (hm : a.blockOf v = a.leftBlock c ∨ a.blockOf v = a.rightBlock c) :
    a'.blockAt (a'.blockOf v) = s.join B shift := by
  rw [(h.blockOf_eq_iff_ends ha hv).mpr hm, blockAt_eq h.block?_survivor]

theorem position_of_ne (hl : a.blockOf v ≠ a.leftBlock c) (hr : a.blockOf v ≠ a.rightBlock c) :
    a'.position v = a.position v := by
  have hvt : a.blockOf v ≠ t ∧ a.blockOf v ≠ r := by
    rcases h.ends with ⟨ht, hr', -⟩ | ⟨ht, hr', -⟩
    · exact ⟨ht ▸ hl, hr' ▸ hr⟩
    · exact ⟨ht ▸ hr, hr' ▸ hl⟩
  have hm : v ∉ B.members := fun hm => hvt.2 (ha.blockOf_eq h.absorbed hm)
  rw [position_exact, h.blockOf_of_ne ha hvt.2, h.offset_eq ha, if_neg hm, blockAt,
    h.block?_of_ne hvt.1 hvt.2]
  rfl

theorem position_eq (hb : a.Balanced) (hl : a.block? (a.leftBlock c) = some Bl)
    (hr : a.block? (a.rightBlock c) = some Br) (hv : v < a.problem.vars.size) :
    (a.blockOf v = a.leftBlock c →
      a'.position v = a.position v + Br.weight / (Bl.weight + Br.weight) * a.slack c) ∧
    (a.blockOf v = a.rightBlock c →
      a'.position v = a.position v - Bl.weight / (Bl.weight + Br.weight) * a.slack c) := by
  have hWl := hb.weight_pos ha hl
  have hWr := hb.weight_pos ha hr
  have hslack : a.slack c = (Br.position + (a.problem.variableAt (a.problem.edges.right c)).offset) -
      (Bl.position + (a.problem.variableAt (a.problem.edges.left c)).offset) -
      (a.problem.constraintAt c).gap := by
    rw [slack_exact, position_exact, position_exact]
    change (a.blockAt (a.rightBlock c)).position + _ - ((a.blockAt (a.leftBlock c)).position + _) - _ = _
    rw [blockAt_eq hl, blockAt_eq hr]
  have hplace (hm : a.blockOf v = a.leftBlock c ∨ a.blockOf v = a.rightBlock c) :
      a'.position v = (s.join B shift).position + (a'.problem.variableAt v).offset := by
    rw [position_exact, h.blockAt_eq_of_mem ha hv hm]
  have hmem : v ∈ B.members ↔ a.blockOf v = r := h.mem_absorbed ha hv
  have hne := h.ends_ne
  -- Whichever block survives, the two come to rest at their mean by weight.
  rcases h.ends with ⟨rfl, rfl, hshift⟩ | ⟨rfl, rfl, hshift⟩
  · obtain rfl : s = Bl := Option.some.inj (h.survivor.symm.trans hl)
    obtain rfl : B = Br := Option.some.inj (h.absorbed.symm.trans hr)
    have hs := hb.moment_eq _ _ hl
    have hB := hb.moment_eq _ _ hr
    constructor
    · intro hvl
      rw [hplace (.inl hvl), h.offset_eq ha, if_neg (hmem.not.mpr (hvl ▸ hne)), position_exact, hvl,
        blockAt_eq hl, hslack, Block.join, hs, hB, hshift]
      field_simp
      ring
    · intro hvr
      rw [hplace (.inr hvr), h.offset_eq ha, if_pos (hmem.mpr hvr), position_exact, hvr,
        blockAt_eq hr, hslack, Block.join, hs, hB, hshift]
      field_simp
      ring
  · obtain rfl : s = Br := Option.some.inj (h.survivor.symm.trans hr)
    obtain rfl : B = Bl := Option.some.inj (h.absorbed.symm.trans hl)
    have hs := hb.moment_eq _ _ hr
    have hB := hb.moment_eq _ _ hl
    constructor
    · intro hvl
      rw [hplace (.inl hvl), h.offset_eq ha, if_pos (hmem.mpr hvl), position_exact, hvl,
        blockAt_eq hl, hslack, Block.join, hs, hB, hshift]
      field_simp
      ring
    · intro hvr
      rw [hplace (.inr hvr), h.offset_eq ha, if_neg (hmem.not.mpr (hvr ▸ hne.symm)), position_exact,
        hvr, blockAt_eq hr, hslack, Block.join, hs, hB, hshift]
      field_simp
      ring

theorem slack_between (hb : a.Balanced) (hd : d < a.problem.constraints.size)
    (hl : a.leftBlock d = a.leftBlock c) (hr : a.rightBlock d = a.rightBlock c) :
    a'.slack d = a.slack d - a.slack c := by
  obtain ⟨Bl, hBl⟩ := ha.exists_block (ha.consistent.leftEnd_lt h.lt_size)
  obtain ⟨Br, hBr⟩ := ha.exists_block (ha.consistent.rightEnd_lt h.lt_size)
  have hWl := hb.weight_pos ha hBl
  have hWr := hb.weight_pos ha hBr
  have hleft := (h.position_eq ha hb hBl hBr (ha.consistent.leftEnd_lt hd)).1 hl
  have hright := (h.position_eq ha hb hBl hBr (ha.consistent.rightEnd_lt hd)).2 hr
  rw [slack_exact, slack_exact, Problem.edges_eq h.given_eq, Problem.gap_eq h.given_eq, hleft,
    hright]
  field_simp
  ring

theorem tension_survivor (hb : a.Balanced) :
    a'.tension t = a.tension (a.leftBlock c) + a.tension (a.rightBlock c) := by
  have hends := h.ends_ne
  obtain ⟨Bl, hl⟩ := ha.exists_block (ha.consistent.left_lt c h.lt_size)
  obtain ⟨Br, hr⟩ := ha.exists_block (ha.consistent.right_lt c h.lt_size)
  have hl : a.block? (a.leftBlock c) = some Bl := hl
  have hr : a.block? (a.rightBlock c) = some Br := hr
  have hWl := hb.weight_pos ha hl
  have hWr := hb.weight_pos ha hr
  have hleft := Problem.tension_shift (p := a.problem) (x := a.position) (y := a'.position)
    (d := Br.weight / (Bl.weight + Br.weight) * a.slack c) fun v (hv : v ∈ Bl.members) =>
      (h.position_eq ha hb hl hr (ha.lt_of_mem hl hv)).1 (ha.blockOf_eq hl hv)
  have hright := Problem.tension_shift (p := a.problem) (x := a.position) (y := a'.position)
    (d := -(Bl.weight / (Bl.weight + Br.weight) * a.slack c)) fun v (hv : v ∈ Br.members) => by
      rw [(h.position_eq ha hb hl hr (ha.lt_of_mem hr hv)).2 (ha.blockOf_eq hr hv)]
      ring
  have hsum : a'.tension t = a.problem.tension a'.position Bl.members +
      a.problem.tension a'.position Br.members := by
    rw [tension_eq h.block?_survivor, Problem.tension_given h.given_eq, Block.join,
      Problem.tension_append]
    rcases h.ends with ⟨rfl, rfl, -⟩ | ⟨rfl, rfl, -⟩
    · obtain rfl : s = Bl := Option.some.inj (h.survivor.symm.trans hl)
      obtain rfl : B = Br := Option.some.inj (h.absorbed.symm.trans hr)
      rfl
    · obtain rfl : s = Br := Option.some.inj (h.survivor.symm.trans hr)
      obtain rfl : B = Bl := Option.some.inj (h.absorbed.symm.trans hl)
      exact add_comm _ _
  rw [hsum, hleft, hright, ← hb.weight_eq _ _ hl, ← hb.weight_eq _ _ hr, tension_eq hl, tension_eq hr]
  field_simp
  ring

theorem tension_of_ne (hit : i ≠ t) (hir : i ≠ r) : a'.tension i = a.tension i := by
  cases hB : a.block? i with
  | none => rw [tension_of_none hB, tension_of_none (by rw [h.block?_of_ne hit hir, hB])]
  | some B' =>
    rw [tension_eq hB, tension_eq (by rw [h.block?_of_ne hit hir, hB]),
      Problem.tension_given h.given_eq]
    refine Problem.tension_congr fun v hv => ?_
    have hvi := ha.blockOf_eq hB hv
    refine h.position_of_ne ha ?_ ?_
    · rcases h.ends with ⟨ht, -⟩ | ⟨-, hr, -⟩
      · exact ht ▸ hvi ▸ hit
      · exact hr ▸ hvi ▸ hir
    · rcases h.ends with ⟨-, hr, -⟩ | ⟨ht, -⟩
      · exact hr ▸ hvi ▸ hir
      · exact ht ▸ hvi ▸ hit

omit ha in
theorem tension_absorbed : a'.tension r = 0 :=
  tension_of_none (by rw [h.block?_eq, if_neg h.ne.symm, if_pos rfl])

end Merged

namespace Halved

variable (h : Halved a a' c l r B L R) (ha : a.Intact) (hc : c ∈ a.problem.active)
include h ha hc

theorem slack_eq (hd : d < a.problem.constraints.size) : a'.slack d = a.slack d := by
  rw [slack_exact, slack_exact, h.edges_eq, Problem.gap_eq h.given_eq,
    h.position_eq ha hc (ha.consistent.leftEnd_lt hd), h.position_eq ha hc (ha.consistent.rightEnd_lt hd)]

theorem tension_left : a'.tension l = a.problem.tension a.position L := by
  rw [tension_eq h.block?_left, Problem.tension_given h.given_eq]
  exact Problem.tension_congr fun v hv => h.position_eq ha hc (h.lt_of_mem ha hc (.inl hv))

theorem tension_right : a'.tension r = a.problem.tension a.position R := by
  rw [tension_eq h.block?_right, Problem.tension_given h.given_eq]
  exact Problem.tension_congr fun v hv => h.position_eq ha hc (h.lt_of_mem ha hc (.inr hv))

theorem tension_add : a'.tension l + a'.tension r = a.tension (a.leftBlock c) := by
  rw [h.tension_left ha hc, h.tension_right ha hc, tension_eq h.old,
    Problem.tension_perm (h.members_perm ha hc), Problem.tension_append]

theorem tension_of_ne (hil : i ≠ l) (hir : i ≠ r) (hio : i ≠ a.leftBlock c) :
    a'.tension i = a.tension i := by
  have hblock : a'.block? i = a.block? i := by
    rw [h.block?_eq, if_neg hil, if_neg hir, if_neg hio]
  cases hB : a.block? i with
  | none => rw [tension_of_none hB, tension_of_none (hblock.trans hB)]
  | some B' =>
    rw [tension_eq hB, tension_eq (hblock.trans hB), Problem.tension_given h.given_eq]
    exact Problem.tension_congr fun v hv => h.position_eq ha hc (ha.lt_of_mem hB hv)

omit ha hc in
theorem tension_old (hl : a.leftBlock c ≠ l) (hr : a.leftBlock c ≠ r) :
    a'.tension (a.leftBlock c) = 0 :=
  tension_of_none (by rw [h.block?_eq, if_neg hl, if_neg hr, if_pos rfl])

end Halved

end Spacing.Arrangement
