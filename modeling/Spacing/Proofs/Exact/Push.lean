import Spacing.Proofs.Exact.Motion
import Spacing.Proofs.Arrangement.Loop
/-!
Pushing: with exact numbers and without equalities, merging a block towards a side restores the
constraints that the block violates there and violates no others. Positions are compared with a base
that satisfies the constraints: blocks that the loop has not reached are at the base, and the one under
merge is behind it by at least as much as any constraint on its boundary is violated.
-/

namespace Spacing

def Problem.Inequalities (p : Problem Rat) : Prop :=
  ∀ c < p.constraints.size, (p.constraintAt c).equality = false

theorem Problem.Inequalities.eq_false {p : Problem Rat} (hp : p.Inequalities) (c : ConId) :
    (p.constraintAt c).equality = false := by
  by_cases hc : c < p.constraints.size
  · exact hp c hc
  · have : p.constraintAt c = default := by
      simp [Problem.constraintAt, Array.getD_eq_getD_getElem?, Array.getElem?_eq_none (Nat.not_lt.mp hc)]
    rw [this]
    rfl

theorem Problem.Inequalities.given {p q : Problem Rat} (h : p.given = q.given) (hp : p.Inequalities) :
    q.Inequalities := by
  intro c _
  rw [← Problem.equality_eq h]
  exact hp.eq_false c

def Side.sign : Side → Rat
  | .left => 1
  | .right => -1

namespace Arrangement

variable {a a' : Arrangement Rat} {b i t r : BlockId} {s B : Block Rat} {c d : ConId} {u v : VarId}
  {shift : Rat} {side : Side} {p : Problem Rat} {Q : VarId → Prop} {y : VarId → Rat}

def along (a : Arrangement Rat) (side : Side) (v : VarId) : Rat :=
  side.sign * a.position v

theorem slack_along (side : Side) (c : ConId) : a.slack c =
    a.along side (a.problem.edges.endOn side.other c) - a.along side (a.problem.edges.endOn side c) -
      (a.problem.constraintAt c).gap := by
  rw [slack_exact, along, along]
  cases side
  · change _ = 1 * a.position (a.problem.edges.right c) - 1 * a.position (a.problem.edges.left c) - _
    ring
  · change _ = -1 * a.position (a.problem.edges.left c) - -1 * a.position (a.problem.edges.right c) - _
    ring

theorem mostUrgent_eq_firstLeast {cs : List ConId}
    (h : ∀ c ∈ cs, (a.problem.constraintAt c).equality = false) :
    a.mostUrgent cs = firstLeast a.slack cs := by
  have hnone : cs.find? (fun c => (a.problem.constraintAt c).equality) = none := by
    rw [List.find?_eq_none]
    intro c hc
    rw [h c hc]
    exact Bool.false_ne_true
  rw [mostUrgent, hnone]

theorem needsMerge_exact (hp : a.problem.Inequalities) : a.needsMerge c ↔ a.slack c < 0 := by
  rw [needsMerge, hp.eq_false c, Bool.false_or, decide_eq_true_iff, zero_exact]

theorem slack_of_nextMerge (ha : a.Intact) (hp : a.problem.Inequalities) (hb : (a.block? b).isSome)
    (hk : a.Known side b) (h : a.nextMerge side b = some c) :
    a.slack c < 0 ∧ ∀ d, a.Crosses side b d → a.slack c ≤ a.slack d := by
  obtain ⟨hleast, hneeds⟩ := Option.filter_eq_some_iff.mp h
  rw [mostUrgent_eq_firstLeast fun d _ => hp.eq_false d] at hleast
  refine ⟨(needsMerge_exact hp).mp hneeds, fun d hd => ?_⟩
  exact firstLeast_le hleast ((ha.mem_crossing_known hb hk).mpr hd)

theorem slack_of_nextMerge_none (ha : a.Intact) (hb : (a.block? b).isSome) (hk : a.Known side b)
    (h : a.nextMerge side b = none) (hc : a.Crosses side b c) :
    (a.problem.constraintAt c).equality = false ∧ 0 ≤ a.slack c := by
  have hbond (d : ConId) (hd : a.Crosses side b d) : (a.problem.constraintAt d).equality = false := by
    by_contra he
    obtain ⟨e, -, he⟩ := ha.nextMerge_of_equality hb hk hd (Bool.eq_true_of_not_eq_false he)
    cases h.symm.trans he
  let cs := a.crossing side b (((a.blockAt b).boundary side).getD [])
  have hmem (d : ConId) : d ∈ cs ↔ a.Crosses side b d := ha.mem_crossing_known hb hk
  have hurgent : a.mostUrgent cs = firstLeast a.slack cs :=
    mostUrgent_eq_firstLeast fun d hd => hbond d ((hmem d).mp hd)
  obtain ⟨d, hd⟩ := exists_firstLeast (f := a.slack) ((hmem c).mpr hc)
  have hcalm : a.needsMerge d = false := by
    have hfilter : (a.mostUrgent cs).filter (fun c => a.needsMerge c) = none := h
    rw [hurgent, hd, Option.filter_some] at hfilter
    simpa using hfilter
  rw [needsMerge, Bool.or_eq_false_iff, decide_eq_false_iff_not, zero_exact, not_lt] at hcalm
  exact ⟨hbond c hc, hcalm.2.trans (firstLeast_le hd ((hmem c).mpr hc))⟩

theorem slack_of_given (hg : a.problem.given = p.given) (side : Side) (c : ConId) :
    a.slack c = a.along side (p.edges.endOn side.other c) - a.along side (p.edges.endOn side c) -
      (p.constraintAt c).gap := by
  rw [slack_along side, Problem.edges_eq hg, Problem.gap_eq hg]

theorem crosses_of_given (hg : a.problem.given = p.given) :
    a.Crosses side b c ↔ c < p.constraints.size ∧ a.blockOf (p.edges.endOn side.other c) = b ∧
      a.blockOf (p.edges.endOn side c) ≠ b := by
  rw [← Problem.edges_eq hg, ← Problem.size_constraints_eq hg]
  exact ⟨fun h => ⟨h.lt_size, h.near, h.far⟩, fun h => ⟨h.1, h.2.1, h.2.2⟩⟩

theorem Intact.endOn_lt_of_given (ha : a.Intact) (hg : a.problem.given = p.given)
    (hc : c < p.constraints.size) (side : Side) : p.edges.endOn side c < p.vars.size := by
  rw [← Problem.size_vars_eq hg, ← Problem.edges_eq hg]
  exact ha.consistent.endOn_lt ((Problem.size_constraints_eq hg).symm ▸ hc) side

/-- The blocks `b` and `f`, with `f` nearer to `side`, have been merged to `t` across a constraint with
slack `x`, which is divided between them. -/
structure Meeting (p : Problem Rat) (side : Side) (a a' : Arrangement Rat) (b f t : BlockId)
    (near far x : Rat) : Prop where
  far_pos : 0 < far
  sum_eq : near + far = 1
  mem_iff : ∀ v < p.vars.size, a'.blockOf v = t ↔ a.blockOf v = b ∨ a.blockOf v = f
  along_near : ∀ v < p.vars.size, a.blockOf v = b → a'.along side v = a.along side v - near * x
  along_far : ∀ v < p.vars.size, a.blockOf v = f → a'.along side v = a.along side v + far * x
  along_other : ∀ v < p.vars.size, a.blockOf v ≠ b → a.blockOf v ≠ f →
    a'.along side v = a.along side v

theorem Merged.meeting (h : Merged a a' c t r s B shift) (ha : a.Intact) (hb : a.Balanced)
    (hg : a.problem.given = p.given) (hc : a.Crosses side b c) : ∃ near far : Rat,
      Meeting p side a a' b (a.blockOf (p.edges.endOn side c)) t near far (a.slack c) := by
  obtain ⟨Bl, hl⟩ := ha.exists_block (ha.consistent.leftEnd_lt h.lt_size)
  obtain ⟨Br, hr⟩ := ha.exists_block (ha.consistent.rightEnd_lt h.lt_size)
  have hl : a.block? (a.leftBlock c) = some Bl := hl
  have hr : a.block? (a.rightBlock c) = some Br := hr
  have hWl := hb.weight_pos ha hl
  have hWr := hb.weight_pos ha hr
  have hsum : Bl.weight / (Bl.weight + Br.weight) + Br.weight / (Bl.weight + Br.weight) = 1 := by
    field_simp
  have hl' := div_pos hWl (add_pos hWl hWr)
  have hr' := div_pos hWr (add_pos hWl hWr)
  rw [← Problem.edges_eq hg]
  have hmove (v : VarId) (hv : v < p.vars.size) :=
    h.position_eq ha hb hl hr ((Problem.size_vars_eq hg).symm ▸ hv)
  have hstay (v : VarId) := h.position_of_ne ha (v := v)
  have hmem (v : VarId) (hv : v < p.vars.size) :
      a'.blockOf v = t ↔ a.blockOf v = a.leftBlock c ∨ a.blockOf v = a.rightBlock c :=
    h.blockOf_eq_iff_ends ha ((Problem.size_vars_eq hg).symm ▸ hv)
  rcases hc.blocks with ⟨rfl, hnear, hfar⟩ | ⟨rfl, hnear, hfar⟩
  · refine ⟨_, _, hr', hsum, fun v hv => ?_, fun v hv hvb => ?_, fun v hv hvf => ?_,
      fun v _ hvb hvf => ?_⟩
    · rw [hmem v hv, hnear, hfar]
      exact or_comm
    · rw [along, along, (hmove v hv).2 (hvb.trans hnear.symm), Side.sign]
      ring
    · rw [along, along, (hmove v hv).1 (hvf.trans hfar.symm), Side.sign]
      ring
    · rw [along, along, hstay v (hfar ▸ hvf) (hnear ▸ hvb)]
  · refine ⟨_, _, hl', (add_comm _ _).trans hsum, fun v hv => ?_, fun v hv hvb => ?_,
      fun v hv hvf => ?_, fun v _ hvb hvf => ?_⟩
    · rw [hmem v hv, hnear, hfar]
    · rw [along, along, (hmove v hv).1 (hvb.trans hnear.symm), Side.sign]
      ring
    · rw [along, along, (hmove v hv).2 (hvf.trans hfar.symm), Side.sign]
      ring
    · rw [along, along, hstay v (hnear ▸ hvb) (hfar ▸ hvf)]

/-- Places, counted away from `side`, that satisfy the constraints with their near end in `Q`, which
then have the other end there too. -/
structure Base (p : Problem Rat) (side : Side) (Q : VarId → Prop) (y : VarId → Rat) : Prop where
  closed : ∀ c < p.constraints.size, Q (p.edges.endOn side.other c) → Q (p.edges.endOn side c)
  satisfied : ∀ c < p.constraints.size, Q (p.edges.endOn side.other c) →
    0 ≤ y (p.edges.endOn side.other c) - y (p.edges.endOn side c) - (p.constraintAt c).gap

structure Pushed (p : Problem Rat) (side : Side) (Q : VarId → Prop) (y : VarId → Rat)
    (a : Arrangement Rat) (b : BlockId) : Prop where
  given_eq : a.problem.given = p.given
  balanced : a.Balanced
  together : ∀ u < p.vars.size, ∀ v < p.vars.size, a.blockOf u = a.blockOf v → u = v ∨ (Q u ∧ Q v)
  inside : ∀ v < p.vars.size, a.blockOf v = b → Q v
  outside : ∀ v < p.vars.size, a.blockOf v ≠ b → a.along side v = y v
  behind : ∀ v < p.vars.size, a.blockOf v = b → a.along side v ≤ y v
  /-- The block is behind its base by as much as a constraint on its boundary is violated. -/
  below : ∀ v < p.vars.size, a.blockOf v = b → ∀ c, a.Crosses side b c →
    a.along side v - y v ≤ a.slack c
  within : ∀ c < p.constraints.size, a.blockOf (p.edges.endOn side.other c) = b →
    a.blockOf (p.edges.endOn side c) = b → 0 ≤ a.slack c

theorem Still.crosses_iff (h : Still a a') : a'.Crosses side b c ↔ a.Crosses side b c := by
  have hm := Problem.size_constraints_eq h.given_eq
  constructor
  · rintro ⟨h₁, h₂, h₃⟩
    rw [h.edges_eq, h.blockOf_eq] at h₂ h₃
    exact ⟨hm ▸ h₁, h₂, h₃⟩
  · rintro ⟨h₁, h₂, h₃⟩
    refine ⟨hm.symm ▸ h₁, ?_, ?_⟩
    · rwa [h.edges_eq, h.blockOf_eq]
    · rwa [h.edges_eq, h.blockOf_eq]

theorem Still.along_eq (h : Still a a') (v : VarId) : a'.along side v = a.along side v := by
  rw [along, along, h.position_eq]

theorem Pushed.still (h : Still a a') (hp : Pushed p side Q y a b) : Pushed p side Q y a' b where
  given_eq := h.given_eq.trans hp.given_eq
  balanced := hp.balanced.still h
  together u hu v hv huv := by
    rw [h.blockOf_eq, h.blockOf_eq] at huv
    exact hp.together u hu v hv huv
  inside v hv hvb := hp.inside v hv ((h.blockOf_eq v).symm.trans hvb)
  outside v hv hvb := by
    rw [h.along_eq]
    exact hp.outside v hv ((h.blockOf_eq v).symm ▸ hvb)
  behind v hv hvb := by
    rw [h.along_eq]
    exact hp.behind v hv ((h.blockOf_eq v).symm.trans hvb)
  below v hv hvb c hc := by
    rw [h.along_eq, h.slack_eq]
    exact hp.below v hv ((h.blockOf_eq v).symm.trans hvb) c (h.crosses_iff.mp hc)
  within c hc hn hf := by
    rw [h.blockOf_eq] at hn hf
    rw [h.slack_eq]
    exact hp.within c hc hn hf

theorem Pushed.across (hp : Pushed p side Q y a b) (ha : a.Intact) (hbase : Base p side Q y)
    (hc : a.Crosses side b c) (hv : v < p.vars.size)
    (hvf : a.blockOf v = a.blockOf (p.edges.endOn side c)) : Q v ∧ a.along side v = y v := by
  obtain ⟨hlt, hnear, hfar⟩ := (crosses_of_given hp.given_eq).mp hc
  have hend := ha.endOn_lt_of_given hp.given_eq hlt
  refine ⟨?_, hp.outside v hv (hvf ▸ hfar)⟩
  rcases hp.together v hv _ (hend side) hvf with rfl | ⟨hQ, -⟩
  · exact hbase.closed c hlt (hp.inside _ (hend side.other) hnear)
  · exact hQ

section Merge

variable {f : BlockId} {near far x : Rat} (hm : Meeting p side a a' b f t near far x)
  (hx : x < 0) (ha : a.Intact) (hp : Pushed p side Q y a b) (hg : a'.problem.given = p.given)
  (hbase : Base p side Q y) (hfar : ∀ v < p.vars.size, a.blockOf v = f → Q v ∧ a.along side v = y v)
include hm hx

theorem Meeting.neg : near * x = x - far * x ∧ far * x < 0 := by
  constructor
  · have hwhole : (near + far) * x = x := by rw [hm.sum_eq, one_mul]
    linarith
  · exact mul_neg_of_pos_of_neg hm.far_pos hx

include hfar

theorem Meeting.along_le (hbelow : ∀ v < p.vars.size, a.blockOf v = b → a.along side v - y v ≤ x)
    (hv : v < p.vars.size) (hvt : a'.blockOf v = t) : a'.along side v - y v ≤ far * x := by
  obtain ⟨hoff, -⟩ := hm.neg hx
  rcases (hm.mem_iff v hv).mp hvt with hvb | hvf
  · have := hbelow v hv hvb
    rw [hm.along_near v hv hvb]
    linarith
  · rw [hm.along_far v hv hvf, (hfar v hv hvf).2]
    linarith

include ha hp hg hbase

theorem Meeting.le_slack (hleast : ∀ d, a.Crosses side b d → x ≤ a.slack d)
    (hd : a'.Crosses side t d) : far * x ≤ a'.slack d := by
  obtain ⟨hoff, hneg⟩ := hm.neg hx
  obtain ⟨hlt, hdn, hdf⟩ := (crosses_of_given hg).mp hd
  have hnlt := ha.endOn_lt_of_given hp.given_eq hlt side.other
  have hflt := ha.endOn_lt_of_given hp.given_eq hlt side
  rw [Ne, hm.mem_iff _ hflt, not_or] at hdf
  rw [slack_of_given hg side, hm.along_other _ hflt hdf.1 hdf.2]
  rcases (hm.mem_iff _ hnlt).mp hdn with hnb | hnf
  · have := hleast d ((crosses_of_given hp.given_eq).mpr ⟨hlt, hnb, hdf.1⟩)
    rw [slack_of_given hp.given_eq side] at this
    rw [hm.along_near _ hnlt hnb]
    linarith
  · have := hbase.satisfied d hlt (hfar _ hnlt hnf).1
    rw [hm.along_far _ hnlt hnf, (hfar _ hnlt hnf).2, hp.outside _ hflt hdf.1]
    linarith

theorem Meeting.slack_nonneg (hfb : f ≠ b) (hleast : ∀ d, a.Crosses side b d → x ≤ a.slack d)
    (hbelow : ∀ v < p.vars.size, a.blockOf v = b → a.along side v - y v ≤ x)
    (hd : d < p.constraints.size) (hdn : a'.blockOf (p.edges.endOn side.other d) = t)
    (hdf : a'.blockOf (p.edges.endOn side d) = t) : 0 ≤ a'.slack d := by
  obtain ⟨hoff, hneg⟩ := hm.neg hx
  have hnlt := ha.endOn_lt_of_given hp.given_eq hd side.other
  have hflt := ha.endOn_lt_of_given hp.given_eq hd side
  rw [slack_of_given hg side]
  rcases (hm.mem_iff _ hnlt).mp hdn with hnb | hnf <;>
    rcases (hm.mem_iff _ hflt).mp hdf with hfb' | hff
  · have := hp.within d hd hnb hfb'
    rw [slack_of_given hp.given_eq side] at this
    rw [hm.along_near _ hnlt hnb, hm.along_near _ hflt hfb']
    linarith
  · have := hleast d ((crosses_of_given hp.given_eq).mpr ⟨hd, hnb, hff ▸ hfb⟩)
    rw [slack_of_given hp.given_eq side] at this
    rw [hm.along_near _ hnlt hnb, hm.along_far _ hflt hff]
    linarith
  · have hsat := hbase.satisfied d hd (hfar _ hnlt hnf).1
    have := hbelow _ hflt hfb'
    rw [hm.along_far _ hnlt hnf, hm.along_near _ hflt hfb', (hfar _ hnlt hnf).2]
    linarith
  · have hsat := hbase.satisfied d hd (hfar _ hnlt hnf).1
    rw [hm.along_far _ hnlt hnf, hm.along_far _ hflt hff, (hfar _ hnlt hnf).2, (hfar _ hflt hff).2]
    linarith

end Merge

theorem Merged.pushed (h : Merged a a' c t r s B shift) (ha : a.Intact) (hc : a.Crosses side b c)
    (hneg : a.slack c < 0) (hleast : ∀ d, a.Crosses side b d → a.slack c ≤ a.slack d)
    (hbase : Base p side Q y) (hp : Pushed p side Q y a b) : Pushed p side Q y a' t := by
  obtain ⟨near, far, hm⟩ := h.meeting ha hp.balanced hp.given_eq hc
  obtain ⟨-, -, hfb⟩ := (crosses_of_given hp.given_eq).mp hc
  have hg := h.given_eq.trans hp.given_eq
  have hsize := Problem.size_vars_eq hp.given_eq
  have hfar (v : VarId) (hv : v < p.vars.size)
      (hvf : a.blockOf v = a.blockOf (p.edges.endOn side c)) := hp.across ha hbase hc hv hvf
  have hbelow (v : VarId) (hv : v < p.vars.size) (hvb : a.blockOf v = b) :=
    hp.below v hv hvb c hc
  have hinside (v : VarId) (hv : v < p.vars.size) (hvt : a'.blockOf v = t) : Q v := by
    rcases (hm.mem_iff v hv).mp hvt with hvb | hvf
    · exact hp.inside v hv hvb
    · exact (hfar v hv hvf).1
  constructor
  case given_eq => exact hg
  case balanced => exact h.balanced ha hp.balanced
  case together =>
    have htogether := hp.together
    rw [← hsize] at htogether hinside ⊢
    exact h.eq_or_of_blockOf_eq ha htogether hinside
  case inside => exact hinside
  case outside =>
    intro v hv hvt
    rw [Ne, hm.mem_iff v hv, not_or] at hvt
    rw [hm.along_other v hv hvt.1 hvt.2]
    exact hp.outside v hv hvt.1
  case behind =>
    intro v hv hvt
    have := hm.along_le hneg hfar hbelow hv hvt
    have := (hm.neg hneg).2
    linarith
  case below =>
    intro v hv hvt d hd
    exact (hm.along_le hneg hfar hbelow hv hvt).trans (hm.le_slack hneg ha hp hg hbase hfar hleast hd)
  case within =>
    intro d hd hdn hdf
    exact hm.slack_nonneg hneg ha hp hg hbase hfar hfb hleast hbelow hd hdn hdf

theorem loopInvariant_pushed (hp : p.Inequalities) (side : Side) (Q : VarId → Prop) :
    LoopInvariant side fun a b => ∃ y, Base p side Q y ∧ Pushed p side Q y a b where
  collect := fun a _ i _ ⟨y, hbase, h⟩ => ⟨y, hbase, h.still (still_collectBoundary a side i)⟩
  merge := by
    rintro a b c a' t ha hb hk ⟨y, hbase, h⟩ hn hc hm
    obtain ⟨hneg, hleast⟩ := slack_of_nextMerge ha (hp.given h.given_eq.symm) hb hk hn
    obtain ⟨r, s, B, shift, hmerged⟩ := merged_of_merge hm
    exact ⟨y, hbase, hmerged.pushed ha hc hneg hleast hbase h⟩

theorem Pushed.slack_nonneg (ha : a.Intact) (hb : (a.block? b).isSome)
    (hk : a.Known side b) (hn : a.nextMerge side b = none) (hbase : Base p side Q y)
    (hp : Pushed p side Q y a b) (hc : c < p.constraints.size)
    (hQ : Q (p.edges.endOn side.other c)) : 0 ≤ a.slack c := by
  have hend := ha.endOn_lt_of_given hp.given_eq hc
  have hsat := hbase.satisfied c hc hQ
  have hslack := slack_of_given hp.given_eq side c
  by_cases hnb : a.blockOf (p.edges.endOn side.other c) = b
  · by_cases hfb : a.blockOf (p.edges.endOn side c) = b
    · exact hp.within c hc hnb hfb
    · exact (slack_of_nextMerge_none ha hb hk hn
        ((crosses_of_given hp.given_eq).mpr ⟨hc, hnb, hfb⟩)).2
  · have hnear := hp.outside _ (hend _) hnb
    by_cases hfb : a.blockOf (p.edges.endOn side c) = b
    · have hfar := hp.behind _ (hend _) hfb
      linarith
    · have hfar := hp.outside _ (hend _) hfb
      linarith

end Arrangement

end Spacing
