import Mathlib.Tactic.LinearCombination
import Spacing.Proofs.Exact.Release
/-!
Descent: with exact numbers and without equalities, a block that follows its pull and merges on the way
pays for every merge out of what the pull gains. It gains in proportion to its pull and to how far it has
moved from its base, and a merge moves it back by so little that this covers the cost of the merge.
-/

namespace Spacing

theorem sum_eq_of_forall_zero {xs ys : List VarId} (hx : xs.Nodup) (hy : ys.Nodup)
    (hsub : ∀ v ∈ xs, v ∈ ys) {f : VarId → Rat} (hf : ∀ v ∈ ys, v ∉ xs → f v = 0) :
    (ys.map f).sum = (xs.map f).sum := by
  have hperm : (ys.filter fun v => decide (v ∈ xs)).Perm xs := by
    refine (List.perm_ext_iff_of_nodup (hy.filter _) hx).mpr fun v => ?_
    rw [List.mem_filter, decide_eq_true_iff]
    exact and_iff_right_of_imp (hsub v)
  rw [← (hperm.map f).sum_eq, ← sum_map_ite]
  refine congrArg List.sum (List.map_congr_left fun v hv => ?_)
  by_cases hvx : v ∈ xs
  · simp only [hvx, decide_true, if_true]
  · simp only [hvx, decide_false, hf v hv hvx, ite_self]

theorem Side.sign_mul_sign (side : Side) : side.sign * side.sign = 1 := by
  cases side
  · exact one_mul 1
  · exact (neg_mul_neg 1 1).trans (one_mul 1)

namespace Problem

variable {p q : Problem Rat} {x y z : VarId → Rat} {vs ws : List VarId} {side : Side} {d : Rat}

theorem costAt_moved (hn : vs.Nodup) (hlt : ∀ v ∈ vs, v < p.vars.size)
    (hoff : ∀ v < p.vars.size, v ∉ vs → y v = x v) :
    p.costAt y = p.costAt x + (vs.map fun v => (p.variableAt v).weight * (y v - x v) ^ 2).sum +
      2 * p.work x (fun v => y v - x v) vs := by
  have hmem (v : VarId) (hv : v ∈ vs) : v ∈ p.variableIds := List.mem_range.mpr (hlt v hv)
  have hstay (v : VarId) (hv : v ∈ p.variableIds) (hvs : v ∉ vs) : y v - x v = 0 :=
    sub_eq_zero.mpr (hoff v (List.mem_range.mp hv) hvs)
  have hdistance : p.distance x y =
      (vs.map fun v => (p.variableAt v).weight * (y v - x v) ^ 2).sum := by
    refine sum_eq_of_forall_zero hn List.nodup_range hmem fun v hv hvs => ?_
    rw [hstay v hv hvs, zero_pow two_ne_zero, mul_zero]
  have hwork : p.work x (fun v => y v - x v) p.variableIds = p.work x (fun v => y v - x v) vs := by
    refine sum_eq_of_forall_zero hn List.nodup_range hmem fun v hv hvs => ?_
    simp only [hstay v hv hvs, mul_zero]
  rw [costAt_eq, hdistance, hwork]

theorem sum_sq_of_forall_eq (h : ∀ v ∈ vs, y v - x v = d) :
    (vs.map fun v => (p.variableAt v).weight * (y v - x v) ^ 2).sum = p.mass vs * d ^ 2 := by
  rw [mass, ← List.sum_map_mul_right]
  refine congrArg List.sum (List.map_congr_left fun v hv => ?_)
  rw [h v hv]

def pull (p : Problem Rat) (side : Side) (y : VarId → Rat) (vs : List VarId) : Rat :=
  side.sign * p.tension (fun v => side.sign * y v) vs

theorem pull_append : p.pull side y (vs ++ ws) = p.pull side y vs + p.pull side y ws := by
  rw [pull, tension_append, mul_add]
  rfl

theorem pull_perm (h : vs.Perm ws) : p.pull side y vs = p.pull side y ws := by
  rw [pull, tension_perm h]
  rfl

theorem pull_congr (h : ∀ v ∈ vs, y v = z v) : p.pull side y vs = p.pull side z vs := by
  rw [pull, tension_congr fun v hv => congrArg (side.sign * ·) (h v hv)]
  rfl

theorem pull_le (hw : p.Weighted) (hlt : ∀ v ∈ vs, v < p.vars.size) (h : ∀ v ∈ vs, y v ≤ z v + d) :
    p.pull side y vs ≤ p.pull side z vs + p.mass vs * d := by
  have hterm (y : VarId → Rat) : p.pull side y vs =
      (vs.map fun v => (p.variableAt v).weight * (y v - side.sign * (p.variableAt v).desired)).sum := by
    rw [pull, tension, ← List.sum_map_mul_left]
    refine congrArg List.sum (List.map_congr_left fun v _ => ?_)
    have hone := side.sign_mul_sign
    linear_combination (p.variableAt v).weight * y v * hone
  rw [hterm, hterm, mass, ← List.sum_map_mul_right, ← List.sum_map_add]
  refine List.sum_le_sum fun v hv => ?_
  have hle := mul_le_mul_of_nonneg_left (h v hv) (hw v (hlt v hv)).le
  linarith

end Problem

namespace Arrangement

variable {a a' : Arrangement Rat} {b f t r l : BlockId} {s B F T : Block Rat} {c : ConId}
  {u v w : VarId} {shift near far x z κ τ : Rat} {L R : List VarId} {side : Side} {p : Problem Rat}
  {y : VarId → Rat}

theorem Halved.cost_eq (h : Halved a a' c l r B L R) (ha : a.Intact) (hc : c ∈ a.problem.active) :
    a'.cost = a.cost := by
  rw [cost_of_given h.given_eq, cost_eq_costAt]
  exact Problem.costAt_congr fun v hv => h.position_eq ha hc hv

theorem position_along (side : Side) (v : VarId) : a.position v = side.sign * a.along side v := by
  rw [along, ← mul_assoc, side.sign_mul_sign, one_mul]

theorem pull_along (hB : a.block? b = some B) (hg : a.problem.given = p.given) :
    p.pull side (a.along side) B.members = side.sign * a.tension b := by
  rw [Problem.pull, tension_eq hB, Problem.tension_given hg]
  exact congrArg _ (Problem.tension_congr fun v _ => (position_along side v).symm)

theorem Balanced.mass_pos (hb : a.Balanced) (ha : a.Intact) (hB : a.block? b = some B)
    (hg : a.problem.given = p.given) : 0 < p.mass B.members := by
  rw [← Problem.mass_given hg, ← hb.weight_eq b B hB]
  exact hb.weight_pos ha hB

theorem cost_settle (ha : a.Intact) (hb : a.Balanced) (hB : a.block? b = some B) :
    (a.settle b).cost = a.cost - a.tension b ^ 2 / B.weight := by
  have hW := hb.weight_pos ha hB
  have hmoved (v : VarId) (hv : v ∈ B.members) :
      (a.settle b).position v - a.position v = -(a.tension b / B.weight) := by
    rw [position_settle ha hb hB (ha.blockOf_eq hB hv)]
    ring
  have hcost := Problem.costAt_moved (p := a.problem) (x := a.position) (y := (a.settle b).position)
    (ha.nodup b B hB) (fun v hv => ha.lt_of_mem hB hv)
    fun v hv hvB => position_settle_of_ne fun hvb => hvB (ha.mem_of_blockOf hB hv hvb)
  rw [Problem.sum_sq_of_forall_eq hmoved, Problem.work_of_forall_eq hmoved, ← tension_eq hB,
    ← hb.weight_eq b B hB, ← cost_eq_costAt] at hcost
  rw [cost_eq_costAt]
  refine hcost.trans ?_
  field_simp
  ring

theorem Intact.nodup_append (ha : a.Intact) (hB : a.block? b = some B) (hF : a.block? f = some F)
    (hfb : f ≠ b) : (B.members ++ F.members).Nodup :=
  List.nodup_append.mpr ⟨ha.nodup b B hB, ha.nodup f F hF, fun _ hv _ hw he =>
    hfb ((ha.blockOf_eq hF hw).symm.trans (he ▸ ha.blockOf_eq hB hv))⟩

section Meeting

variable (hm : Meeting p side a a' b f t near far x) (ha : a.Intact)
  (hg : a.problem.given = p.given) (hB : a.block? b = some B) (hF : a.block? f = some F) (hfb : f ≠ b)
include hm ha hg hB hF

theorem Meeting.position_sub :
    (∀ v ∈ B.members, a'.position v - a.position v = -(side.sign * near * x)) ∧
    ∀ v ∈ F.members, a'.position v - a.position v = side.sign * far * x := by
  have hlt (v : VarId) (hv : v < a.problem.vars.size) : v < p.vars.size := Problem.size_vars_eq hg ▸ hv
  constructor
  · intro v hv
    have halong := hm.along_near v (hlt v (ha.lt_of_mem hB hv)) (ha.blockOf_eq hB hv)
    rw [position_along side, halong, position_along side]
    ring
  · intro v hv
    have halong := hm.along_far v (hlt v (ha.lt_of_mem hF hv)) (ha.blockOf_eq hF hv)
    rw [position_along side, halong, position_along side]
    ring

include hfb

theorem Meeting.members_perm (ha' : a'.Intact) (hg' : a'.problem.given = p.given)
    (hT : a'.block? t = some T) : T.members.Perm (B.members ++ F.members) := by
  refine (List.perm_ext_iff_of_nodup (ha'.nodup t T hT) (ha.nodup_append hB hF hfb)).mpr fun v => ?_
  have hmem := hm.mem_iff v
  rw [ha'.mem_iff t T hT, List.mem_append, ha.mem_iff b B hB, ha.mem_iff f F hF,
    Problem.size_vars_eq hg, Problem.size_vars_eq hg']
  constructor
  · rintro ⟨hv, hvt⟩
    exact ((hmem hv).mp hvt).imp (⟨hv, ·⟩) (⟨hv, ·⟩)
  · rintro (⟨hv, hvb⟩ | ⟨hv, hvf⟩)
    · exact ⟨hv, (hmem hv).mpr (.inl hvb)⟩
    · exact ⟨hv, (hmem hv).mpr (.inr hvf)⟩

theorem Meeting.mass_eq (ha' : a'.Intact) (hg' : a'.problem.given = p.given)
    (hT : a'.block? t = some T) (hx : x ≠ 0) (hsum : a'.tension t = a.tension b + a.tension f) :
    near * p.mass B.members = far * p.mass F.members := by
  obtain ⟨hnear, hfar⟩ := hm.position_sub ha hg hB hF
  have hleft := Problem.tension_shift (p := p) (x := a.position) (y := a'.position)
    fun v (hv : v ∈ B.members) => sub_eq_iff_eq_add'.mp (hnear v hv)
  have hright := Problem.tension_shift (p := p) (x := a.position) (y := a'.position)
    fun v (hv : v ∈ F.members) => sub_eq_iff_eq_add'.mp (hfar v hv)
  rw [tension_eq hT, tension_eq hB, tension_eq hF, Problem.tension_given hg',
    Problem.tension_given hg, Problem.tension_given hg,
    Problem.tension_perm (hm.members_perm ha hg hB hF hfb ha' hg' hT), Problem.tension_append, hleft,
    hright] at hsum
  have hzero : side.sign * x * (far * p.mass F.members - near * p.mass B.members) = 0 := by
    linarith
  have hsign : side.sign ≠ 0 := fun h => by
    have := side.sign_mul_sign
    rw [h, zero_mul] at this
    exact zero_ne_one this
  have hdiff := (mul_eq_zero.mp hzero).resolve_left (mul_ne_zero hsign hx)
  linarith

theorem Meeting.cost_eq (hg' : a'.problem.given = p.given) (hb : a.tension b = 0)
    (hf : a.tension f = 0) :
    a'.cost = a.cost + (near ^ 2 * p.mass B.members + far ^ 2 * p.mass F.members) * x ^ 2 := by
  obtain ⟨hnear, hfar⟩ := hm.position_sub ha hg hB hF
  have hlt (v : VarId) (hv : v ∈ B.members ++ F.members) : v < p.vars.size := by
    rw [← Problem.size_vars_eq hg]
    exact (List.mem_append.mp hv).elim (ha.lt_of_mem hB) (ha.lt_of_mem hF)
  have hoff (v : VarId) (hv : v < p.vars.size) (hout : v ∉ B.members ++ F.members) :
      a'.position v = a.position v := by
    rw [List.mem_append, ha.mem_iff b B hB, ha.mem_iff f F hF, Problem.size_vars_eq hg, not_or] at hout
    rw [position_along side, position_along (a := a) side,
      hm.along_other v hv (fun h => hout.1 ⟨hv, h⟩) (fun h => hout.2 ⟨hv, h⟩)]
  have hcost := Problem.costAt_moved (ha.nodup_append hB hF hfb) hlt hoff
  rw [List.map_append, List.sum_append, Problem.work_append, Problem.sum_sq_of_forall_eq hnear,
    Problem.sum_sq_of_forall_eq hfar, Problem.work_of_forall_eq hnear,
    Problem.work_of_forall_eq hfar, ← Problem.tension_given hg, ← Problem.tension_given hg,
    ← tension_eq hB, ← tension_eq hF, hb, hf, ← cost_of_given hg, ← cost_of_given hg'] at hcost
  rw [hcost]
  linear_combination (near ^ 2 * p.mass B.members + far ^ 2 * p.mass F.members) * x ^ 2 *
    side.sign_mul_sign

end Meeting

/-- The block of `u` has moved towards `side` from the base `y`, where its members were pulled by `τ`, and
the gain since the cost was `κ` is at least in proportion. -/
structure Lowered (p : Problem Rat) (side : Side) (y : VarId → Rat) (κ τ : Rat) (u : VarId)
    (a : Arrangement Rat) (b : BlockId) : Prop where
  member : a.blockOf u = b
  behind : a.along side u < y u
  pull_eq : p.pull side y (a.blockAt b).members = τ
  cost_le : a.cost ≤ κ + τ * (a.along side u - y u)

theorem Lowered.still (h : Still a a') (hl : Lowered p side y κ τ u a b) :
    Lowered p side y κ τ u a' b where
  member := (h.blockOf_eq u).trans hl.member
  behind := by
    rw [h.along_eq]
    exact hl.behind
  pull_eq := by
    rw [h.members_eq]
    exact hl.pull_eq
  cost_le := by
    rw [h.cost_eq, h.along_eq]
    exact hl.cost_le

theorem Lowered.cost_lt (hl : Lowered p side y κ τ u a b) (hτ : 0 < τ) : a.cost < κ := by
  have hgain := mul_neg_of_pos_of_neg hτ (sub_neg.mpr hl.behind)
  have hle := hl.cost_le
  linarith

theorem lowered_settle (ha : a.Intact) (hb : a.Balanced) (hg : a.problem.given = p.given)
    (hB : a.block? b = some B) (hu : u ∈ B.members) (hτ : 0 < side.sign * a.tension b) :
    Lowered p side (a.along side) a.cost (side.sign * a.tension b) u (a.settle b) b := by
  have hW := hb.weight_pos ha hB
  have hub := ha.blockOf_eq hB hu
  have hmove : (a.settle b).along side u - a.along side u =
      -(side.sign * a.tension b / B.weight) := by
    rw [along, along, position_settle ha hb hB hub]
    ring
  constructor
  case member => exact hub
  case behind =>
    have := div_pos hτ hW
    linarith
  case pull_eq =>
    rw [blockAt_eq (blockAt_settle hB)]
    change p.pull side (a.along side) B.members = _
    exact pull_along hB hg
  case cost_le =>
    rw [hmove, cost_settle ha hb hB]
    apply le_of_eq
    linear_combination (a.tension b ^ 2 / B.weight) * side.sign_mul_sign

theorem Pushed.mass_mul_le (hp : Pushed p side (fun _ => True) y a b) (ha : a.Intact)
    (hB : a.block? b = some B) (hrests : a.tension b = 0) (hc : a.Crosses side b c) :
    -(p.mass B.members * a.slack c) ≤ p.pull side y B.members := by
  have hlt (v : VarId) (hv : v ∈ B.members) : v < p.vars.size :=
    Problem.size_vars_eq hp.given_eq ▸ ha.lt_of_mem hB hv
  have hw : p.Weighted := hp.balanced.weighted.of_given hp.given_eq.symm
  have hle : p.pull side (a.along side) B.members ≤
      p.pull side y B.members + p.mass B.members * a.slack c := by
    refine Problem.pull_le hw hlt fun v hv => ?_
    have hbelow := hp.below v (hlt v hv) (ha.blockOf_eq hB hv) c hc
    linarith
  rw [pull_along hB hp.given_eq, hrests, mul_zero] at hle
  linarith

theorem Merged.tension_far (h : Merged a a' c t r s B shift) (ha : a.Intact) (hb : a.Balanced)
    (hc : a.Crosses side b c) (hg : a.problem.given = p.given) :
    a'.tension t = a.tension b + a.tension (a.blockOf (p.edges.endOn side c)) := by
  rw [h.tension_survivor ha hb, ← Problem.edges_eq hg]
  rcases hc.blocks with ⟨-, hnear, hfar⟩ | ⟨-, hnear, hfar⟩
  · rw [hnear, hfar, add_comm]
  · rw [hnear, hfar]

theorem Merged.lowered (h : Merged a a' c t r s B shift) (ha : a.Intact) (ha' : a'.Intact)
    (hc : a.Crosses side b c) (hneg : a.slack c < 0) (hbase : Base p side (fun _ => True) y)
    (hp : Pushed p side (fun _ => True) y a b) (hb : a.tension b = 0)
    (hf : a.tension (a.blockOf (p.edges.endOn side c)) = 0) (hu : u < p.vars.size)
    (hl : Lowered p side y κ τ u a b) : Lowered p side y κ τ u a' t := by
  let f := a.blockOf (p.edges.endOn side c)
  have hg := hp.given_eq
  have hg' := h.given_eq.trans hg
  obtain ⟨hclt, -, hfb⟩ := (crosses_of_given hg).mp hc
  have hfb : f ≠ b := hfb
  obtain ⟨near, far, hm⟩ := h.meeting ha hp.balanced hg hc
  have hfar (v : VarId) (hv : v < p.vars.size) (hvf : a.blockOf v = f) := hp.across ha hbase hc hv hvf
  obtain ⟨D, hD⟩ : ∃ D, a.block? b = some D :=
    hl.member ▸ ha.exists_block ((Problem.size_vars_eq hg).symm ▸ hu)
  obtain ⟨F, hF⟩ : ∃ F, a.block? f = some F :=
    ha.exists_block ((Problem.size_vars_eq hg).symm ▸ ha.endOn_lt_of_given hg hclt side)
  have hT := h.block?_survivor
  have hperm := hm.members_perm ha hg hD hF hfb ha' hg' hT
  have hpull : p.pull side y D.members = τ := blockAt_eq hD ▸ hl.pull_eq
  have hrests : p.pull side y F.members = 0 := by
    have hstay (v : VarId) (hv : v ∈ F.members) : a.along side v = y v :=
      (hfar v (Problem.size_vars_eq hg ▸ ha.lt_of_mem hF hv) (ha.blockOf_eq hF hv)).2
    rw [← Problem.pull_congr hstay, pull_along hF hg]
    exact mul_eq_zero_of_right _ hf
  have halong := hm.along_near u hu hl.member
  constructor
  case member => exact (hm.mem_iff u hu).mpr (.inl hl.member)
  case behind =>
    have hle := hm.along_le hneg hfar (fun v hv hvb => hp.below v hv hvb c hc) hu
      ((hm.mem_iff u hu).mpr (.inl hl.member))
    have := (hm.neg hneg).2
    linarith
  case pull_eq =>
    rw [blockAt_eq hT, Problem.pull_perm hperm, Problem.pull_append, hpull, hrests, add_zero]
  case cost_le =>
    have hmass := hm.mass_eq ha hg hD hF hfb ha' hg' hT hneg.ne (h.tension_far ha hp.balanced hc hg)
    have hcost := hm.cost_eq ha hg hD hF hfb hg' hb hf
    have hshare : near ^ 2 * p.mass D.members + far ^ 2 * p.mass F.members = near * p.mass D.members := by
      have hone := hm.sum_eq
      linear_combination -far * hmass + near * p.mass D.members * hone
    have hroom := hp.mass_mul_le ha hD hb hc
    have hnear : 0 ≤ near := by
      apply nonneg_of_mul_nonneg_left _ (hp.balanced.mass_pos ha hD hg)
      rw [hmass]
      exact mul_nonneg hm.far_pos.le (hp.balanced.mass_pos ha hF hg).le
    have hold := hl.cost_le
    -- The merge takes the block a step back. The bound rises by more than that costs, because the block
    -- has moved from the base at least as far as `c` is violated now.
    have hpay : 0 ≤ near * -a.slack c * (τ + p.mass D.members * a.slack c) := by
      apply mul_nonneg (mul_nonneg hnear (by linarith))
      linarith
    rw [hcost, hshare, halong]
    linarith

theorem Pulled.tension_eq_zero {i j : BlockId} (h : a.Pulled w z) (hne : i ≠ j)
    (hsum : a.tension i + a.tension j = 0) : a.tension i = 0 ∧ a.tension j = 0 := by
  by_cases hi : i = a.blockOf w
  · have hj : a.tension j = 0 := by rw [h.tension_eq, if_neg (hi ▸ hne.symm)]
    rw [hj, add_zero] at hsum
    exact ⟨hsum, hj⟩
  · have hi : a.tension i = 0 := by rw [h.tension_eq, if_neg hi]
    rw [hi, zero_add] at hsum
    exact ⟨hi, hsum⟩

/-- What holds while a block that has followed its pull merges on. As soon as it has met the block that
is still pulled, nothing is known of the cost. -/
structure Descending (p : Problem Rat) (side : Side) (y : VarId → Rat) (κ τ : Rat) (u w : VarId)
    (z : Rat) (a : Arrangement Rat) (b : BlockId) : Prop where
  pushed : Pushed p side (fun _ => True) y a b
  pulled : a.Pulled w z
  lowered : a.tension b = 0 → Lowered p side y κ τ u a b

theorem Descending.still (h : Still a a') (hd : Descending p side y κ τ u w z a b) :
    Descending p side y κ τ u w z a' b where
  pushed := hd.pushed.still h
  pulled := h.pulled hd.pulled
  lowered hrests := (hd.lowered (h.tension_eq b ▸ hrests)).still h

theorem loopInvariant_descending (hi : p.Inequalities) (hbase : Base p side (fun _ => True) y)
    (hu : u < p.vars.size) (hw : w < p.vars.size) :
    LoopInvariant side (Descending p side y κ τ u w z) where
  collect a _ i _ h := h.still (still_collectBoundary a side i)
  merge a b c a' t ha hb hk h hn hc hm := by
    have hg := h.pushed.given_eq
    obtain ⟨hneg, hleast⟩ := slack_of_nextMerge ha (hi.given hg.symm) hb hk hn
    obtain ⟨r, s, B, shift, hmerged⟩ := merged_of_merge hm
    refine ⟨hmerged.pushed ha hc hneg hleast hbase h.pushed,
      hmerged.pulled ha ((Problem.size_vars_eq hg).symm ▸ hw) h.pulled, fun hrests => ?_⟩
    rw [hmerged.tension_far ha h.pulled.balanced hc hg] at hrests
    have hfb := ((crosses_of_given hg).mp hc).2.2
    obtain ⟨hrests, hfar⟩ := h.pulled.tension_eq_zero hfb.symm hrests
    exact hmerged.lowered ha (ha.merge hm) hc hneg hbase h.pushed hrests hfar hu (h.lowered hrests)

theorem settle_lowers {I : Arrangement Rat → BlockId → Prop} (hi : p.Inequalities)
    (hI : LoopInvariant side I) (ha : a.Intact) (hb : a.Balanced) (hg : a.problem.given = p.given)
    (hs : ∀ c < p.constraints.size, 0 ≤ a.slack c) (hB : a.block? b = some B)
    (hτ : 0 < side.sign * a.tension b) (hw : w < p.vars.size) (hpulled : (a.settle b).Pulled w z)
    (hstart : I (a.settle b) b) :
    Yields ((a.settle b).mergeTowards side b) fun r => r.1.Intact ∧ r.1.problem.given = p.given ∧
      (∀ c < p.constraints.size, 0 ≤ r.1.slack c) ∧ r.1.Pulled w z ∧ I r.1 r.2 ∧
      (r.1.tension r.2 = 0 → r.1.cost < a.cost) := by
  -- The base is the placement before the move, in which nothing is violated.
  obtain ⟨u, rest, hmem⟩ := List.exists_cons_of_ne_nil (ha.nonempty b B hB)
  have hu : u ∈ B.members := hmem ▸ List.mem_cons_self
  have hult : u < p.vars.size := Problem.size_vars_eq hg ▸ ha.lt_of_mem hB hu
  have hbase : Base p side (fun _ => True) (a.along side) := base_along hg hs
  have hdescending : Descending p side (a.along side) a.cost (side.sign * a.tension b) u w z
      (a.settle b) b :=
    ⟨pushed_settle ha hb hg hs hB hτ.le, hpulled, fun _ => lowered_settle ha hb hg hB hu hτ⟩
  have hsome : ((a.settle b).block? b).isSome := by
    rw [blockAt_settle hB]
    rfl
  refine (mergeTowards_yields ((loopInvariant_descending hi hbase hult hw).and hI) ha.settle hsome
    ⟨hdescending, hstart⟩).mono ?_
  rintro ⟨a', t⟩ ⟨ha', ht, ⟨hd, hI'⟩, hk, hn⟩
  refine ⟨ha', hd.pushed.given_eq, fun c hc => ?_, hd.pulled, hI', fun hrests => ?_⟩
  · exact hd.pushed.slack_nonneg ha' ht hk hn hbase hc trivial
  · exact (hd.lowered hrests).cost_lt hτ

end Arrangement

end Spacing
