import Mathlib.Data.List.Perm.Subperm
import Spacing.Proofs.Exact.Rest
import Spacing.Proofs.Exact.Stationary
/-!
The certificate: when all blocks rest and no multiplier of an inequality is negative beyond the
tolerance, no assignment that satisfies the constraints costs less, up to that tolerance.
-/

namespace Spacing

theorem sum_flatMap {β γ : Type} (xs : List β) (f : β → List γ) (g : γ → Rat) :
    ((xs.flatMap f).map g).sum = (xs.map fun x => ((f x).map g).sum).sum := by
  induction xs with
  | nil => rfl
  | cons x xs ih =>
    rw [List.flatMap_cons, List.map_append, List.sum_append, ih, List.map_cons, List.sum_cons]

theorem sum_le_of_subset {xs ys : List ConId} (hn : xs.Nodup) (hsub : xs ⊆ ys) {f : ConId → Rat}
    (hf : ∀ c ∈ ys, 0 ≤ f c) : (xs.map f).sum ≤ (ys.map f).sum := by
  obtain ⟨zs, hperm, hsub⟩ := List.subperm_of_subset hn hsub
  rw [← (hperm.map f).sum_eq]
  refine (hsub.map f).sum_le_sum ?_
  simpa using hf

theorem sum_map_ite {β : Type} (xs : List β) (q : β → Bool) (f : β → Rat) :
    (xs.map fun x => if q x then f x else 0).sum = ((xs.filter q).map f).sum := by
  induction xs with
  | nil => rfl
  | cons x xs ih =>
    rw [List.map_cons, List.sum_cons, ih, List.filter_cons]
    split
    · rw [List.map_cons, List.sum_cons]
    · exact zero_add _

theorem mul_le_of_sq_le {e s w d k : Rat} (hw : 0 < w) (hk : 0 < k) (hs : w * s ^ 2 ≤ 4 * d) :
    e * s ≤ d / k + e ^ 2 * k / w := by
  have hsq := sq_nonneg (w * s - 2 * k * e)
  have hmul : w * (w * s ^ 2) ≤ w * (4 * d) := mul_le_mul_of_nonneg_left hs hw.le
  rw [div_add_div _ _ hk.ne' hw.ne', le_div_iff₀ (mul_pos hk hw)]
  nlinarith

namespace Problem

variable {p q : Problem Rat} {x x' y : VarId → Rat} {c : ConId}

def costAt (p : Problem Rat) (y : VarId → Rat) : Rat :=
  (p.variableIds.map fun v => (p.variableAt v).weight * (y v - (p.variableAt v).desired) ^ 2).sum

def distance (p : Problem Rat) (x y : VarId → Rat) : Rat :=
  (p.variableIds.map fun v => (p.variableAt v).weight * (y v - x v) ^ 2).sum

def slackAt (p : Problem Rat) (y : VarId → Rat) (c : ConId) : Rat :=
  y (p.constraintAt c).right - y (p.constraintAt c).left - (p.constraintAt c).gap

def Satisfied (p : Problem Rat) (y : VarId → Rat) : Prop :=
  ∀ c < p.constraints.size, 0 ≤ p.slackAt y c ∧
    ((p.constraintAt c).equality = true → p.slackAt y c = 0)

instance (p : Problem Rat) (y : VarId → Rat) : Decidable (p.Satisfied y) :=
  inferInstanceAs (Decidable (∀ c < p.constraints.size, 0 ≤ p.slackAt y c ∧
    ((p.constraintAt c).equality = true → p.slackAt y c = 0)))

def activeInequalities (q : Problem Rat) : List ConId :=
  q.constraintIds.filter fun c => (q.constraintAt c).active && !(q.constraintAt c).equality

section Given

variable (h : p.given = q.given)
include h

theorem costAt_given : p.costAt y = q.costAt y := by
  simp only [costAt, variableIds, size_vars_eq h, weight_eq h, desired_eq h]

theorem distance_given : p.distance x y = q.distance x y := by
  simp only [distance, variableIds, size_vars_eq h, weight_eq h]

theorem slackAt_given (y : VarId → Rat) (c : ConId) : p.slackAt y c = q.slackAt y c := by
  rw [slackAt, slackAt, left_eq h, right_eq h, gap_eq h]

theorem Satisfied.given (hy : p.Satisfied y) : q.Satisfied y := by
  intro c hc
  rw [← slackAt_given h, ← equality_eq h]
  exact hy c (size_constraints_eq h ▸ hc)

end Given

theorem costAt_congr (h : ∀ v < p.vars.size, x v = x' v) :
    p.costAt x = p.costAt x' := by
  refine congrArg List.sum (List.map_congr_left fun v hv => ?_)
  rw [h v (List.mem_range.mp hv)]

theorem distance_congr (h : ∀ v < p.vars.size, x v = x' v) :
    p.distance x y = p.distance x' y := by
  refine congrArg List.sum (List.map_congr_left fun v hv => ?_)
  rw [h v (List.mem_range.mp hv)]

theorem slackAt_congr (h : ∀ v < p.vars.size, x v = x' v) (hp : p.Consistent)
    (hc : c < p.constraints.size) : p.slackAt x c = p.slackAt x' c := by
  have hl : x (p.constraintAt c).left = x' (p.constraintAt c).left := h _ (hp.leftEnd_lt hc)
  have hr : x (p.constraintAt c).right = x' (p.constraintAt c).right := h _ (hp.rightEnd_lt hc)
  rw [slackAt, slackAt, hl, hr]

theorem activeInequalities_eq (hg : p.given = q.given) (ha : p.active = q.active) :
    p.activeInequalities = q.activeInequalities := by
  unfold activeInequalities
  rw [constraintIds, constraintIds, size_constraints_eq hg]
  refine List.filter_congr fun c _ => ?_
  rw [equality_eq hg, Bool.eq_iff_iff.mpr (Set.ext_iff.mp ha c)]

theorem costAt_eq (x y : VarId → Rat) : p.costAt y = p.costAt x + p.distance x y +
    2 * p.work x (fun v => y v - x v) p.variableIds := by
  simp only [costAt, distance, work]
  induction p.variableIds with
  | nil => simp
  | cons v vs ih =>
    simp only [List.map_cons, List.sum_cons, ih]
    ring

theorem Weighted.distance_nonneg (hw : p.Weighted) (x y : VarId → Rat) : 0 ≤ p.distance x y := by
  apply List.sum_nonneg
  intro z hz
  obtain ⟨v, hv, rfl⟩ := List.mem_map.mp hz
  exact mul_nonneg (hw v (List.mem_range.mp hv)).le (sq_nonneg _)

section Bounded

variable {v : VarId} {cs : List ConId} {e w : Rat} (hw : 0 < w)
  (hweight : ∀ v < p.vars.size, w ≤ (p.variableAt v).weight)
include hw hweight

theorem mul_sq_le_distance (hv : v < p.vars.size) : w * (y v - x v) ^ 2 ≤ p.distance x y := by
  have hterm : w * (y v - x v) ^ 2 ≤ (p.variableAt v).weight * (y v - x v) ^ 2 :=
    mul_le_mul_of_nonneg_right (hweight v hv) (sq_nonneg _)
  apply hterm.trans
  apply List.single_le_sum
  · intro z hz
    obtain ⟨u, hu, rfl⟩ := List.mem_map.mp hz
    exact mul_nonneg (hw.le.trans (hweight u (List.mem_range.mp hu))) (sq_nonneg _)
  · exact List.mem_map.mpr ⟨v, List.mem_range.mpr hv, rfl⟩

theorem mul_slackAt_le (hp : p.Consistent) (hc : c < p.constraints.size) (htight : p.slackAt x c = 0)
    {k : Rat} (hk : 0 < k) : e * p.slackAt y c ≤ p.distance x y / k + e ^ 2 * k / w := by
  let δ (v : VarId) : Rat := y v - x v
  have hslack : p.slackAt y c = δ (p.edges.right c) - δ (p.edges.left c) := by
    have hdiff : p.slackAt y c = p.slackAt x c + (δ (p.edges.right c) - δ (p.edges.left c)) := by
      simp only [slackAt, edges, δ]
      ring
    rw [hdiff, htight, zero_add]
  have hl : w * δ (p.edges.left c) ^ 2 ≤ p.distance x y :=
    mul_sq_le_distance hw hweight (hp.leftEnd_lt hc)
  have hr : w * δ (p.edges.right c) ^ 2 ≤ p.distance x y :=
    mul_sq_le_distance hw hweight (hp.rightEnd_lt hc)
  apply mul_le_of_sq_le hw hk
  rw [hslack]
  have hsum := mul_nonneg hw.le (sq_nonneg (δ (p.edges.right c) + δ (p.edges.left c)))
  linarith

theorem costAt_le_of_certificate (hp : p.Consistent) (hcs : ∀ c ∈ cs, c < p.constraints.size)
    (htight : ∀ c ∈ cs, p.slackAt x c = 0)
    (h : p.costAt x + p.distance x y ≤ p.costAt y + e * (cs.map (p.slackAt y)).sum) :
    p.costAt x ≤ p.costAt y + (e * cs.length) ^ 2 / w := by
  cases hlen : cs.length with
  | zero =>
    rw [List.length_eq_zero_iff.mp hlen] at h
    have hweighted : p.Weighted := fun v hv => hw.trans_le (hweight v hv)
    have hd := hweighted.distance_nonneg x y
    simp only [List.map_nil, List.sum_nil, mul_zero, Nat.cast_zero] at h ⊢
    simp only [zero_pow two_ne_zero, zero_div]
    linarith
  | succ n =>
    let k : Rat := (n + 1 : Nat)
    have hk : 0 < k := Nat.cast_pos.mpr (Nat.succ_pos n)
    -- Each slack is paid for out of an equal share of the distance.
    have hterm : ∀ z ∈ cs.map fun c => e * p.slackAt y c, z ≤ p.distance x y / k + e ^ 2 * k / w := by
      intro z hz
      obtain ⟨c, hc, rfl⟩ := List.mem_map.mp hz
      exact mul_slackAt_le hw hweight hp (hcs c hc) (htight c hc) hk
    have hbound := List.sum_le_card_nsmul _ _ hterm
    rw [List.length_map, hlen, nsmul_eq_mul, List.sum_map_mul_left] at hbound
    have hwhole : k * (p.distance x y / k + e ^ 2 * k / w) = p.distance x y + (e * k) ^ 2 / w := by
      field_simp
    have hbound : e * (cs.map (p.slackAt y)).sum ≤ p.distance x y + (e * k) ^ 2 / w :=
      hwhole ▸ hbound
    change _ ≤ _ + (e * k) ^ 2 / w
    linarith

end Bounded

end Problem

namespace Arrangement

variable {a a' : Arrangement Rat} {b : BlockId} {B : Block Rat} {c : ConId} {y z : VarId → Rat}
  {p : Problem Rat}

theorem members_perm (ha : a.Intact) :
    (a.blockIds.flatMap fun b => (a.blockAt b).members).Perm a.problem.variableIds := by
  have hblock {b : BlockId} (hb : b ∈ a.blockIds) : ∃ B, a.block? b = some B :=
    Option.isSome_iff_exists.mp ((mem_blockIds ha).mp hb)
  refine (List.perm_ext_iff_of_nodup ?_ List.nodup_range).mpr fun v => ?_
  · refine List.nodup_flatMap.mpr ⟨fun b hb => ?_, ?_⟩
    · obtain ⟨B, hB⟩ := hblock hb
      exact blockAt_eq hB ▸ ha.nodup b B hB
    · refine (ha.live_nodup.filter _).imp_of_mem fun {b b'} hb hb' hne => ?_
      obtain ⟨B, hB⟩ := hblock hb
      obtain ⟨B', hB'⟩ := hblock hb'
      intro v hv hv'
      have hv : v ∈ B.members := blockAt_eq hB ▸ hv
      have hv' : v ∈ B'.members := blockAt_eq hB' ▸ hv'
      exact hne ((ha.blockOf_eq hB hv).symm.trans (ha.blockOf_eq hB' hv'))
  · rw [List.mem_flatMap]
    constructor
    · rintro ⟨b, hb, hv⟩
      obtain ⟨B, hB⟩ := hblock hb
      exact List.mem_range.mpr (ha.lt_of_mem hB (blockAt_eq hB ▸ hv))
    · intro hv
      have hv := List.mem_range.mp hv
      obtain ⟨B, hB⟩ := ha.exists_block hv
      refine ⟨a.blockOf v, (mem_blockIds ha).mpr (by rw [hB]; rfl), ?_⟩
      rw [blockAt_eq hB]
      exact ha.mem_of_blockOf hB hv rfl

theorem cost_eq_costAt (a : Arrangement Rat) : a.cost = a.problem.costAt a.position := by
  rw [cost, sum_exact, Problem.costAt]
  refine congrArg List.sum (List.map_congr_left fun v _ => ?_)
  ring

theorem cost_of_given (hg : a.problem.given = p.given) : a.cost = p.costAt a.position := by
  rw [cost_eq_costAt, Problem.costAt_given hg]

theorem Still.cost_eq (h : Still a a') : a'.cost = a.cost := by
  rw [cost_of_given h.given_eq, cost_eq_costAt, funext h.position_eq]

def allMultipliers (a : Arrangement Rat) : List (ConId × Rat) :=
  a.blockIds.flatMap a.multipliersOf

theorem nodup_allMultipliers (ha : a.Intact) : (a.allMultipliers.map Prod.fst).Nodup := by
  rw [allMultipliers, List.map_flatMap]
  refine List.nodup_flatMap.mpr ⟨fun b _ => nodup_fst_multipliersOf ha.consistent b, ?_⟩
  refine (ha.live_nodup.filter _).imp fun {b b'} hne c hc hc' => hne ?_
  obtain ⟨m, hm, rfl⟩ := List.mem_map.mp hc
  obtain ⟨m', hm', he⟩ := List.mem_map.mp hc'
  rw [← leftBlock_of_mem_multipliersOf ha hm, ← leftBlock_of_mem_multipliersOf ha hm', he]

def anchor (a : Arrangement Rat) (b : BlockId) : VarId :=
  (a.blockAt b).members.headD 0

def drift (a : Arrangement Rat) (z : VarId → Rat) : Rat :=
  (a.blockIds.map fun b => a.tension b * z (a.anchor b)).sum

theorem Resting.drift_eq (hr : a.Resting) (z : VarId → Rat) : a.drift z = 0 := by
  refine List.sum_eq_zero fun x hx => ?_
  obtain ⟨b, -, rfl⟩ := List.mem_map.mp hx
  rw [hr.tension_eq b, zero_mul]

theorem sum_allMultipliers_add (ha : a.Intact) (z : VarId → Rat) : (a.allMultipliers.map fun m =>
      m.2 * (z (a.problem.edges.right m.1) - z (a.problem.edges.left m.1))).sum + 2 * a.drift z =
        2 * a.problem.work a.position z a.problem.variableIds := by
  rw [allMultipliers, sum_flatMap, ← Problem.work_perm (members_perm ha), Problem.work, sum_flatMap,
    ← List.sum_map_mul_left, drift, ← List.sum_map_mul_left, ← List.sum_map_add]
  refine congrArg List.sum (List.map_congr_left fun b hb => ?_)
  obtain ⟨B, hB⟩ := Option.isSome_iff_exists.mp ((mem_blockIds ha).mp hb)
  obtain ⟨root, rest, hmem⟩ := List.exists_cons_of_ne_nil (ha.nonempty b B hB)
  have hanchor : a.anchor b = root := by
    rw [anchor, blockAt_eq hB, hmem]
    rfl
  rw [hanchor, blockAt_eq hB]
  exact sum_multipliersOf_add ha hB (hmem ▸ List.head?_cons) z

theorem sum_allMultipliers (ha : a.Intact) (hr : a.Resting) (z : VarId → Rat) :
    (a.allMultipliers.map fun m =>
      m.2 * (z (a.problem.edges.right m.1) - z (a.problem.edges.left m.1))).sum =
        2 * a.problem.work a.position z a.problem.variableIds := by
  have hsum := sum_allMultipliers_add ha z
  rwa [hr.drift_eq, mul_zero, add_zero] at hsum

def Nonnegative (a : Arrangement Rat) : Prop :=
  ∀ b B, a.block? b = some B → ∀ m ∈ a.multipliersOf b, a.isReleasable m.1 →
    -Scalar.epsilon ≤ m.2

theorem active_of_mem_allMultipliers (ha : a.Intact) {m : ConId × Rat} (hm : m ∈ a.allMultipliers) :
    m.1 ∈ a.problem.active := by
  obtain ⟨b, -, hmb⟩ := List.mem_flatMap.mp hm
  exact active_of_mem_multipliersOf ha.consistent (x := m.2) hmb

theorem Nonnegative.neg_epsilon_le (hn : a.Nonnegative) (ha : a.Intact) {m : ConId × Rat}
    (hm : m ∈ a.allMultipliers) (hi : a.isReleasable m.1) : -Scalar.epsilon ≤ m.2 := by
  obtain ⟨b, hb, hmb⟩ := List.mem_flatMap.mp hm
  obtain ⟨B, hB⟩ := Option.isSome_iff_exists.mp ((mem_blockIds ha).mp hb)
  exact hn b B hB m hmb hi

theorem displacement_of_active (ha : a.Intact) (hb : a.Balanced) (hc : c ∈ a.problem.active) :
    y (a.problem.edges.right c) - a.position (a.problem.edges.right c) -
      (y (a.problem.edges.left c) - a.position (a.problem.edges.left c)) = a.problem.slackAt y c := by
  have htight := hb.slack_of_active ha hc
  rw [slack_exact] at htight
  change _ = y (a.problem.edges.right c) - y (a.problem.edges.left c) - _
  linarith

theorem sum_releasable_le (ha : a.Intact) (hy : a.problem.Satisfied y) :
    (((a.allMultipliers.filter fun m => a.isReleasable m.1).map fun m => a.problem.slackAt y m.1)).sum ≤
      (a.problem.activeInequalities.map (a.problem.slackAt y)).sum := by
  let ms := a.allMultipliers.filter fun m => a.isReleasable m.1
  have hsub : ms.map Prod.fst ⊆ a.problem.activeInequalities := by
    intro c hc
    obtain ⟨m, hm, rfl⟩ := List.mem_map.mp hc
    obtain ⟨hm, hi⟩ := List.mem_filter.mp hm
    have hactive := active_of_mem_allMultipliers ha hm
    refine List.mem_filter.mpr ⟨List.mem_range.mpr (Problem.lt_size_of_mem_active hactive), ?_⟩
    exact Bool.and_eq_true_iff.mpr ⟨hactive, hi⟩
  have hnodup : (ms.map Prod.fst).Nodup :=
    (nodup_allMultipliers ha).sublist (List.filter_sublist.map _)
  have hle := sum_le_of_subset hnodup hsub (f := a.problem.slackAt y) fun c hc =>
    (hy c (List.mem_range.mp (List.mem_filter.mp hc).1)).1
  rwa [List.map_map] at hle

theorem work_ge (ha : a.Intact) (hr : a.Resting) (hn : a.Nonnegative)
    (hy : a.problem.Satisfied y) :
    -(Scalar.epsilon * (a.problem.activeInequalities.map (a.problem.slackAt y)).sum) ≤
      2 * a.problem.work a.position (fun v => y v - a.position v) a.problem.variableIds := by
  rw [← sum_allMultipliers ha hr, List.map_congr_left fun m hm => congrArg (m.2 * ·)
    (displacement_of_active ha hr.balanced (active_of_mem_allMultipliers ha hm))]
  -- Equalities contribute nothing, inequalities at least what the tolerance allows.
  have hbound : (a.allMultipliers.map fun m =>
      if a.isReleasable m.1 then -Scalar.epsilon * a.problem.slackAt y m.1 else 0).sum ≤
        (a.allMultipliers.map fun m => m.2 * a.problem.slackAt y m.1).sum := by
    refine List.sum_le_sum fun m hm => ?_
    obtain ⟨hpos, heq⟩ := hy m.1 (Problem.lt_size_of_mem_active (active_of_mem_allMultipliers ha hm))
    split
    · rename_i hi
      exact mul_le_mul_of_nonneg_right (hn.neg_epsilon_le ha hm hi) hpos
    · rename_i hi
      have he : (a.problem.constraintAt m.1).equality = true := by
        simpa [isReleasable] using hi
      rw [heq he, mul_zero]
  rw [sum_map_ite, List.sum_map_mul_left] at hbound
  have hle := mul_le_mul_of_nonneg_left (sum_releasable_le ha hy) epsilon_pos.le
  linarith

theorem costAt_le (ha : a.Intact) (hr : a.Resting) (hn : a.Nonnegative)
    (hy : a.problem.Satisfied y) :
    a.problem.costAt a.position + a.problem.distance a.position y ≤ a.problem.costAt y +
      Scalar.epsilon * (a.problem.activeInequalities.map (a.problem.slackAt y)).sum := by
  have hcost := a.problem.costAt_eq a.position y
  have hwork := work_ge ha hr hn hy
  linarith

end Arrangement

end Spacing
