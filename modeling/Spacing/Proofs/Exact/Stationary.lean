import Mathlib.Algebra.BigOperators.Ring.List
import Spacing.Proofs.Arrangement.Multiplier
import Spacing.Proofs.Exact.Balance
/-!
Stationarity: with exact numbers the multipliers of a block account for what its members want. However
the members are moved, the work of the pulls is that of the multipliers along their constraints.
-/

namespace Spacing

theorem sum_map_add_at {vs : List VarId} (hn : vs.Nodup) {f g : VarId → Rat} {u : VarId} {x : Rat}
    (h : ∀ v, g v = f v + if v = u then x else 0) :
    (vs.map g).sum = (vs.map f).sum + if u ∈ vs then x else 0 := by
  induction vs with
  | nil => simp
  | cons v vs ih =>
    obtain ⟨hv, hn⟩ := List.nodup_cons.mp hn
    rw [List.map_cons, List.sum_cons, List.map_cons, List.sum_cons, ih hn, h v]
    by_cases hvu : v = u
    · subst hvu
      simp only [if_true, if_neg hv, List.mem_cons_self]
      ring
    · have hmem : u ∈ v :: vs ↔ u ∈ vs := by
        rw [List.mem_cons]
        exact or_iff_right (Ne.symm hvu)
      simp only [if_neg hvu, hmem]
      ring

theorem sum_map_eq_of_nodup {β : Type} {xs : List β} (hn : xs.Nodup) {x : β} (hx : x ∈ xs)
    {f : β → Rat} (hf : ∀ y ∈ xs, y ≠ x → f y = 0) : (xs.map f).sum = f x := by
  classical
  rw [List.sum_map_eq_nsmul_single x f fun y hne hy => hf y hy hne, List.count_eq_one_of_mem hn hx,
    one_nsmul]

theorem getD_modify_add {w : Array Rat} {u : VarId} (hu : u < w.size) (x : Rat) (v : VarId) :
    (w.modify u (· + x)).getD v 0 = w.getD v 0 + if v = u then x else 0 := by
  simp only [Array.getD_eq_getD_getElem?, Array.getElem?_modify]
  by_cases hv : u = v
  · subst hv
    simp [hu]
  · simp [hv, Ne.symm hv]

theorem sum_multipliers {p : Problem Rat} {root : VarId} {bs : List Branch} (hg : Grown {root} bs.reverse)
    (hf : ∀ b ∈ bs, p.Follows b) {w : Array Rat} (hroot : root < w.size)
    (hlt : ∀ v ∈ childrenOf bs, v < w.size) (z : VarId → Rat) :
    ((multipliers w bs).map fun m => m.2 * (z (p.edges.right m.1) - z (p.edges.left m.1))).sum =
      ((childrenOf bs).map fun v => w.getD v 0 * (z v - z root)).sum := by
  -- By induction on the branches, the last one found first.
  induction bs generalizing w with
  | nil => rfl
  | cons b bs ih =>
    rw [List.reverse_cons] at hg
    obtain ⟨hg, hparent, hnew, hnew'⟩ := grown_concat hg
    simp only [childrenOf_cons, List.mem_cons, forall_eq_or_imp] at hf hlt
    have hp : b.parent = root ∨ b.parent ∈ childrenOf bs := by
      rw [childrenOf_reverse, List.mem_reverse] at hparent
      exact hparent
    have hplt : b.parent < w.size := by
      rcases hp with hp | hp
      · exact hp ▸ hroot
      · exact hlt.2 _ hp
    let x := w.getD b.child 0
    -- What the child wants is passed on to the parent.
    have hrest := ih (w := w.modify b.parent (· + x)) hg hf.2
      (by rwa [Array.size_modify]) (by simpa using hlt.2)
    have hnodup : (childrenOf bs).Nodup := by simpa using hg.nodup
    have hsum := sum_map_add_at hnodup (u := b.parent) (x := x * (z b.parent - z root))
      (f := fun v => w.getD v 0 * (z v - z root))
      (g := fun v => (w.modify b.parent (· + x)).getD v 0 * (z v - z root)) fun v => by
        rw [getD_modify_add hplt]
        split
        · rename_i hv
          subst hv
          ring
        · ring
    have hpass : (if b.parent ∈ childrenOf bs then x * (z b.parent - z root) else 0) =
        x * (z b.parent - z root) := by
      split
      · rfl
      · rename_i hnp
        rw [hp.resolve_right hnp]
        ring
    have hfirst : (if b.forward then x else -x) * (z (p.edges.right b.via) - z (p.edges.left b.via)) =
        x * (z b.child - z b.parent) := by
      rw [hf.1.parent, hf.1.child]
      by_cases hb : b.forward = true
      · simp only [hb, if_true]
      · simp only [if_neg hb]
        ring
    rw [hsum, hpass] at hrest
    rw [multipliers, List.map_cons, List.sum_cons, childrenOf_cons, List.map_cons, List.sum_cons]
    refine (congrArg₂ (· + ·) hfirst hrest).trans ?_
    change x * (z b.child - z b.parent) + _ = x * (z b.child - z root) + _
    ring

namespace Problem

variable {p : Problem Rat} {x z : VarId → Rat} {vs ws : List VarId}

def work (p : Problem Rat) (x z : VarId → Rat) (vs : List VarId) : Rat :=
  (vs.map fun v => (p.variableAt v).weight * (x v - (p.variableAt v).desired) * z v).sum

theorem work_perm (h : vs.Perm ws) : p.work x z vs = p.work x z ws :=
  (h.map _).sum_eq

theorem work_append : p.work x z (vs ++ ws) = p.work x z vs + p.work x z ws := by
  rw [work, List.map_append, List.sum_append]
  rfl

theorem work_of_forall_eq {y : Rat} (hz : ∀ v ∈ vs, z v = y) : p.work x z vs = p.tension x vs * y := by
  rw [tension, ← List.sum_map_mul_right]
  refine congrArg List.sum (List.map_congr_left fun v hv => ?_)
  rw [hz v hv]

theorem work_sub (y : Rat) :
    p.work x (fun v => z v - y) vs = p.work x z vs - p.tension x vs * y := by
  induction vs with
  | nil => simp [work, tension]
  | cons v vs ih =>
    simp only [work, tension, List.map_cons, List.sum_cons] at ih ⊢
    rw [ih]
    ring

end Problem

namespace Arrangement

variable {a a' : Arrangement Rat} {b l r : BlockId} {B : Block Rat} {c : ConId} {x : Rat}
  {L R : List VarId} {z : VarId → Rat}

theorem derivatives_of_mem (ha : a.Intact) (hB : a.block? b = some B) {v : VarId} (hv : v ∈ B.members) :
    (a.derivatives b).getD v 0 = 2 * ((a.problem.variableAt v).weight *
      (a.position v - (a.problem.variableAt v).desired)) := by
  have hlt := ha.lt_of_mem hB hv
  have hx : a.problem.vars[v]? = some (a.problem.variableAt v) := by
    simp [Problem.variableAt, Array.getD_eq_getD_getElem?, hlt]
  simp only [derivatives, Array.getD_eq_getD_getElem?, Array.getElem?_map, hx, Option.map_some,
    Option.getD_some, position_of_mem ha hB hv, blockAt_eq hB, two_exact]
  ring

theorem sum_multipliersFrom_add (ha : a.Intact) (hB : a.block? b = some B) {root : VarId}
    (hr : root ∈ B.members) (z : VarId → Rat) : ((a.multipliersFrom b root).map fun m =>
      m.2 * (z (a.problem.edges.right m.1) - z (a.problem.edges.left m.1))).sum +
        2 * (a.tension b * z root) = 2 * a.problem.work a.position z B.members := by
  -- What the members want adds up to the pull on the block, which the walk leaves with its root.
  have hperm := members_perm_tree ha hB hr
  have hchild {v : VarId} (hv : v ∈ childrenOf (a.problem.tree b root)) : v ∈ B.members :=
    hperm.mem_iff.mpr (List.mem_cons_of_mem _ hv)
  have hsize : (a.derivatives b).size = a.problem.vars.size := Array.size_map ..
  have hgrown : Grown {root} (a.problem.tree b root).reverse.reverse := by
    rw [List.reverse_reverse]
    exact Problem.grown_tree _ _ _
  have hsum := sum_multipliers (p := a.problem) (w := a.derivatives b) hgrown
    (fun x hx => Problem.follows_of_mem_tree ha.consistent x (List.mem_reverse.mp hx))
    (hsize ▸ ha.lt_of_mem hB hr)
    (fun v hv => by
      rw [childrenOf_reverse, List.mem_reverse] at hv
      exact hsize ▸ ha.lt_of_mem hB (hchild hv)) z
  rw [multipliersFrom, hsum, childrenOf_reverse, List.map_reverse, List.sum_reverse]
  have hwant : ((childrenOf (a.problem.tree b root)).map fun v =>
      (a.derivatives b).getD v 0 * (z v - z root)) =
      (childrenOf (a.problem.tree b root)).map fun v => 2 * ((a.problem.variableAt v).weight *
        (a.position v - (a.problem.variableAt v).desired) * (z v - z root)) := by
    refine List.map_congr_left fun v hv => ?_
    rw [derivatives_of_mem ha hB (hchild hv)]
    ring
  have hwork : a.problem.work a.position (fun v => z v - z root)
      (childrenOf (a.problem.tree b root)) + a.tension b * z root =
        a.problem.work a.position z B.members := by
    have hall := Problem.work_perm (p := a.problem) (x := a.position) (z := fun v => z v - z root) hperm
    rw [Problem.work_sub, ← tension_eq hB] at hall
    rw [eq_add_of_sub_eq hall]
    simp [Problem.work]
  rw [hwant, List.sum_map_mul_left, ← hwork, mul_add]
  rfl

theorem sum_multipliersOf_add (ha : a.Intact) (hB : a.block? b = some B) {root : VarId}
    (hhead : B.members.head? = some root) (z : VarId → Rat) : ((a.multipliersOf b).map fun m =>
      m.2 * (z (a.problem.edges.right m.1) - z (a.problem.edges.left m.1))).sum +
        2 * (a.tension b * z root) = 2 * a.problem.work a.position z B.members := by
  rw [multipliersOf_eq hB hhead]
  exact sum_multipliersFrom_add ha hB (List.mem_of_head? hhead) z

theorem sum_multipliersFrom (ha : a.Intact) (hB : a.block? b = some B) (ht : a.tension b = 0)
    {root : VarId} (hr : root ∈ B.members) (z : VarId → Rat) : ((a.multipliersFrom b root).map fun m =>
      m.2 * (z (a.problem.edges.right m.1) - z (a.problem.edges.left m.1))).sum =
        2 * a.problem.work a.position z B.members := by
  have hsum := sum_multipliersFrom_add ha hB hr z
  rwa [ht, zero_mul, mul_zero, add_zero] at hsum

theorem Halved.multiplier_eq (h : Halved a a' c l r B L R) (ha : a.Intact)
    (ht : a.tension (a.leftBlock c) = 0) {root : VarId} (hr : root ∈ B.members)
    (hx : (c, x) ∈ a.multipliersFrom (a.leftBlock c) root) :
    x = 2 * a.problem.tension a.position R := by
  have hvia (m : ConId × Rat) (hm : m ∈ a.multipliersFrom (a.leftBlock c) root) :
      m.1 ∈ a.problem.active :=
    ((mem_fst_multipliersFrom ha h.old hr).mp (List.mem_map_of_mem hm)).1
  have hc := hvia _ hx
  have hnodup := nodup_fst_multipliersFrom ha.consistent (a.leftBlock c) root
  let z (v : VarId) : Rat := if v ∈ R then 1 else 0
  let f (m : ConId × Rat) : Rat :=
    m.2 * (z (a.problem.edges.right m.1) - z (a.problem.edges.left m.1))
  have hsum : ((a.multipliersFrom (a.leftBlock c) root).map f).sum =
      2 * a.problem.work a.position z B.members := sum_multipliersFrom ha h.old ht hr z
  have hwork : a.problem.work a.position z B.members = a.problem.tension a.position R := by
    rw [Problem.work_perm (h.members_perm ha hc), Problem.work_append,
      Problem.work_of_forall_eq (y := 0) fun v hv => if_neg (h.disjoint ha hc hv),
      Problem.work_of_forall_eq (y := 1) fun v hv => if_pos hv, mul_zero, zero_add, mul_one]
  -- Every other constraint of the block has both ends on one side.
  have hzero (m : ConId × Rat) (hm : m ∈ a.multipliersFrom (a.leftBlock c) root) (hne : m ≠ (c, x)) :
      f m = 0 := by
    have hmc : m.1 ≠ c := fun he => hne (List.inj_on_of_nodup_map hnodup hm hx he)
    have hedge : a.problem.edges.Linked (a.problem.active \ {c}) (a.problem.edges.left m.1)
        (a.problem.edges.right m.1) := .edge ⟨hvia m hm, hmc⟩
    have hsame : a.problem.edges.right m.1 ∈ R ↔ a.problem.edges.left m.1 ∈ R := by
      rw [h.mem_right, h.mem_right]
      exact ⟨fun hl => hl.trans hedge.symm, fun hl => hl.trans hedge⟩
    simp only [f, z, hsame, sub_self, mul_zero]
  have hone : f (c, x) = x := by
    have hl := h.disjoint ha hc h.ends_mem.1
    simp only [f, z, if_neg hl, if_pos h.ends_mem.2, sub_zero, mul_one]
  rw [← hwork, ← hsum, sum_map_eq_of_nodup (hnodup.of_map _) hx hzero, hone]

end Arrangement

end Spacing
