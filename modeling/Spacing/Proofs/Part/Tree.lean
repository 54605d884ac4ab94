import Mathlib.Data.List.Sort
import Spacing.Proofs.Part.Basic
import Spacing.Proofs.Solver.Guard
import Spacing.Proofs.Solver.Negative

namespace Spacing

variable {α : Type} [Scalar α] {e : Renaming}

namespace Renaming

def crossing (e : Renaming) (x : Crossing) : Crossing :=
  ⟨e.con x.via, x.forward⟩

def branch (e : Renaming) (b : Branch) : Branch :=
  ⟨e.crossing b.toCrossing, e.var b.parent, e.var b.child⟩

theorem childrenOf_branch (bs : List Branch) :
    childrenOf (bs.map e.branch) = (childrenOf bs).map e.var := by
  simp [childrenOf, branch, Function.comp_def]

theorem filter_range {P Q : VarId → Bool} {m n : Nat}
    (h : ∀ w, (w < m ∧ P w) ↔ ∃ v, v < n ∧ Q v ∧ e.var v = w) :
    (List.range m).filter P = ((List.range n).filter Q).map e.var := by
  apply List.Pairwise.eq_of_mem_iff (r := (· < ·))
  · exact List.pairwise_lt_range.filter P
  · exact (List.pairwise_lt_range.filter Q).map e.var fun _ _ hlt => e.var_mono hlt
  · intro w
    simp only [List.mem_filter, List.mem_range, List.mem_map, h w, and_assoc]

end Renaming

namespace Problem.Part

variable {p q : Problem α} (h : p.Part e q)
include h

theorem crossings_eq {v : VarId} (hv : v < q.vars.size) :
    p.crossings (e.var v) = (q.crossings v).map e.crossing := by
  simp only [crossings, h.ins_eq v hv, h.outs_eq v hv, List.map_append, List.map_map]
  rfl

theorem farEnd_eq {x : Crossing} (hx : x.via < q.constraints.size) :
    p.farEnd (e.crossing x) = e.var (q.farEnd x) := by
  have hl : (p.constraintAt (e.con x.via)).left = e.var (q.constraintAt x.via).left := h.left_eq _ hx
  have hr : (p.constraintAt (e.con x.via)).right = e.var (q.constraintAt x.via).right :=
    h.right_eq _ hx
  simp only [farEnd, Renaming.crossing, hl, hr]
  split <;> rfl

variable (ha : ∀ c < q.constraints.size, e.con c ∈ p.active ↔ c ∈ q.active)
include ha

theorem branch_eq (v : VarId) {xs : List Crossing} (hxs : ∀ x ∈ xs, x.via < q.constraints.size)
    (unseen : List VarId) : p.branch (e.var v) (unseen.map e.var) (xs.map e.crossing) =
      ((q.branch v unseen xs).1.map e.branch, (q.branch v unseen xs).2.map e.var) := by
  induction xs generalizing unseen with
  | nil => rfl
  | cons x xs ih =>
    simp only [List.mem_cons, forall_eq_or_imp] at hxs
    have hfar := h.farEnd_eq hxs.1
    have hactive : (p.constraintAt (e.crossing x).via).active = true ↔
        (q.constraintAt x.via).active = true := ha _ hxs.1
    have hmem : e.var (q.farEnd x) ∈ unseen.map e.var ↔ q.farEnd x ∈ unseen :=
      List.mem_map_of_injective e.var_mono.injective
    rw [List.map_cons, branch, branch]
    simp only [hfar, hactive, hmem, ← List.map_erase e.var_mono.injective, ih hxs.2]
    split <;> rfl

variable (hq : q.Consistent)
include hq

theorem walk_eq (unseen stack : List VarId) (hu : ∀ v ∈ unseen, v < q.vars.size)
    (hs : ∀ v ∈ stack, v < q.vars.size) :
    p.walk (unseen.map e.var) (stack.map e.var) = (q.walk unseen stack).map e.branch := by
  induction unseen, stack using walk.induct (p := q) with
  | case1 unseen => rw [List.map_nil, walk_nil, walk_nil, List.map_nil]
  | case2 unseen v stack found ih =>
    simp only [List.mem_cons, forall_eq_or_imp] at hs
    have hvia (x : Crossing) (hx : x ∈ q.crossings v) : x.via < q.constraints.size :=
      ((mem_crossings hq).mp hx).1
    have hmem (w : VarId) := (q.branch_perm v unseen (q.crossings v)).mem_iff (a := w)
    have hrest := ih (fun w hw => hu w ((hmem w).mpr (List.mem_append_right _ hw))) fun w hw => by
      rcases List.mem_append.mp hw with hw | hw
      · exact hu w ((hmem w).mpr (List.mem_append_left _ (List.mem_reverse.mp hw)))
      · exact hs.2 w hw
    rw [List.map_append, List.map_reverse] at hrest
    rw [List.map_cons, walk_cons, walk_cons, h.crossings_eq hs.1, h.branch_eq ha v hvia,
      Renaming.childrenOf_branch, List.map_append]
    exact congrArg ((q.branch v unseen (q.crossings v)).1.map e.branch ++ ·) hrest

theorem tree_eq {i j : BlockId} {root : VarId} (hroot : root < q.vars.size)
    (hb : ∀ w, w < p.vars.size ∧ p.blockOf w = i ↔
      ∃ v, v < q.vars.size ∧ q.blockOf v = j ∧ e.var v = w) :
    p.tree i (e.var root) = (q.tree j root).map e.branch := by
  have hunseen : p.variableIds.filter (fun v => p.blockOf v = i) =
      (q.variableIds.filter fun v => q.blockOf v = j).map e.var := by
    apply Renaming.filter_range
    simpa using hb
  rw [tree, tree, hunseen, ← List.map_erase e.var_mono.injective]
  apply h.walk_eq ha hq _ [root]
  · exact fun v hv => (mem_unseen.mp hv).2.1
  · simpa using hroot

end Problem.Part

theorem multipliers_branch {want want' : Array α} {bs : List Branch} {n : Nat}
    (hbs : ∀ b ∈ bs, b.parent < n ∧ b.child < n) (hn : want'.size = n)
    (hlt : ∀ v < n, e.var v < want.size)
    (hw : ∀ v < n, want.getD (e.var v) Scalar.zero = want'.getD v Scalar.zero) :
    multipliers want (bs.map e.branch) = (multipliers want' bs).map fun m => (e.con m.1, m.2) := by
  induction bs generalizing want want' with
  | nil => rfl
  | cons b bs ih =>
    simp only [List.mem_cons, forall_eq_or_imp] at hbs
    obtain ⟨⟨hparent, hchild⟩, hbs⟩ := hbs
    rw [List.map_cons, multipliers, multipliers]
    simp only [Renaming.branch, hw _ hchild, List.map_cons]
    apply congrArg₂ List.cons
    · rfl
    · apply ih hbs
      · rw [Array.size_modify, hn]
      · simpa using hlt
      · intro v hv
        have hv' := hw v hv
        simp only [Array.getD_eq_getD_getElem?, Array.getElem?_modify, Renaming.var_inj] at hv' ⊢
        split
        · rename_i he
          subst he
          have h1 := hlt _ hparent
          have h2 : b.parent < want'.size := hn ▸ hparent
          simp only [Array.getElem?_eq_getElem h1, Array.getElem?_eq_getElem h2, Option.getD_some,
            Option.map_some] at hv' ⊢
          rw [hv']
        · exact hv'

namespace Arrangement

variable {a a' b : Arrangement α} {q : Problem α} {c : ConId} {i : BlockId} {v w : VarId}

namespace Mirrors

variable (h : Mirrors e q a b)
include h

theorem blockOf_eq_iff (hv : v < q.vars.size) :
    w < a.problem.vars.size ∧ a.blockOf w = a.blockOf (e.var v) ↔
      ∃ u, u < q.vars.size ∧ b.blockOf u = b.blockOf v ∧ e.var u = w := by
  constructor
  · rintro ⟨hw, hwv⟩
    obtain ⟨u, hu, rfl⟩ := h.reaches_of_blockOf hv hw hwv
    exact ⟨u, hu, (h.blockOf_iff hu hv).mp hwv, rfl⟩
  · rintro ⟨u, hu, huv, rfl⟩
    exact ⟨h.var_lt hu, (h.blockOf_iff hu hv).mpr huv⟩

theorem multipliersOf_eq (hv : v < q.vars.size) : a.multipliersOf (a.blockOf (e.var v)) =
    (b.multipliersOf (b.blockOf v)).map fun m => (e.con m.1, m.2) := by
  have hn := Problem.size_vars_eq h.given_eq
  have hm := Problem.size_constraints_eq h.given_eq
  obtain ⟨A, hA⟩ := h.intact.exists_block (h.var_lt hv)
  obtain ⟨B, hB⟩ := h.intact'.exists_block (h.var_lt' hv)
  obtain ⟨root, rest, hroot⟩ := List.exists_cons_of_ne_nil (h.intact'.nonempty _ B hB)
  have hlt : root < q.vars.size := hn ▸ h.intact'.lt_of_mem hB (hroot ▸ List.mem_cons_self)
  have hhead : B.members.head? = some root := by rw [hroot, List.head?_cons]
  have hhead' : A.members.head? = some (e.var root) := by
    rw [h.members_eq hv hA hB, hroot, List.map_cons, List.head?_cons]
  have htree : a.problem.tree (a.blockOf (e.var v)) (e.var root) =
      (b.problem.tree (b.blockOf v) root).map e.branch := by
    apply h.part'.tree_eq _ h.intact'.consistent (hn.symm ▸ hlt)
    · intro w
      rw [hn]
      exact h.blockOf_eq_iff hv
    · rw [hm]
      exact h.active_iff
  have hposition : (a.blockAt (a.blockOf (e.var v))).position = (b.blockAt (b.blockOf v)).position :=
    (congrArg Block.position (h.home_eq v hv) :)
  rw [Arrangement.multipliersOf_eq hA hhead', Arrangement.multipliersOf_eq hB hhead, htree,
    ← List.map_reverse]
  apply multipliers_branch (n := q.vars.size)
  · intro x hx
    rw [← hn]
    exact (h.intact'.inRange.tree _ _ x (List.mem_reverse.mp hx)).2
  · simpa [derivatives] using hn
  · intro u hu
    simpa [derivatives] using h.var_lt hu
  · intro u hu
    rw [getD_derivatives (h.var_lt hu), getD_derivatives (h.var_lt' hu),
      h.part'.weight_eq u (h.var_lt' hu), h.part'.desired_eq u (h.var_lt' hu), h.offset_eq u hu,
      hposition]

theorem negativeOf_eq (hv : v < q.vars.size) :
    a.negativeOf (a.blockOf (e.var v)) = (b.negativeOf (b.blockOf v)).map e.con := by
  have hlt (m : ConId × α) (hm : m ∈ b.multipliersOf (b.blockOf v)) : m.1 < q.constraints.size :=
    Problem.size_constraints_eq h.given_eq ▸ h.intact'.inRange.multipliers _ m hm
  have hreleasable : (b.multipliersOf (b.blockOf v)).filter (fun m => a.isReleasable (e.con m.1)) =
      (b.multipliersOf (b.blockOf v)).filter fun m => b.isReleasable m.1 := by
    apply List.filter_congr
    intro m hm
    rw [isReleasable, isReleasable, h.equality_eq (hlt m hm)]
  have hleast : firstLeast Prod.snd ((a.multipliersOf (a.blockOf (e.var v))).filter fun m =>
      a.isReleasable m.1) = (firstLeast Prod.snd ((b.multipliersOf (b.blockOf v)).filter fun m =>
        b.isReleasable m.1)).map fun m => (e.con m.1, m.2) := by
    rw [h.multipliersOf_eq hv, List.filter_map, ← hreleasable]
    exact firstLeast_map fun _ _ => rfl
  rw [negativeOf, negativeOf, hleast]
  cases firstLeast Prod.snd ((b.multipliersOf (b.blockOf v)).filter fun m => b.isReleasable m.1) with
  | none => rfl
  | some m =>
    simp only [Option.map_some, Option.filter_some]
    split <;> rfl

theorem findSome_roots :
    (a.roots.filter (e.Reaches q.vars.size)).findSome? (fun w => a.negativeOf (a.blockOf w)) =
      (b.blockIds.findSome? b.negativeOf).map e.con := by
  rw [h.roots_eq, List.findSome?_map, ← h.intact'.map_blockOf_roots, List.findSome?_map,
    List.map_findSome?, ← List.head?_filterMap, ← List.head?_filterMap]
  apply congrArg List.head?
  apply List.filterMap_congr
  intro v hv
  exact h.negativeOf_eq (Problem.size_vars_eq h.given_eq ▸ (h.intact'.mem_roots.mp hv).1)

theorem findNegative_none (hn : a.blockIds.findSome? a.negativeOf = none) :
    b.blockIds.findSome? b.negativeOf = none := by
  rw [← h.intact.map_blockOf_roots, List.findSome?_map, List.findSome?_eq_none_iff] at hn
  rw [← Option.map_eq_none_iff, ← h.findSome_roots, List.findSome?_eq_none_iff]
  exact fun w hw => hn w (List.mem_of_mem_filter hw)

theorem findNegative_some (hc : a.blockIds.findSome? a.negativeOf = some c) :
    (∃ d < q.constraints.size, e.con d = c ∧ b.blockIds.findSome? b.negativeOf = some d) ∨
      ∀ d < q.constraints.size, e.con d ≠ c := by
  rw [← h.intact.map_blockOf_roots, List.findSome?_map, List.findSome?_eq_some_iff] at hc
  obtain ⟨front, w, back, hroots, hw, hfront⟩ := hc
  by_cases hreach : e.Reaches q.vars.size w
  · left
    let P : VarId → Bool := fun w => e.Reaches q.vars.size w
    have hkeep : P w = true := decide_eq_true hreach
    have hsome : (a.roots.filter P).findSome? (fun w => a.negativeOf (a.blockOf w)) = some c := by
      rw [hroots, List.filter_append, List.filter_cons_of_pos hkeep]
      apply List.findSome?_eq_some_iff.mpr
      exact ⟨_, w, _, rfl, hw, fun x hx => hfront x (List.mem_of_mem_filter hx)⟩
    obtain ⟨d, hd, hdc⟩ := Option.map_eq_some_iff.mp (h.findSome_roots.symm.trans hsome)
    obtain ⟨i, -, hi⟩ := List.exists_of_findSome?_eq_some hd
    obtain ⟨x, hx⟩ := mem_of_negativeOf hi
    refine ⟨d, ?_, hdc, hd⟩
    exact Problem.size_constraints_eq h.given_eq ▸ h.intact'.inRange.multipliers i _ hx
  · right
    rintro d hd rfl
    obtain ⟨x, hx⟩ := mem_of_negativeOf hw
    have hleft := leftBlock_of_mem_multipliersOf h.intact hx
    rw [Arrangement.leftBlock_eq, h.left_eq hd] at hleft
    have hwroot : w ∈ a.roots := by
      rw [hroots]
      exact List.mem_append_right _ List.mem_cons_self
    exact hreach (h.reaches_of_blockOf (h.left_lt hd) (h.intact.mem_roots.mp hwroot).1 hleft.symm)

end Mirrors

end Arrangement

end Spacing
