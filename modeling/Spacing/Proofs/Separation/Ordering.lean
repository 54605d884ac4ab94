import Mathlib.Data.Sym.Sym2
import Spacing.Proofs.Problem.Cycle
import Spacing.Proofs.Separation.Clearance

namespace Spacing

namespace Separation

section Before

variable {α : Type}

theorem before_iff {s t : Separation α} :
    s.before t = true ↔ s.left < t.left ∨ s.left = t.left ∧ s.right ≤ t.right := by
  simp [before]

theorem before_trans (s t u : Separation α) (hst : s.before t = true) (htu : t.before u = true) :
    s.before u = true := by
  rw [before_iff] at hst htu ⊢
  omega

theorem before_total (s t : Separation α) : (s.before t || t.before s) = true := by
  rw [Bool.or_eq_true, before_iff, before_iff]
  omega

end Before

section Ends

variable {α : Type}

def ends (s : Separation α) : Sym2 Nat :=
  s(s.left, s.right)

variable [Scalar α] {s : Separation α} {rects : List (Rectangle α)} {axis : Axis} {i j k : Nat}
  {a b : Rectangle α}

theorem ends_ofPair (h : ofPair axis i j a b = some s) : s.ends = s(i, j) := by
  rw [ofPair] at h
  split at h
  · cases h
  · dsimp only at h
    split at h
    · cases h
      exact Sym2.eq_swap
    · cases h
      rfl

theorem mem_ends_ofList (hs : s ∈ ofList axis k rects) (hi : i ∈ s.ends) : k ≤ i := by
  obtain ⟨m, n, a, b, -, -, -, hs⟩ := (mem_ofList k).mp hs
  rw [ends_ofPair hs, Sym2.mem_iff] at hi
  omega

theorem nodup_ends_ofFirst : ((ofFirst axis i a rects).map ends).Nodup := by
  rw [List.Nodup, List.pairwise_map, ofFirst, List.pairwise_filterMap]
  have hsnd : (rects.zipIdx (i + 1)).Pairwise fun x y => x.2 ≠ y.2 := by
    rw [← List.pairwise_map, List.zipIdx_map_snd]
    exact List.nodup_range'
  apply hsnd.imp
  rintro ⟨b, j⟩ ⟨c, k⟩ hjk s hs t ht
  rw [ends_ofPair hs, ends_ofPair ht]
  exact fun h => hjk (Sym2.congr_right.mp h)

theorem nodup_ends_ofList : ((ofList axis k rects).map ends).Nodup := by
  induction rects generalizing k with
  | nil => exact List.nodup_nil
  | cons a rects ih =>
    rw [ofList, List.map_append, List.nodup_append']
    refine ⟨nodup_ends_ofFirst, ih, fun e hfirst hrest => ?_⟩
    obtain ⟨s, hs, rfl⟩ := List.mem_map.mp hfirst
    obtain ⟨t, ht, hends⟩ := List.mem_map.mp hrest
    obtain ⟨m, b, -, hs⟩ := mem_ofFirst.mp hs
    -- The first rectangle is at `k`, and the others are after it.
    have hk : k ∈ t.ends := by
      rw [hends, ends_ofPair hs]
      exact Sym2.mem_mk_left _ _
    exact absurd (mem_ends_ofList ht hk) (Nat.not_succ_le_self k)

theorem nodup_ends_separations (rects : List (Rectangle α)) (axis : Axis) (reduced : Bool) :
    ((separations rects axis reduced).map ends).Nodup := by
  have hsub : (if reduced then reduce rects.length (ofList axis 0 rects)
      else ofList axis 0 rects).Sublist (ofList axis 0 rects) := by
    split
    · exact List.filter_sublist
    · exact List.Sublist.refl _
  rw [separations, ((List.mergeSort_perm _ _).map ends).nodup_iff]
  exact nodup_ends_ofList.sublist (hsub.map ends)

theorem separations_pairwise_lt (rects : List (Rectangle α)) (axis : Axis) (reduced : Bool) :
    (separations rects axis reduced).Pairwise fun s t =>
      s.left < t.left ∨ s.left = t.left ∧ s.right < t.right := by
  have hends := List.pairwise_map.mp (nodup_ends_separations rects axis reduced)
  apply (hends.and (List.pairwise_mergeSort before_trans before_total _)).imp
  rintro ⟨l, r, g⟩ ⟨l', r', g'⟩ ⟨hdistinct, hbefore⟩
  rw [before_iff] at hbefore
  dsimp only at hbefore ⊢
  have hne : ¬ (l = l' ∧ r = r') := by
    rintro ⟨rfl, rfl⟩
    exact hdistinct rfl
  omega

end Ends

variable {rects : List (Rectangle Rat)} {axis : Axis} {i j : Nat} {a b : Rectangle Rat}

theorem exists_ofPair :
    (∃ s, ofPair axis i j a b = some s) ↔ Scalar.epsilon < a.overlap b axis.other := by
  rw [← not_le, ofPair]
  split
  · rename_i h
    simp [h]
  · rename_i h
    dsimp only
    split <;> simp [h]

theorem mem_ends_separations (hij : i ≠ j) (ha : rects[i]? = some a) (hb : rects[j]? = some b) :
    s(i, j) ∈ (separations rects axis false).map ends ↔
      Scalar.epsilon < a.overlap b axis.other := by
  wlog hlt : i < j generalizing i j a b
  · rw [Sym2.eq_swap, Rectangle.overlap_comm]
    exact this hij.symm hb ha (by omega)
  rw [List.mem_map, ← exists_ofPair (i := i) (j := j)]
  constructor
  · rintro ⟨s, hs, hends⟩
    obtain ⟨m, n, a', b', hmn, ha', hb', hs⟩ := (mem_ofList 0).mp (mem_separations_false.mp hs)
    rw [ends_ofPair hs, Sym2.eq_iff] at hends
    obtain ⟨rfl, rfl⟩ : m = i ∧ n = j := by omega
    cases ha.symm.trans ha'
    cases hb.symm.trans hb'
    rw [Nat.zero_add, Nat.zero_add] at hs
    exact ⟨s, hs⟩
  · rintro ⟨s, hs⟩
    refine ⟨s, mem_separations_false.mpr ((mem_ofList 0).mpr ⟨i, j, a, b, hlt, ha, hb, ?_⟩),
      ends_ofPair hs⟩
    rwa [Nat.zero_add, Nat.zero_add]

end Separation

namespace Problem

variable {α : Type} [Scalar α] {p : Problem α}

theorem constraints_insertVariables (axis : Axis) (xs : List (Rectangle α × Nat)) :
    (xs.foldl (fun p x => p.insertVariable x.2 (x.1.center axis) Scalar.one) p).constraints =
      p.constraints := by
  induction xs generalizing p with
  | nil => rfl
  | cons x xs ih => exact ih

def Respects (p : Problem α) (r : VarId → VarId → Prop) : Prop :=
  ∀ c < p.constraints.size, r (p.edges.left c) (p.edges.right c)

variable {r : VarId → VarId → Prop}

theorem Respects.insertConstraint (h : p.Respects r) {left right : VarId} (hr : r left right) (gap : α)
    (equality : Bool) : (p.insertConstraint left right gap equality).Respects r := by
  intro c hc
  rw [size_insertConstraint] at hc
  simp only [edges, constraintAt_insertConstraint]
  split
  · exact hr
  · rename_i hne
    exact h c (lt_of_le_of_ne (Nat.le_of_lt_succ hc) hne)

theorem Respects.insertSeparations (h : p.Respects r) {us : List (Separation α)}
    (hr : ∀ u ∈ us, r u.left u.right) :
    (us.foldl (fun p u => p.insertConstraint u.left u.right u.gap false) p).Respects r := by
  induction us generalizing p with
  | nil => exact h
  | cons u us ih =>
    obtain ⟨hu, hus⟩ := List.forall_mem_cons.mp hr
    exact ih (h.insertConstraint hu u.gap false) hus

theorem respects_ofRectangles (rects : List (Rectangle Rat)) (axis : Axis) (reduced : Bool) :
    (ofRectangles rects axis reduced).Respects fun u v =>
      Separation.key rects axis u < Separation.key rects axis v := by
  apply Respects.insertSeparations
  · intro c hc
    rw [constraints_insertVariables] at hc
    exact absurd hc (Nat.not_lt_zero c)
  · intro s hs
    exact (Separation.key_lt (Separation.mem_of_mem_separations hs)).2.2

theorem isCyclic_ofRectangles (rects : List (Rectangle Rat)) (axis : Axis) (reduced : Bool) :
    (ofRectangles rects axis reduced).isCyclic = false := by
  obtain ⟨hp, -⟩ := ofRectangles_separates rects axis reduced
  rw [isCyclic_eq_false_iff hp]
  exact acyclic_of_lt (Separation.key rects axis) (respects_ofRectangles rects axis reduced)

end Problem

/-- Whatever the rectangles are, their separations come strictly in order of their ends and no two are
between the same rectangles. Before the reduction two rectangles have one just if they overlap on the other
axis. The problem of the rectangles has no cycle, reduced or not. -/
theorem separations_ordered (rects : List (Rectangle Rat)) (axis : Axis) (reduced : Bool) :
    ((separations rects axis reduced).Pairwise fun s t =>
      s.left < t.left ∨ s.left = t.left ∧ s.right < t.right) ∧
    (∀ i j, ((separations rects axis reduced).map Separation.ends).count s(i, j) ≤ 1) ∧
    (∀ i j a b, i ≠ j → rects[i]? = some a → rects[j]? = some b →
      (((separations rects axis false).map Separation.ends).count s(i, j) = 1 ↔
        Scalar.epsilon < a.overlap b axis.other)) ∧
    (Problem.ofRectangles rects axis reduced).isCyclic = false := by
  have hnodup := Separation.nodup_ends_separations rects axis
  refine ⟨Separation.separations_pairwise_lt rects axis reduced, fun i j => ?_,
    fun i j a b hij ha hb => ?_, Problem.isCyclic_ofRectangles rects axis reduced⟩
  · exact List.nodup_iff_count_le_one.mp (hnodup reduced) _
  · rw [← Separation.mem_ends_separations hij ha hb]
    constructor
    · exact fun h => List.count_pos_iff.mp (h ▸ Nat.one_pos)
    · exact List.count_eq_one_of_mem (hnodup false)

def Rectangle.pile : List (Rectangle Rat) :=
  [⟨0, 4, 0, 4⟩, ⟨4, 0, 1, 3⟩, ⟨1, 3, 2, 5⟩, ⟨1, 3, 2, 2⟩]

theorem separations_ordered_pile :
    ((separations Rectangle.pile .x false).map Separation.ends).count s(2, 0) = 1 ∧
    ((separations Rectangle.pile .x false).map Separation.ends).count s(2, 3) ≠ 1 ∧
    (Problem.ofRectangles Rectangle.pile .x true).isCyclic = false := by
  obtain ⟨-, -, hcount, -⟩ := separations_ordered Rectangle.pile .x false
  refine ⟨(hcount 2 0 _ _ (by decide) rfl rfl).mpr (by decide +kernel), fun h => ?_,
    (separations_ordered Rectangle.pile .x true).2.2.2⟩
  exact absurd ((hcount 2 3 _ _ (by decide) rfl rfl).mp h) (by decide +kernel)

end Spacing
