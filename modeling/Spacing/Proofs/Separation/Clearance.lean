import Spacing.Proofs.Separation.Reduction
import Spacing.Proofs.Solver.Answer
import Spacing.Proofs.Solver.Given

namespace Spacing

theorem least_exact (x y : Rat) : Scalar.least x y = min x y := by
  rw [Scalar.least, if_pos le_rfl]
  split
  · rename_i h
    exact (min_eq_right h.le).symm
  · rename_i h
    exact (min_eq_left (not_lt.mp h)).symm

theorem greatest_exact (x y : Rat) : Scalar.greatest x y = max x y := by
  rw [Scalar.greatest, if_pos le_rfl]
  split
  · rename_i h
    exact (max_eq_right h.le).symm
  · rename_i h
    exact (max_eq_left (not_lt.mp h)).symm

namespace Rectangle

variable {α : Type} [Scalar α]

theorem overlap_moveTo_other (a b : Rectangle α) (axis : Axis) (x y : α) :
    (a.moveTo axis x).overlap (b.moveTo axis y) axis.other = a.overlap b axis.other := by
  cases axis <;> rfl

theorem low_moveTo (r : Rectangle Rat) (axis : Axis) (x : Rat) :
    (r.moveTo axis x).low axis = x - r.extent axis / 2 := by
  cases axis <;> simp only [moveTo, low, high, center, extent, two_exact] <;> ring

theorem high_moveTo (r : Rectangle Rat) (axis : Axis) (x : Rat) :
    (r.moveTo axis x).high axis = x + r.extent axis / 2 := by
  cases axis <;> simp only [moveTo, low, high, center, extent, two_exact] <;> ring

theorem overlap_comm (a b : Rectangle Rat) (axis : Axis) : a.overlap b axis = b.overlap a axis := by
  rw [overlap, overlap, least_exact, least_exact, greatest_exact, greatest_exact, min_comm, max_comm]

theorem overlap_moveTo_le (a b : Rectangle Rat) (axis : Axis) (x y : Rat) :
    (a.moveTo axis x).overlap (b.moveTo axis y) axis ≤
      (a.extent axis + b.extent axis) / 2 - (y - x) := by
  have hhigh : min ((a.moveTo axis x).high axis) ((b.moveTo axis y).high axis) ≤
      x + a.extent axis / 2 := (min_le_left _ _).trans (high_moveTo a axis x).le
  have hlow : y - b.extent axis / 2 ≤ max ((a.moveTo axis x).low axis) ((b.moveTo axis y).low axis) :=
    (low_moveTo b axis y).ge.trans (le_max_right _ _)
  rw [overlap, least_exact, greatest_exact]
  linarith

end Rectangle

namespace Problem

variable {α : Type} [Scalar α] {p : Problem α}

theorem insertVariables (hp : p.Consistent) (axis : Axis) (xs : List (Rectangle α × Nat)) :
    (xs.foldl (fun p x => p.insertVariable x.2 (x.1.center axis) Scalar.one) p).Consistent ∧
      (xs.foldl (fun p x => p.insertVariable x.2 (x.1.center axis) Scalar.one) p).vars.size =
        p.vars.size + xs.length := by
  induction xs generalizing p with
  | nil => exact ⟨hp, rfl⟩
  | cons x xs ih =>
    obtain ⟨hconsistent, hsize⟩ := ih (hp.insertVariable x.2 (x.1.center axis) Scalar.one)
    refine ⟨hconsistent, hsize.trans ?_⟩
    simp only [insertVariable, Array.size_push, List.length_cons]
    omega

def Separates (p : Problem α) (ts : List (Separation α)) : Prop :=
  ∀ t ∈ ts, ∃ c < p.constraints.size, (p.constraintAt c).left = t.left ∧
    (p.constraintAt c).right = t.right ∧ (p.constraintAt c).gap = t.gap

theorem Separates.given {q : Problem α} {ts : List (Separation α)} (h : p.Separates ts)
    (hq : q.given = p.given) : q.Separates ts := by
  intro t ht
  obtain ⟨c, hc, hl, hr, hg⟩ := h t ht
  rw [← size_constraints_eq hq] at hc
  exact ⟨c, hc, (left_eq hq c).trans hl, (right_eq hq c).trans hr, (gap_eq hq c).trans hg⟩

theorem insertSeparation (hp : p.Consistent) {ts : List (Separation α)} (h : p.Separates ts)
    {t : Separation α} (hl : t.left < p.vars.size) (hr : t.right < p.vars.size) :
    (p.insertConstraint t.left t.right t.gap false).Consistent ∧
      (p.insertConstraint t.left t.right t.gap false).vars.size = p.vars.size ∧
      (p.insertConstraint t.left t.right t.gap false).Separates (ts ++ [t]) := by
  refine ⟨hp.insertConstraint hl hr t.gap false, by simp [insertConstraint], fun u hu => ?_⟩
  rcases List.mem_append.mp hu with hu | hu
  · obtain ⟨c, hc, hends⟩ := h u hu
    refine ⟨c, by rw [size_insertConstraint]; omega, ?_⟩
    rwa [constraintAt_insertConstraint, if_neg hc.ne]
  · obtain rfl := List.mem_singleton.mp hu
    refine ⟨p.constraints.size, by rw [size_insertConstraint]; omega, ?_⟩
    rw [constraintAt_insertConstraint, if_pos rfl]
    exact ⟨rfl, rfl, rfl⟩

theorem insertSeparations (hp : p.Consistent) {ts us : List (Separation α)} (h : p.Separates ts)
    (hus : ∀ u ∈ us, u.left < p.vars.size ∧ u.right < p.vars.size) :
    (us.foldl (fun p u => p.insertConstraint u.left u.right u.gap false) p).Consistent ∧
      (us.foldl (fun p u => p.insertConstraint u.left u.right u.gap false) p).vars.size = p.vars.size ∧
      (us.foldl (fun p u => p.insertConstraint u.left u.right u.gap false) p).Separates (ts ++ us) := by
  induction us generalizing p ts with
  | nil => exact ⟨hp, rfl, (List.append_nil ts).symm ▸ h⟩
  | cons u us ih =>
    obtain ⟨hl, hr⟩ := hus u List.mem_cons_self
    obtain ⟨hp', hn, h'⟩ := insertSeparation hp h hl hr
    obtain ⟨hp'', hn', h''⟩ := ih hp' h' fun v hv => by
      rw [hn]
      exact hus v (List.mem_cons_of_mem _ hv)
    rw [List.append_assoc] at h''
    exact ⟨hp'', hn'.trans hn, h''⟩

theorem ofRectangles_separates (rects : List (Rectangle Rat)) (axis : Axis) (reduced : Bool) :
    (ofRectangles rects axis reduced).Consistent ∧
      (ofRectangles rects axis reduced).vars.size = rects.length ∧
      (ofRectangles rects axis reduced).Separates (separations rects axis reduced) := by
  obtain ⟨hp, hn⟩ := insertVariables consistent_empty axis rects.zipIdx
  have hn : _ = rects.length := hn.trans (by simp [empty])
  have hnone : (rects.zipIdx.foldl (fun p x => p.insertVariable x.2 (x.1.center axis) Scalar.one)
      (empty : Problem Rat)).Separates [] := fun _ hu => (List.not_mem_nil hu).elim
  obtain ⟨hp', hn', h⟩ := insertSeparations hp hnone fun u hu => by
    obtain ⟨hl, hr, -⟩ := Separation.key_lt (Separation.mem_of_mem_separations hu)
    rw [hn]
    exact ⟨hl, hr⟩
  exact ⟨hp', hn'.trans hn, h⟩

end Problem

namespace Separation

variable {rects : List (Rectangle Rat)} {axis : Axis} {i j : Nat} {a b : Rectangle Rat}

/-- By how much a separation may fail when each of those that are kept may fail by the tolerance of the
solver: once for each step in a row that keeps its ends apart. -/
def allowance (count : Nat) : Bool → Rat
  | false => Scalar.epsilon
  | true => ((count : Rat) - 1) * Scalar.epsilon

theorem gap_le_of_separations {reduced : Bool} {x : Nat → Rat}
    (h : ∀ s ∈ separations rects axis reduced, s.gap - Scalar.epsilon ≤ x s.right - x s.left)
    {s : Separation Rat} (hs : s ∈ ofList axis 0 rects) :
    s.gap - allowance rects.length reduced ≤ x s.right - x s.left := by
  cases reduced with
  | false => exact h s (mem_separations_false.mpr hs)
  | true =>
    have hgap := gap_le_of_reduce (fun _ => rank_lt_rank) epsilon_pos.le
      (fun t ht => h t (mem_separations_true.mpr ht)) hs
    have hspan : (rank rects axis s.right : Rat) - rank rects axis s.left ≤ rects.length - 1 := by
      have hlt : rank rects axis s.right < rects.length := rank_lt_length (key_lt hs).2.1
      have hcast : ((rank rects axis s.right + 1 : Nat) : Rat) ≤ rects.length := Nat.cast_le.mpr hlt
      have hleft : (0 : Rat) ≤ rank rects axis s.left := Nat.cast_nonneg _
      push_cast at hcast
      linarith
    have hmul := mul_le_mul_of_nonneg_right hspan epsilon_pos.le
    rw [allowance]
    linarith

theorem overlap_le_of_gap {x : Nat → Rat} {e : Rat}
    (h : ∀ s, ofPair axis i j a b = some s → s.gap - e ≤ x s.right - x s.left) :
    (a.moveTo axis (x i)).overlap (b.moveTo axis (x j)) axis.other ≤ Scalar.epsilon ∨
      (a.moveTo axis (x i)).overlap (b.moveTo axis (x j)) axis ≤ e := by
  rw [Rectangle.overlap_moveTo_other]
  refine or_iff_not_imp_left.mpr fun hoverlap => ?_
  rw [ofPair, if_neg hoverlap] at h
  dsimp only at h
  split at h
  · have hgap := h _ rfl
    have hle := Rectangle.overlap_moveTo_le b a axis (x j) (x i)
    rw [Rectangle.overlap_comm, add_comm] at hle
    dsimp only [two_exact] at hgap
    linarith
  · have hgap := h _ rfl
    have hle := Rectangle.overlap_moveTo_le a b axis (x i) (x j)
    dsimp only [two_exact] at hgap
    linarith

end Separation

namespace Solver

/-- Whatever the rectangles are, once a new solver has succeeded on their separations, in either mode and
with any options, the rectangles moved to where it has put them overlap by no more than the tolerance on
one of the axes, or by the tolerance for each step in a row if the separations were reduced. -/
theorem apart_of_solve (rects : List (Rectangle Rat)) (axis : Axis) (reduced : Bool) {mode : Mode}
    {options : Options Rat} {rounds : Nat} {s : Solver Rat}
    (h : (new (Problem.ofRectangles rects axis reduced) mode options).solve rounds = .ok (s, .ok ())) :
    s.problem.vars.size = rects.length ∧
    (rects.zipWith (fun r x => r.moveTo axis x.position) s.problem.vars.toList).Pairwise fun a b =>
      a.overlap b axis.other ≤ Scalar.epsilon ∨
        a.overlap b axis ≤ Separation.allowance rects.length reduced := by
  obtain ⟨hp, hn, hseparates⟩ := Problem.ofRectangles_separates rects axis reduced
  have hs := sound_new hp mode options
  obtain ⟨-, -, hsatisfied⟩ := (solve_answers (E := fun _ => True) trivial rounds hs).of_ok h
  have hgiven : s.problem.given = (Problem.ofRectangles rects axis reduced).given :=
    ((solve_pursues (E := fun _ => True) trivial rounds hs).of_ok h).given_eq.trans
      Arrangement.given_ofProblem
  have hsize : s.problem.vars.size = rects.length := (Problem.size_vars_eq hgiven).trans hn
  let x (i : Nat) : Rat := (s.problem.variableAt i).position
  have hkept (t : Separation Rat) (ht : t ∈ separations rects axis reduced) :
      t.gap - Scalar.epsilon ≤ x t.right - x t.left := by
    obtain ⟨c, hc, hl, hr, hg⟩ := hseparates.given hgiven t ht
    have hslack : ¬ s.problem.slack c < -Scalar.epsilon := fun hlt => hsatisfied c hc (.inl hlt)
    rw [Problem.slack, hl, hr, hg, not_lt] at hslack
    have hslack : -Scalar.epsilon ≤ x t.right - x t.left - t.gap := hslack
    linarith
  refine ⟨hsize, List.pairwise_iff_getElem.mpr fun i j hi hj hij => ?_⟩
  simp only [List.length_zipWith, Array.length_toList, hsize, min_self] at hi hj
  have hx (k : Nat) (hk : k < s.problem.vars.size) : s.problem.vars[k].position = x k := by
    simp [x, Problem.variableAt, hk]
  have hiv : i < s.problem.vars.size := hsize.symm ▸ hi
  have hjv : j < s.problem.vars.size := hsize.symm ▸ hj
  simp only [List.getElem_zipWith, Array.getElem_toList, hx i hiv, hx j hjv]
  -- Two rectangles are kept apart by their own separation or, if it has been left out, by a row of others.
  refine Separation.overlap_le_of_gap fun t ht => Separation.gap_le_of_separations hkept ?_
  refine (Separation.mem_ofList 0).mpr ⟨i, j, rects[i], rects[j], hij, ?_, ?_, ?_⟩
  · exact List.getElem?_eq_getElem hi
  · exact List.getElem?_eq_getElem hj
  · rwa [Nat.zero_add, Nat.zero_add]

end Solver

def Rectangle.stack : List (Rectangle Rat) :=
  [⟨0, 4, 0, 4⟩, ⟨1, 5, 1, 5⟩, ⟨2, 6, 2, 6⟩]

theorem Rectangle.separations_stack :
    separations stack .x true = [⟨0, 1, 4⟩, ⟨1, 2, 4⟩] := by
  have hordered : (Separation.reduce stack.length (Separation.ofList .x 0 stack)).Pairwise fun s t =>
      s.before t = true := by decide +kernel
  exact (List.mergeSort_of_pairwise hordered).trans (by decide +kernel)

theorem Solver.apart_of_solve_stack : ∃ s,
    (new (Problem.ofRectangles Rectangle.stack .x true) .batch Options.standard).solve 3 =
      .ok (s, .ok ()) ∧
    (Rectangle.stack.zipWith (fun r x => r.moveTo .x x.position) s.problem.vars.toList).Pairwise
      fun a b => a.overlap b .y ≤ Scalar.epsilon ∨ a.overlap b .x ≤ 2 * Scalar.epsilon := by
  have hok : Yields ((new (Problem.ofRectangles Rectangle.stack .x true) .batch Options.standard).solve 3)
      fun r => r.2 = .ok () := by
    rw [Problem.ofRectangles, Rectangle.separations_stack]
    decide +kernel
  obtain ⟨⟨s, reply⟩, h, hreply⟩ := hok
  cases hreply
  have hpairs := (apart_of_solve Rectangle.stack .x true h).2
  have hsteps : Separation.allowance Rectangle.stack.length true = 2 * Scalar.epsilon := by
    decide +kernel
  rw [hsteps] at hpairs
  exact ⟨s, h, hpairs⟩

end Spacing
