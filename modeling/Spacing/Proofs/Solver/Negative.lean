import Spacing.Proofs.Arrangement.Multiplier
import Spacing.Proofs.Arrangement.Still
import Spacing.Solver.Batch

namespace Spacing.Arrangement

variable {α : Type} [Scalar α] {a : Arrangement α} {b : BlockId} {c : ConId} {bs : List BlockId}

theorem firstNegative_cons (a : Arrangement α) (b : BlockId) (bs : List BlockId) :
    a.firstNegative (b :: bs) =
      match (a.leastMultiplier b).2.filter (a.leastMultiplier b).1.isNegative with
      | some c => ((a.leastMultiplier b).1, some c)
      | none => (a.leastMultiplier b).1.firstNegative bs := rfl

theorem firstNegative_keeps {I : Arrangement α → Prop}
    (hI : ∀ a b, a.Intact → I a → I (a.writeMultipliers (a.multipliersOf b)))
    (ha : a.Intact) (h : I a) : (a.firstNegative bs).1.Intact ∧ I (a.firstNegative bs).1 := by
  induction bs generalizing a with
  | nil => exact ⟨ha, h⟩
  | cons b bs ih =>
    have ha' : (a.leastMultiplier b).1.Intact := ha.writeMultipliers _
    have h' : I (a.leastMultiplier b).1 := hI a b ha h
    rw [firstNegative_cons]
    split
    · exact ⟨ha', h'⟩
    · exact ih ha' h'

theorem still_firstNegative (ha : a.Intact) (bs : List BlockId) : Still a (a.firstNegative bs).1 :=
  (firstNegative_keeps (I := Still a) (fun a' _ _ h => h.trans (still_writeMultipliers a' _)) ha
    .refl).2

theorem firstNegative_eq_some (ha : a.Intact) (h : (a.firstNegative bs).2 = some c) :
    c ∈ (a.firstNegative bs).1.problem.active ∧ (a.firstNegative bs).1.isReleasable c ∧
      ∃ b ∈ bs, ∃ x, (c, x) ∈ (a.firstNegative bs).1.multipliersOf b ∧ x < -Scalar.epsilon := by
  induction bs generalizing a with
  | nil => cases h
  | cons b bs ih =>
    have ha' : (a.leastMultiplier b).1.Intact := ha.writeMultipliers _
    rw [firstNegative_cons] at h ⊢
    split at h
    · rename_i d hd
      obtain rfl : d = c := Option.some.inj h
      obtain ⟨hactive, hrel, x, hx, hneg⟩ := negative_of_leastMultiplier ha hd
      refine ⟨?_, ?_, b, List.mem_cons_self, x, ?_, hneg⟩
      · exact (active_writeMultipliers (a := a) _).symm ▸ hactive
      · exact (isReleasable_writeMultipliers (a := a) _ d).trans hrel
      · exact (multipliersOf_writeMultipliers (a := a) _ b).symm ▸ hx
    · obtain ⟨hactive, hrel, i, hi, hx⟩ := ih ha' h
      exact ⟨hactive, hrel, i, List.mem_cons_of_mem _ hi, hx⟩

theorem firstNegative_eq_none (ha : a.Intact) (h : (a.firstNegative bs).2 = none) :
    ∀ b ∈ bs, ∀ m, firstLeast Prod.snd (((a.firstNegative bs).1.multipliersOf b).filter fun m =>
      (a.firstNegative bs).1.isReleasable m.1) = some m → ¬ m.2 < -Scalar.epsilon := by
  induction bs generalizing a with
  | nil => simp
  | cons i bs ih =>
    have ha' : (a.leastMultiplier i).1.Intact := ha.writeMultipliers _
    rw [firstNegative_cons] at h ⊢
    split at h
    · cases h
    · rename_i hnone
      intro b hb m hm
      rcases List.mem_cons.mp hb with rfl | hb
      · -- The scan of the other blocks leaves the multipliers of this one alone.
        let I := fun a' : Arrangement α => a'.multipliersOf b = a.multipliersOf b ∧
          ∀ c, a'.isReleasable c = a.isReleasable c
        have hI : ∀ a' i, a'.Intact → I a' → I (a'.writeMultipliers (a'.multipliersOf i)) := by
          rintro a' i - ⟨h1, h2⟩
          exact ⟨(multipliersOf_writeMultipliers _ b).trans h1,
            fun c => (isReleasable_writeMultipliers _ c).trans (h2 c)⟩
        have hkept : I ((a.leastMultiplier b).1.firstNegative bs).1 :=
          (firstNegative_keeps hI ha' (hI a b ha ⟨rfl, fun _ => rfl⟩)).2
        obtain ⟨h1, h2⟩ := hkept
        simp only [h1, h2] at hm
        have hleast : (a.leastMultiplier b).2 = some m.1 := congrArg (Option.map Prod.fst) hm
        obtain ⟨hmem, -⟩ := List.mem_filter.mp (mem_of_firstLeast hm)
        intro hneg
        have hx : (a.leastMultiplier b).1.isNegative m.1 = true := by
          refine decide_eq_true ?_
          rwa [leastMultiplier, multiplier_writeMultipliers (x := m.2) ha hmem]
        rw [hleast, Option.filter_some, if_pos hx] at hnone
        cases hnone
      · exact ih ha' h b hb m hm

theorem getD_derivatives (hv : v < a.problem.vars.size) : (a.derivatives i).getD v Scalar.zero =
    Scalar.two * (a.problem.variableAt v).weight * ((a.blockAt i).position +
      (a.problem.variableAt v).offset - (a.problem.variableAt v).desired) := by
  simp [derivatives, Problem.variableAt, hv]

def negativeOf (a : Arrangement α) (i : BlockId) : Option ConId :=
  ((firstLeast Prod.snd ((a.multipliersOf i).filter fun m => a.isReleasable m.1)).filter
    fun m => decide (m.2 < -Scalar.epsilon)).map Prod.fst

theorem mem_of_negativeOf (h : a.negativeOf i = some c) : ∃ x, (c, x) ∈ a.multipliersOf i := by
  obtain ⟨⟨d, x⟩, hm, rfl⟩ := Option.map_eq_some_iff.mp h
  exact ⟨x, (List.mem_filter.mp (mem_of_firstLeast (Option.filter_eq_some_iff.mp hm).1)).1⟩

theorem negativeOf_eq_filter (ha : a.Intact) (i : BlockId) :
    (a.leastMultiplier i).2.filter (a.leastMultiplier i).1.isNegative = a.negativeOf i := by
  rw [negativeOf]
  cases hm : firstLeast Prod.snd ((a.multipliersOf i).filter fun m => a.isReleasable m.1) with
  | none => rw [leastMultiplier, hm]; rfl
  | some m =>
    have hmem := (List.mem_filter.mp (mem_of_firstLeast hm)).1
    have hneg : (a.leastMultiplier i).1.isNegative m.1 = decide (m.2 < -Scalar.epsilon) := by
      rw [isNegative, leastMultiplier, multiplier_writeMultipliers (x := m.2) ha hmem]
    have hleast : (a.leastMultiplier i).2 = some m.1 := congrArg (Option.map Prod.fst) hm
    rw [hleast, Option.filter_some, Option.filter_some, hneg]
    split <;> rfl

theorem Still.multipliersOf_eq (h : Still a a') (i : BlockId) :
    a'.multipliersOf i = a.multipliersOf i := by
  have hg := h.given_eq
  have htree (root : VarId) : a'.problem.tree i root = a.problem.tree i root := by
    apply Problem.tree_congr (Problem.size_vars_eq hg) _ h.blockOf_eq (Problem.edges_eq hg) h.active_eq
    intro v
    simp only [Problem.crossings, Problem.ins_eq hg, Problem.outs_eq hg]
  have hposition : (a'.blockAt i).position = (a.blockAt i).position :=
    (congrArg Block.position (h.blockAt_body i) :)
  have hwant : a'.derivatives i = a.derivatives i := by
    have hsize := Problem.size_vars_eq hg
    apply Array.ext
    · simpa [derivatives] using hsize
    · intro v h1 h2
      have hv : v < a.problem.vars.size := by simpa [derivatives] using h2
      have hget := getD_derivatives (a := a') (i := i) (hsize.symm ▸ hv)
      rw [Problem.weight_eq hg, h.offset_eq, Problem.desired_eq hg, hposition,
        ← getD_derivatives (a := a) hv] at hget
      simpa [h1, h2] using hget
  simp only [multipliersOf, h.members_eq, hwant, htree]

theorem Still.negativeOf_eq (h : Still a a') (i : BlockId) : a'.negativeOf i = a.negativeOf i := by
  simp only [negativeOf, h.multipliersOf_eq, isReleasable, Problem.equality_eq h.given_eq]

theorem firstNegative_eq_findSome (ha : a.Intact) (bs : List BlockId) :
    (a.firstNegative bs).2 = bs.findSome? a.negativeOf := by
  induction bs generalizing a with
  | nil => rfl
  | cons i bs ih =>
    have hrest := ih (ha.writeMultipliers (a.multipliersOf i))
    have hstill := still_writeMultipliers a (a.multipliersOf i)
    rw [funext hstill.negativeOf_eq] at hrest
    rw [firstNegative_cons, negativeOf_eq_filter ha, List.findSome?_cons]
    split
    · rename_i hc
      rw [hc]
    · rename_i hc
      rw [hc]
      exact hrest

end Spacing.Arrangement
