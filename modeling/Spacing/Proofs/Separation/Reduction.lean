import Mathlib.Data.Finset.Card
import Mathlib.Data.Prod.Lex
import Spacing.Proofs.Exact.Number
import Spacing.Separation
/-!
The reduction of separations. A separation is left out for two in a row, each of which spans less of the
order of the rectangles by center and index, so that those which are kept imply it in the end.
-/

namespace Spacing

namespace Separation

section Membership

variable {α : Type} [Scalar α] {s : Separation α} {l : List (Separation α)}
  {rects : List (Rectangle α)} {axis : Axis} {i : Nat} {a : Rectangle α}

theorem mem_ofFirst : s ∈ ofFirst axis i a rects ↔
    ∃ m b, rects[m]? = some b ∧ ofPair axis i (i + 1 + m) a b = some s := by
  simp only [ofFirst, List.mem_filterMap, Prod.exists, List.mk_mem_zipIdx_iff_le_and_getElem?_sub]
  constructor
  · rintro ⟨b, j, ⟨hj, hb⟩, hs⟩
    refine ⟨j - (i + 1), b, hb, ?_⟩
    rwa [Nat.add_sub_cancel' hj]
  · rintro ⟨m, b, hb, hs⟩
    exact ⟨b, i + 1 + m, ⟨Nat.le_add_right _ _, by rwa [Nat.add_sub_cancel_left]⟩, hs⟩

theorem mem_ofList (k : Nat) : s ∈ ofList axis k rects ↔ ∃ i j a b, i < j ∧ rects[i]? = some a ∧
    rects[j]? = some b ∧ ofPair axis (k + i) (k + j) a b = some s := by
  induction rects generalizing k with
  | nil => simp [ofList]
  | cons r rects ih =>
    rw [ofList, List.mem_append, mem_ofFirst, ih]
    constructor
    · rintro (⟨m, b, hb, hs⟩ | ⟨i, j, a, b, hij, ha, hb, hs⟩)
      · refine ⟨0, m + 1, r, b, Nat.succ_pos m, rfl, hb, ?_⟩
        rwa [Nat.add_zero, ← Nat.add_comm 1 m, ← Nat.add_assoc]
      · refine ⟨i + 1, j + 1, a, b, Nat.succ_lt_succ hij, ha, hb, ?_⟩
        rwa [← Nat.add_comm 1 i, ← Nat.add_comm 1 j, ← Nat.add_assoc, ← Nat.add_assoc]
    · rintro ⟨i, j, a, b, hij, ha, hb, hs⟩
      obtain ⟨j, rfl⟩ := Nat.exists_eq_add_one_of_ne_zero (Nat.ne_zero_of_lt hij)
      cases i with
      | zero =>
        left
        cases ha
        refine ⟨j, b, hb, ?_⟩
        rwa [Nat.add_right_comm, Nat.add_assoc]
      | succ i =>
        right
        refine ⟨i, j, a, b, Nat.lt_of_succ_lt_succ hij, ha, hb, ?_⟩
        rwa [Nat.add_right_comm, Nat.add_assoc, Nat.add_right_comm k 1 j, Nat.add_assoc k j]

theorem exists_of_isImplied {size : Nat} (h : s.isImplied ((Array.range size).map fun v =>
      l.filter fun t => t.left == v) = true) :
    ∃ t ∈ l, ∃ u ∈ l, t.left = s.left ∧ u.left = t.right ∧ u.right = s.right ∧
      s.gap ≤ t.gap + u.gap := by
  have hmem {v : Nat} {t : Separation α} (ht : t ∈ ((Array.range size).map fun v =>
      l.filter fun t => t.left == v).getD v []) : t ∈ l ∧ t.left = v := by
    by_cases hv : v < size
    · simpa [hv] using ht
    · simp [hv] at ht
  simp only [isImplied, List.any_eq_true, Bool.and_eq_true, beq_iff_eq, decide_eq_true_eq] at h
  obtain ⟨t, ht, -, u, hu, hright, hgap⟩ := h
  obtain ⟨htl, hleft⟩ := hmem ht
  obtain ⟨hul, hmid⟩ := hmem hu
  exact ⟨t, htl, u, hul, hleft, hmid, hright, hgap⟩

end Membership

variable {rects : List (Rectangle Rat)} {axis : Axis} {i j : Nat} {s : Separation Rat}
  {all : List (Separation Rat)}

def key (rects : List (Rectangle Rat)) (axis : Axis) (i : Nat) : Rat ×ₗ Nat :=
  toLex ((rects[i]?.map fun r => r.center axis).getD 0, i)

def rank (rects : List (Rectangle Rat)) (axis : Axis) (i : Nat) : Nat :=
  ((Finset.range rects.length).filter fun k => key rects axis k < key rects axis i).card

theorem key_lt (hs : s ∈ ofList axis 0 rects) :
    s.left < rects.length ∧ s.right < rects.length ∧ key rects axis s.left < key rects axis s.right := by
  obtain ⟨i, j, a, b, hij, ha, hb, hs⟩ := (mem_ofList 0).mp hs
  have hi := (List.getElem?_eq_some_iff.mp ha).1
  have hj := (List.getElem?_eq_some_iff.mp hb).1
  rw [Nat.zero_add, Nat.zero_add, ofPair] at hs
  split at hs
  · cases hs
  · dsimp only at hs
    split at hs
    · cases hs
      refine ⟨hj, hi, Prod.Lex.toLex_lt_toLex.mpr (.inl ?_)⟩
      simpa [ha, hb]
    · rename_i hle
      cases hs
      refine ⟨hi, hj, Prod.Lex.toLex_lt_toLex.mpr ?_⟩
      rcases (not_lt.mp hle).lt_or_eq with hlt | heq
      · exact .inl (by simpa [ha, hb])
      · exact .inr ⟨by simpa [ha, hb], hij⟩

theorem rank_lt_length (hi : i < rects.length) : rank rects axis i < rects.length := by
  have h : (Finset.range rects.length).filter (fun k => key rects axis k < key rects axis i) ⊂
      Finset.range rects.length :=
    Finset.filter_ssubset.mpr ⟨i, Finset.mem_range.mpr hi, lt_irrefl _⟩
  have hcard := Finset.card_lt_card h
  rwa [Finset.card_range] at hcard

theorem rank_lt_rank (hs : s ∈ ofList axis 0 rects) :
    rank rects axis s.left < rank rects axis s.right := by
  obtain ⟨hl, -, hlt⟩ := key_lt hs
  have hsub : (Finset.range rects.length).filter (fun k => key rects axis k < key rects axis s.left) ⊆
      (Finset.range rects.length).filter fun k => key rects axis k < key rects axis s.right := by
    intro k hk
    obtain ⟨hk, hbefore⟩ := Finset.mem_filter.mp hk
    exact Finset.mem_filter.mpr ⟨hk, hbefore.trans hlt⟩
  apply Finset.card_lt_card
  refine (Finset.ssubset_iff_of_subset hsub).mpr ⟨s.left, ?_, ?_⟩
  · exact Finset.mem_filter.mpr ⟨Finset.mem_range.mpr hl, hlt⟩
  · exact fun h => lt_irrefl _ (Finset.mem_filter.mp h).2

theorem gap_le_of_reduce {size : Nat} {rank : Nat → Nat} (hrank : ∀ s ∈ all, rank s.left < rank s.right)
    {x : Nat → Rat} {e : Rat} (he : 0 ≤ e)
    (h : ∀ s ∈ reduce size all, s.gap - e ≤ x s.right - x s.left) (hs : s ∈ all) :
    s.gap - ((rank s.right : Rat) - rank s.left) * e ≤ x s.right - x s.left := by
  -- By induction on how far `s` spans the ranks: the two that stand in for it span less each.
  induction hn : rank s.right - rank s.left using Nat.strong_induction_on generalizing s with
  | _ n ih =>
    have hlt := hrank s hs
    have hspan : (1 : Rat) ≤ (rank s.right : Rat) - rank s.left := by
      have hcast : ((rank s.left + 1 : Nat) : Rat) ≤ rank s.right := Nat.cast_le.mpr hlt
      push_cast at hcast
      linarith
    by_cases himplied : s.isImplied ((Array.range size).map fun v => all.filter fun t => t.left == v)
    · obtain ⟨t, ht, u, hu, hleft, hmid, hright, hgap⟩ := exists_of_isImplied himplied
      have htlt := hrank t ht
      have hult := hrank u hu
      rw [hleft] at htlt
      rw [hmid, hright] at hult
      have hxt := ih _ (by rw [hleft]; omega) ht rfl
      have hxu := ih _ (by rw [hmid, hright]; omega) hu rfl
      rw [hleft] at hxt
      rw [hmid, hright] at hxu
      linarith
    · have hkept := h s (List.mem_filter.mpr ⟨hs, by simpa using himplied⟩)
      have hmul := mul_le_mul_of_nonneg_right hspan he
      linarith

theorem mem_separations_false : s ∈ separations rects axis false ↔ s ∈ ofList axis 0 rects :=
  List.mem_mergeSort

theorem mem_separations_true : s ∈ separations rects axis true ↔
    s ∈ reduce rects.length (ofList axis 0 rects) :=
  List.mem_mergeSort

theorem mem_of_mem_separations {reduced : Bool} (hs : s ∈ separations rects axis reduced) :
    s ∈ ofList axis 0 rects := by
  cases reduced with
  | false => exact mem_separations_false.mp hs
  | true => exact List.mem_of_mem_filter (mem_separations_true.mp hs)

end Separation

open Separation

/-- Whatever the rectangles are, the reduction only leaves out separations, and centers that keep to the
others keep to these as well. -/
theorem separations_reduced (rects : List (Rectangle Rat)) (axis : Axis) :
    separations rects axis true ⊆ separations rects axis false ∧
    ∀ x : Nat → Rat, (∀ s ∈ separations rects axis true, s.gap ≤ x s.right - x s.left) ↔
      ∀ s ∈ separations rects axis false, s.gap ≤ x s.right - x s.left := by
  have hsub : separations rects axis true ⊆ separations rects axis false := fun s hs =>
    mem_separations_false.mpr (mem_of_mem_separations hs)
  refine ⟨hsub, fun x => ⟨fun h s hs => ?_, fun h s hs => h s (hsub hs)⟩⟩
  have hkept (t : Separation Rat) (ht : t ∈ reduce rects.length (ofList axis 0 rects)) :
      t.gap - 0 ≤ x t.right - x t.left := by
    rw [sub_zero]
    exact h t (mem_separations_true.mpr ht)
  have hgap := gap_le_of_reduce (fun _ => rank_lt_rank) le_rfl hkept (mem_separations_false.mp hs)
  rwa [mul_zero, sub_zero] at hgap

end Spacing
