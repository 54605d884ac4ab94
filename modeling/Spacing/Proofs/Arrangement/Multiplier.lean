import Spacing.Proofs.Arrangement.Path

namespace Spacing

variable {α : Type} [Scalar α]

theorem fst_multipliers (want : Array α) (bs : List Branch) :
    (multipliers want bs).map Prod.fst = bs.map fun b => b.via := by
  induction bs generalizing want with
  | nil => rfl
  | cons b bs ih => simp [multipliers, ih]

theorem nodup_vias {p : Problem α} {S : Set VarId} {bs : List Branch} (hg : Grown S bs)
    (hf : ∀ x ∈ bs, p.Follows x) : (bs.map fun b => b.via).Nodup := by
  induction bs using List.reverseRecOn with
  | nil => exact List.nodup_nil
  | append_singleton bs b ih =>
    have hf' : ∀ x ∈ bs, p.Follows x := fun x hx => hf x (List.mem_append_left _ hx)
    have hvia := Problem.via_notMem_crossed hg hf
    rw [List.map_append, List.map_singleton, ← List.concat_eq_append]
    refine (ih (grown_concat hg).1 hf').concat fun hb => hvia ?_
    obtain ⟨x, hx, he⟩ := List.mem_map.mp hb
    exact ⟨x, hx, he⟩

namespace Arrangement

variable {a : Arrangement α} {b i : BlockId} {B : Block α} {c : ConId} {x : α}
  {ms : List (ConId × α)} {root : VarId}

def multipliersFrom (a : Arrangement α) (b : BlockId) (root : VarId) : List (ConId × α) :=
  multipliers (a.derivatives b) (a.problem.tree b root).reverse

theorem fst_multipliersFrom (a : Arrangement α) (b : BlockId) (root : VarId) :
    (a.multipliersFrom b root).map Prod.fst = ((a.problem.tree b root).map fun x => x.via).reverse := by
  rw [multipliersFrom, fst_multipliers, List.map_reverse]

theorem nodup_fst_multipliersFrom (hp : a.problem.Consistent) (b : BlockId) (root : VarId) :
    ((a.multipliersFrom b root).map Prod.fst).Nodup := by
  rw [fst_multipliersFrom, List.nodup_reverse]
  exact nodup_vias (Problem.grown_tree _ _ _) (Problem.follows_of_mem_tree hp)

theorem multipliersOf_eq (hB : a.block? b = some B) {root : VarId} (hr : B.members.head? = some root) :
    a.multipliersOf b = multipliers (a.derivatives b) (a.problem.tree b root).reverse := by
  rw [multipliersOf, blockAt_eq hB, hr]

theorem multipliersOf_cases (a : Arrangement α) (b : BlockId) : a.multipliersOf b = [] ∨
    ∃ root, a.multipliersOf b = multipliers (a.derivatives b) (a.problem.tree b root).reverse := by
  unfold multipliersOf
  split
  · exact .inl rfl
  · exact .inr ⟨_, rfl⟩

theorem active_of_mem_multipliersOf (hp : a.problem.Consistent) (h : (c, x) ∈ a.multipliersOf b) :
    c ∈ a.problem.active := by
  rcases a.multipliersOf_cases b with he | ⟨root, he⟩
  · rw [he] at h
    cases h
  · rw [he] at h
    have hc := List.mem_map_of_mem (f := Prod.fst) h
    rw [fst_multipliers, List.map_reverse, List.mem_reverse] at hc
    obtain ⟨y, hy, hyc⟩ := List.mem_map.mp hc
    have hactive := (Problem.follows_of_mem_tree hp y hy).active
    rw [hyc] at hactive
    exact hactive

theorem nodup_fst_multipliersOf (hp : a.problem.Consistent) (b : BlockId) :
    ((a.multipliersOf b).map Prod.fst).Nodup := by
  rcases a.multipliersOf_cases b with he | ⟨root, he⟩
  · rw [he]
    exact List.nodup_nil
  · rw [he]
    exact nodup_fst_multipliersFrom hp b root

theorem members_perm_tree (ha : a.Intact) (hB : a.block? b = some B) {root : VarId}
    (hr : root ∈ B.members) : B.members.Perm (root :: childrenOf (a.problem.tree b root)) := by
  refine (List.perm_ext_iff_of_nodup (ha.nodup b B hB) (Problem.nodup_tree _ _ _)).mpr fun v => ?_
  have hrb := ha.blockOf_eq hB hr
  have hrlt := ha.lt_of_mem hB hr
  rw [Problem.mem_tree_iff ha.consistent ha.together hrb, ha.mem_iff b B hB]
  constructor
  · exact fun ⟨hv, hvb⟩ => ha.linked root hrlt v hv (hrb.trans hvb.symm)
  · intro hl
    exact ⟨ha.consistent.lt_of_linked (Set.Subset.refl _) hrlt hl,
      (ha.blockOf_eq_of_linked hl).symm.trans hrb⟩

theorem mem_fst_multipliersFrom (ha : a.Intact) (hB : a.block? b = some B) (hr : root ∈ B.members) :
    c ∈ (a.multipliersFrom b root).map Prod.fst ↔ c ∈ a.problem.active ∧ a.leftBlock c = b := by
  have hperm := members_perm_tree ha hB hr
  have hf (x : Branch) (hx : x ∈ a.problem.tree b root) : a.problem.Follows x :=
    Problem.follows_of_mem_tree ha.consistent x hx
  rw [fst_multipliersFrom, List.mem_reverse]
  constructor
  · intro hc
    obtain ⟨x, hx, rfl⟩ := List.mem_map.mp hc
    have hactive := (hf x hx).active
    have hchild : x.child ∈ B.members :=
      hperm.mem_iff.mpr (List.mem_cons_of_mem _ (mem_childrenOf.mpr ⟨x, hx, rfl⟩))
    have hcb := ha.blockOf_eq hB hchild
    rw [(hf x hx).child] at hcb
    refine ⟨hactive, ?_⟩
    rw [leftBlock_eq]
    split at hcb
    · exact (ha.together _ hactive).trans hcb
    · exact hcb
  · rintro ⟨hactive, hcb⟩
    by_contra hc
    have hreached (v : VarId) (hv : v < a.problem.vars.size) (hvb : a.blockOf v = b) :
        a.problem.edges.Linked (a.problem.active \ {c}) root v := by
      have hmem := hperm.mem_iff.mp (ha.mem_of_blockOf hB hv hvb)
      apply (Problem.linked_crossed (Problem.grown_tree _ b root) hf (List.mem_cons.mp hmem)).mono
      rintro d ⟨x, hx, rfl⟩
      exact ⟨(hf x hx).active, fun he => hc (he ▸ List.mem_map_of_mem (f := fun x : Branch => x.via) hx)⟩
    -- The walk would reach both ends without `c`.
    apply ha.forest c hactive
    exact (hreached _ (ha.left_lt hactive) hcb).symm.trans
      (hreached _ (ha.right_lt hactive) ((ha.together c hactive).symm.trans hcb))

theorem leftBlock_of_mem_multipliersOf (ha : a.Intact) {m : ConId × α}
    (hm : m ∈ a.multipliersOf b) : a.leftBlock m.1 = b := by
  cases hB : a.block? b with
  | none =>
    have : a.multipliersOf b = [] := by
      rw [multipliersOf, blockAt, hB]
      rfl
    rw [this] at hm
    cases hm
  | some B =>
    obtain ⟨root, rest, hmem⟩ := List.exists_cons_of_ne_nil (ha.nonempty b B hB)
    have hroot : root ∈ B.members := hmem ▸ List.mem_cons_self
    rw [multipliersOf_eq hB (by rw [hmem, List.head?_cons] : B.members.head? = some root)] at hm
    exact ((mem_fst_multipliersFrom ha hB hroot).mp (List.mem_map_of_mem hm)).2

theorem constraintAt_foldl_of_notMem {p : Problem α} (hc : c ∉ ms.map Prod.fst) :
    (ms.foldl (fun p m => p.modifyConstraint m.1 fun k => { k with multiplier := m.2 }) p).constraintAt
      c = p.constraintAt c := by
  induction ms generalizing p with
  | nil => rfl
  | cons m ms ih =>
    rw [List.map_cons, List.mem_cons, not_or] at hc
    rw [List.foldl_cons, ih hc.2]
    simp only [Problem.constraintAt, Problem.modifyConstraint, Array.getD_eq_getD_getElem?,
      Array.getElem?_modify, if_neg (Ne.symm hc.1)]

theorem constraintAt_foldl_multipliers {p : Problem α} (hn : (ms.map Prod.fst).Nodup)
    (hlt : ∀ m ∈ ms, m.1 < p.constraints.size) (hm : (c, x) ∈ ms) :
    ((ms.foldl (fun p m => p.modifyConstraint m.1 fun k => { k with multiplier := m.2 }) p).constraintAt
      c).multiplier = x := by
  induction ms generalizing p with
  | nil => cases hm
  | cons m ms ih =>
    obtain ⟨hnew, hn⟩ := List.nodup_cons.mp hn
    simp only [List.mem_cons, forall_eq_or_imp] at hlt
    have hlt' : ∀ m' ∈ ms,
        m'.1 < (p.modifyConstraint m.1 fun k => { k with multiplier := m.2 }).constraints.size := by
      simpa using hlt.2
    rw [List.foldl_cons]
    rcases List.mem_cons.mp hm with rfl | hm
    · rw [constraintAt_foldl_of_notMem hnew, Problem.constraintAt_modifyConstraint _ hlt.1, if_pos rfl]
    · exact ih hn hlt' hm

theorem multiplier_writeMultipliers (ha : a.Intact) (h : (c, x) ∈ a.multipliersOf b) :
    ((a.writeMultipliers (a.multipliersOf b)).problem.constraintAt c).multiplier = x :=
  constraintAt_foldl_multipliers (nodup_fst_multipliersOf ha.consistent b)
    (fun m hm => Problem.lt_size_of_mem_active (active_of_mem_multipliersOf ha.consistent (x := m.2) hm)) h

theorem multipliersOf_writeMultipliers (ms : List (ConId × α)) (b : BlockId) :
    (a.writeMultipliers ms).multipliersOf b = a.multipliersOf b := by
  have htree (root : VarId) : (a.writeMultipliers ms).problem.tree b root = a.problem.tree b root :=
    tree_writeMultipliers ms b root
  have hwant : (a.writeMultipliers ms).derivatives b = a.derivatives b := by
    rw [derivatives, writeMultipliers, vars_foldl_multipliers]
    rfl
  have hblock : (a.writeMultipliers ms).blockAt b = a.blockAt b := rfl
  unfold multipliersOf
  simp only [hblock, hwant, htree]

theorem isReleasable_writeMultipliers (ms : List (ConId × α)) (c : ConId) :
    (a.writeMultipliers ms).isReleasable c = a.isReleasable c := by
  rw [isReleasable, isReleasable, Problem.equality_eq (given_writeMultipliers ms)]

theorem leastMultiplier_eq_some (h : (a.leastMultiplier b).2 = some c) :
    ∃ x, (c, x) ∈ a.multipliersOf b ∧ a.isReleasable c ∧
      firstLeast Prod.snd ((a.multipliersOf b).filter fun m => a.isReleasable m.1) = some (c, x) := by
  obtain ⟨⟨d, x⟩, hm, rfl⟩ := Option.map_eq_some_iff.mp h
  obtain ⟨hmem, hrel⟩ := List.mem_filter.mp (mem_of_firstLeast hm)
  exact ⟨x, hmem, hrel, hm⟩

theorem negative_of_leastMultiplier (ha : a.Intact)
    (h : ((a.leastMultiplier b).2.filter (a.leastMultiplier b).1.isNegative) = some c) :
    c ∈ a.problem.active ∧ a.isReleasable c ∧
      ∃ x, (c, x) ∈ a.multipliersOf b ∧ x < -Scalar.epsilon := by
  obtain ⟨hleast, hneg⟩ := Option.filter_eq_some_iff.mp h
  obtain ⟨x, hmem, hrel, -⟩ := leastMultiplier_eq_some hleast
  refine ⟨active_of_mem_multipliersOf ha.consistent hmem, hrel, x, hmem, ?_⟩
  have hx := of_decide_eq_true hneg
  rwa [leastMultiplier, multiplier_writeMultipliers ha hmem] at hx

end Arrangement

end Spacing
