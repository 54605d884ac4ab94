import Mathlib.Data.List.Nodup
import Mathlib.Data.Set.Lattice
import Spacing.Arrangement.Tree
import Spacing.Proofs.Problem.Consistent

namespace Spacing

variable {α : Type} [Scalar α] {p : Problem α}

def Grown (S : Set VarId) : List Branch → Prop
  | [] => True
  | b :: bs => b.parent ∈ S ∧ b.child ∉ S ∧ Grown (insert b.child S) bs

def childrenOf (bs : List Branch) : List VarId :=
  bs.map Branch.child

@[simp]
theorem childrenOf_nil : childrenOf [] = [] := rfl

@[simp]
theorem childrenOf_cons (b : Branch) (bs : List Branch) :
    childrenOf (b :: bs) = b.child :: childrenOf bs := rfl

@[simp]
theorem childrenOf_append (xs ys : List Branch) :
    childrenOf (xs ++ ys) = childrenOf xs ++ childrenOf ys := by
  simp [childrenOf]

@[simp]
theorem childrenOf_reverse (bs : List Branch) : childrenOf bs.reverse = (childrenOf bs).reverse := by
  simp [childrenOf]

theorem mem_childrenOf {bs : List Branch} {v : VarId} : v ∈ childrenOf bs ↔ ∃ b ∈ bs, b.child = v := by
  simp [childrenOf]

theorem Grown.append {S : Set VarId} {xs ys : List Branch} (hx : Grown S xs)
    (hy : Grown (S ∪ { v | v ∈ childrenOf xs }) ys) : Grown S (xs ++ ys) := by
  induction xs generalizing S with
  | nil => simpa [childrenOf] using hy
  | cons b xs ih =>
    refine ⟨hx.1, hx.2.1, ih hx.2.2 ?_⟩
    have : insert b.child S ∪ { v | v ∈ childrenOf xs } = S ∪ { v | v ∈ childrenOf (b :: xs) } := by
      ext v
      simp only [Set.mem_union, Set.mem_insert_iff, Set.mem_ofPred_eq, childrenOf_cons, List.mem_cons]
      tauto
    rwa [this]

theorem Grown.of_parent {S : Set VarId} {v : VarId} (hv : v ∈ S) {bs : List Branch}
    (hp : ∀ b ∈ bs, b.parent = v) (hc : ∀ u ∈ childrenOf bs, u ∉ S) (hn : (childrenOf bs).Nodup) :
    Grown S bs := by
  induction bs generalizing S with
  | nil => trivial
  | cons b bs ih =>
    simp only [childrenOf_cons, List.nodup_cons, List.mem_cons, forall_eq_or_imp] at *
    refine ⟨hp.1 ▸ hv, hc.1, ih (Set.mem_insert_of_mem _ hv) hp.2 ?_ hn.2⟩
    intro u hu
    rw [Set.mem_insert_iff, not_or]
    exact ⟨fun h => hn.1 (h ▸ hu), hc.2 u hu⟩

theorem Grown.notMem {S : Set VarId} {bs : List Branch} (h : Grown S bs) :
    ∀ u ∈ childrenOf bs, u ∉ S := by
  induction bs generalizing S with
  | nil => simp
  | cons b bs ih =>
    simp only [childrenOf_cons, List.mem_cons, forall_eq_or_imp]
    exact ⟨h.2.1, fun u hu hS => ih h.2.2 u hu (Set.mem_insert_of_mem _ hS)⟩

theorem Grown.nodup {S : Set VarId} {bs : List Branch} (h : Grown S bs) : (childrenOf bs).Nodup := by
  induction bs generalizing S with
  | nil => simp
  | cons b bs ih =>
    rw [childrenOf_cons, List.nodup_cons]
    exact ⟨fun hb => h.2.2.notMem _ hb (Set.mem_insert _ _), ih h.2.2⟩

namespace Problem

structure Follows (p : Problem α) (b : Branch) : Prop where
  active : b.via ∈ p.active
  parent : b.parent = if b.forward then p.edges.left b.via else p.edges.right b.via
  child : b.child = if b.forward then p.edges.right b.via else p.edges.left b.via

theorem Follows.joins {b : Branch} (h : p.Follows b) : p.edges.Joins b.via b.parent b.child := by
  rw [h.parent, h.child]
  by_cases hf : b.forward = true
  · simp [hf, Edges.Joins]
  · simp [hf, Edges.Joins]

theorem mem_crossings (hp : p.Consistent) {v : VarId} {x : Crossing} :
    x ∈ p.crossings v ↔ x.via < p.constraints.size ∧
      (if x.forward then p.edges.left x.via else p.edges.right x.via) = v := by
  obtain ⟨c, f⟩ := x
  simp only [crossings, List.mem_append, List.mem_map, Crossing.mk.injEq]
  cases f <;> simp [hp.mem_outs, hp.mem_ins, edges]

theorem exists_crossing (hp : p.Consistent) {c : ConId} (hc : c ∈ p.active) {u v : VarId}
    (h : p.edges.Joins c u v) :
    ∃ x ∈ p.crossings u, (p.constraintAt x.via).active ∧ p.farEnd x = v := by
  have hlt := lt_size_of_mem_active hc
  rcases h with ⟨hu, hv⟩ | ⟨hu, hv⟩
  · exact ⟨⟨c, true⟩, (mem_crossings hp).mpr ⟨hlt, by simpa using hu⟩, hc, hv⟩
  · exact ⟨⟨c, false⟩, (mem_crossings hp).mpr ⟨hlt, by simpa using hu⟩, hc, hv⟩

section Branch

variable (p) (v : VarId)

theorem branch_perm (unseen : List VarId) (xs : List Crossing) :
    unseen.Perm (childrenOf (p.branch v unseen xs).1 ++ (p.branch v unseen xs).2) := by
  induction xs generalizing unseen with
  | nil => simp [branch]
  | cons x xs ih =>
    simp only [branch]
    split
    · rename_i h
      exact (List.perm_cons_erase h.2).trans ((ih _).cons _)
    · exact ih unseen

theorem mem_branch {unseen : List VarId} {xs : List Crossing} {b : Branch}
    (h : b ∈ (p.branch v unseen xs).1) :
    b.parent = v ∧ b.toCrossing ∈ xs ∧ (p.constraintAt b.via).active ∧
      b.child = p.farEnd b.toCrossing := by
  induction xs generalizing unseen with
  | nil => simp [branch] at h
  | cons x xs ih =>
    simp only [branch] at h
    split at h
    · rename_i hx
      rcases List.mem_cons.mp h with rfl | h
      · exact ⟨rfl, List.mem_cons_self, hx.1, rfl⟩
      · obtain ⟨h1, h2, h3⟩ := ih h
        exact ⟨h1, List.mem_cons_of_mem _ h2, h3⟩
    · obtain ⟨h1, h2, h3⟩ := ih h
      exact ⟨h1, List.mem_cons_of_mem _ h2, h3⟩

theorem farEnd_mem_branch {unseen : List VarId} {xs : List Crossing} {x : Crossing} (hx : x ∈ xs)
    (ha : (p.constraintAt x.via).active) (hu : p.farEnd x ∈ unseen) :
    p.farEnd x ∈ childrenOf (p.branch v unseen xs).1 := by
  induction xs generalizing unseen with
  | nil => simp at hx
  | cons y xs ih =>
    simp only [branch]
    split
    · rcases List.mem_cons.mp hx with rfl | hx
      · simp
      · by_cases h : p.farEnd x = p.farEnd y
        · simp [h]
        · exact List.mem_cons_of_mem _ (ih hx ((List.mem_erase_of_ne h).mpr hu))
    · rename_i h
      rcases List.mem_cons.mp hx with rfl | hx
      · exact absurd ⟨ha, hu⟩ h
      · exact ih hx hu

end Branch

theorem walk_nil (unseen : List VarId) : p.walk unseen [] = [] := by
  rw [walk]

theorem walk_cons (unseen : List VarId) (v : VarId) (stack : List VarId) :
    p.walk unseen (v :: stack) =
      (p.branch v unseen (p.crossings v)).1 ++ p.walk (p.branch v unseen (p.crossings v)).2
        ((childrenOf (p.branch v unseen (p.crossings v)).1).reverse ++ stack) := by
  rw [walk]
  rfl

theorem follows_of_mem_walk (hp : p.Consistent) (unseen stack : List VarId) :
    ∀ b ∈ p.walk unseen stack, p.Follows b := by
  induction unseen, stack using walk.induct (p := p) with
  | case1 unseen => simp [walk_nil]
  | case2 unseen v stack found ih =>
    intro b hb
    rw [walk_cons] at hb
    rcases List.mem_append.mp hb with hb | hb
    · obtain ⟨h1, h2, h3, h4⟩ := p.mem_branch v hb
      obtain ⟨-, h5⟩ := (mem_crossings hp).mp h2
      exact ⟨h3, h1.trans h5.symm, h4⟩
    · exact ih b hb

theorem grown_walk (unseen stack : List VarId) (S : Set VarId) (hn : unseen.Nodup)
    (hs : ∀ v ∈ stack, v ∈ S) (hu : ∀ v ∈ unseen, v ∉ S) : Grown S (p.walk unseen stack) := by
  induction unseen, stack using walk.induct (p := p) generalizing S with
  | case1 unseen => simp [walk_nil, Grown]
  | case2 unseen v stack found ih =>
    have hperm := p.branch_perm v unseen (p.crossings v)
    obtain ⟨hn1, hn2, hdisj⟩ := List.nodup_append.mp (hperm.nodup_iff.mp hn)
    have hmem (u : VarId) := hperm.mem_iff (a := u)
    rw [walk_cons]
    apply Grown.append
    · refine Grown.of_parent (hs v List.mem_cons_self) (fun b hb => (p.mem_branch v hb).1) ?_ hn1
      exact fun u h => hu u ((hmem u).mpr (List.mem_append_left _ h))
    · apply ih _ hn2
      · intro u h
        rcases List.mem_append.mp h with h | h
        · exact .inr (List.mem_reverse.mp h)
        · exact .inl (hs u (List.mem_cons_of_mem _ h))
      · rintro u h (hS | hc)
        · exact hu u ((hmem u).mpr (List.mem_append_right _ h)) hS
        · exact hdisj u hc u h rfl

theorem farEnd_mem_walk (unseen stack : List VarId) {v : VarId}
    (hv : v ∈ stack ∨ v ∈ childrenOf (p.walk unseen stack)) {x : Crossing} (hx : x ∈ p.crossings v)
    (ha : (p.constraintAt x.via).active) (hu : p.farEnd x ∈ unseen) :
    p.farEnd x ∈ childrenOf (p.walk unseen stack) := by
  induction unseen, stack using walk.induct (p := p) with
  | case1 unseen => simp [walk_nil] at hv
  | case2 unseen w stack found ih =>
    have hperm := p.branch_perm w unseen (p.crossings w)
    rw [walk_cons, childrenOf_append] at hv ⊢
    rcases List.mem_append.mp (hperm.mem_iff.mp hu) with h | h
    · exact List.mem_append_left _ h
    · by_cases hvw : v = w
      · subst hvw
        exact List.mem_append_left _ (p.farEnd_mem_branch v hx ha hu)
      · refine List.mem_append_right _ (ih ?_ h)
        simp only [List.mem_cons, List.mem_append, List.mem_reverse] at hv ⊢
        tauto

section Tree

variable {b : BlockId} {root : VarId}

theorem mem_unseen {v : VarId} :
    v ∈ (p.variableIds.filter fun v => p.blockOf v = b).erase root ↔
      v ≠ root ∧ v < p.vars.size ∧ p.blockOf v = b := by
  have hn : (p.variableIds.filter fun v => p.blockOf v = b).Nodup := List.nodup_range.filter _
  rw [hn.mem_erase_iff]
  simp [variableIds]

theorem grown_tree (p : Problem α) (b : BlockId) (root : VarId) : Grown {root} (p.tree b root) := by
  apply grown_walk
  · exact (List.nodup_range.filter _).erase _
  · simp
  · intro v hv
    simpa using (mem_unseen.mp hv).1

theorem follows_of_mem_tree (hp : p.Consistent) : ∀ x ∈ p.tree b root, p.Follows x :=
  follows_of_mem_walk hp _ _

theorem linked_of_grown {S : Set VarId} {bs : List Branch} {E : Set ConId}
    (hS : ∀ v ∈ S, p.edges.Linked E root v) (hg : Grown S bs)
    (hb : ∀ b ∈ bs, b.via ∈ E ∧ p.Follows b) : ∀ v ∈ childrenOf bs, p.edges.Linked E root v := by
  induction bs generalizing S with
  | nil => simp
  | cons b bs ih =>
    simp only [childrenOf_cons, List.mem_cons, forall_eq_or_imp] at hb ⊢
    have hchild : p.edges.Linked E root b.child :=
      (hS _ hg.1).trans (.joins hb.1.1 hb.1.2.joins)
    refine ⟨hchild, ih ?_ hg.2.2 hb.2⟩
    simp only [Set.mem_insert_iff, forall_eq_or_imp]
    exact ⟨hchild, hS⟩

theorem mem_tree_iff (hp : p.Consistent)
    (ht : ∀ c ∈ p.active, p.blockOf (p.edges.left c) = p.blockOf (p.edges.right c))
    (hb : p.blockOf root = b) (v : VarId) :
    v ∈ root :: childrenOf (p.tree b root) ↔ p.edges.Linked p.active root v := by
  constructor
  · intro hv
    rcases List.mem_cons.mp hv with rfl | hv
    · exact .refl
    · refine linked_of_grown (S := {root}) ?_ (grown_tree p b root) ?_ v hv
      · rintro v rfl
        exact .refl
      · exact fun x hx => ⟨(follows_of_mem_tree hp x hx).active, follows_of_mem_tree hp x hx⟩
  · intro hl
    -- A link never leaves the block, so every variable on it is there to be reached.
    induction hl with
    | refl => exact List.mem_cons_self
    | @tail u w hu hc ih =>
      obtain ⟨c, hc, hj⟩ := hc
      by_cases hw : w = root
      · subst hw
        exact List.mem_cons_self
      · obtain ⟨x, hx, ha, rfl⟩ := exists_crossing hp hc hj
        have hblock : p.blockOf (p.farEnd x) = b :=
          (Edges.Linked.congr ht (Edges.Linked.trans hu (.joins hc hj))).symm.trans hb
        have hlt : p.farEnd x < p.vars.size := by
          have hlt := lt_size_of_mem_active hc
          rcases hj with ⟨-, h⟩ | ⟨-, h⟩
          · exact h ▸ hp.right_lt c hlt
          · exact h ▸ hp.left_lt c hlt
        have hv : u ∈ [root] ∨ u ∈ childrenOf (p.tree b root) := by simpa using ih
        exact List.mem_cons_of_mem _
          (farEnd_mem_walk _ _ hv hx ha (mem_unseen.mpr ⟨hw, hlt, hblock⟩))

theorem nodup_tree (p : Problem α) (b : BlockId) (root : VarId) :
    (root :: childrenOf (p.tree b root)).Nodup := by
  have hg := grown_tree p b root
  exact List.nodup_cons.mpr ⟨fun h => hg.notMem root h rfl, hg.nodup⟩

end Tree

end Problem

end Spacing
