import Spacing.Proofs.Arrangement.Path

namespace Spacing

open Relation

variable {α : Type} [Scalar α]

def Chained (v : VarId) : VarId → List Branch → Prop
  | u, [] => u = v
  | u, b :: bs => b.parent = u ∧ Chained v b.child bs

section Chained

variable {u v w : VarId} {b : Branch} {bs : List Branch}

theorem Chained.concat (h : Chained w u bs) (hb : b.parent = w) : Chained b.child u (bs ++ [b]) := by
  induction bs generalizing u with
  | nil => exact ⟨hb.trans (Eq.symm h), rfl⟩
  | cons x bs ih => exact ⟨h.1, ih h.2⟩

theorem Chained.mem_childrenOf (h : Chained v u (b :: bs)) : v ∈ childrenOf (b :: bs) := by
  induction bs generalizing u b with
  | nil => exact List.mem_singleton.mpr (Eq.symm h.2)
  | cons x bs ih => exact List.mem_cons_of_mem _ (ih h.2)

theorem Chained.parent_mem (h : Chained v u bs) (hb : b ∈ bs) : b.parent ∈ u :: childrenOf bs := by
  induction bs generalizing u with
  | nil => cases hb
  | cons x bs ih =>
    rcases List.mem_cons.mp hb with rfl | hb
    · exact h.1 ▸ List.mem_cons_self
    · exact List.mem_cons_of_mem _ (ih h.2 hb)

theorem Chained.leads (h : Chained v u bs) :
    ReflTransGen (fun x y => ∃ b ∈ bs, b.parent = x ∧ b.child = y) u v := by
  induction bs generalizing u with
  | nil => exact h ▸ .refl
  | cons b bs ih =>
    refine .head ⟨b, List.mem_cons_self, h.1, rfl⟩ ((ih h.2).lift id ?_)
    rintro x y ⟨d, hd, hends⟩
    exact ⟨d, List.mem_cons_of_mem _ hd, hends⟩

end Chained

namespace Problem

variable {p : Problem α} {u v w : VarId} {b : Branch} {bs cs : List Branch} {d : ConId}

theorem Follows.eq_of_via {c : Branch} (hb : p.Follows b) (hc : p.Follows c) (hvia : b.via = c.via)
    (hparent : b.parent = c.parent) (hloop : b.child ≠ b.parent) : b = c := by
  have hcp := hc.parent
  have hcc := hc.child
  rw [← hvia, ← hparent] at hcp
  rw [← hvia] at hcc
  have hforward : b.forward = c.forward := by
    by_contra hne
    apply hloop
    rw [hb.child, hcp]
    cases hbf : b.forward
    · rw [if_neg (by simp), if_pos (by simpa [hbf] using hne)]
    · rw [if_pos rfl, if_neg (by simpa [hbf] using hne)]
  have hchild : b.child = c.child := by rw [hb.child, hcc, hforward]
  obtain ⟨⟨_, _⟩, _, _⟩ := b
  obtain ⟨⟨_, _⟩, _, _⟩ := c
  cases hvia
  cases hforward
  cases hparent
  cases hchild
  rfl

/-- The branches lead from `u` to `v` over active constraints, and visit no variable twice. -/
structure IsRoute (p : Problem α) (u v : VarId) (bs : List Branch) : Prop where
  follows : ∀ b ∈ bs, p.Follows b
  chained : Chained v u bs
  nodup : (u :: childrenOf bs).Nodup

theorem IsRoute.nil (u : VarId) : p.IsRoute u u [] :=
  ⟨nofun, rfl, List.nodup_singleton u⟩

theorem IsRoute.concat (h : p.IsRoute u w bs) (hf : p.Follows b) (hb : b.parent = w)
    (hnew : b.child ∉ u :: childrenOf bs) : p.IsRoute u b.child (bs ++ [b]) where
  follows x hx := by
    rcases List.mem_append.mp hx with hx | hx
    · exact h.follows x hx
    · exact List.mem_singleton.mp hx ▸ hf
  chained := h.chained.concat hb
  nodup := by
    rw [childrenOf_append, ← List.cons_append]
    exact (List.perm_append_singleton b.child _).nodup_iff.mpr (List.nodup_cons.mpr ⟨hnew, h.nodup⟩)

theorem IsRoute.tail (h : p.IsRoute u v (b :: bs)) : p.IsRoute b.child v bs where
  follows x hx := h.follows x (List.mem_cons_of_mem _ hx)
  chained := h.chained.2
  nodup := (List.nodup_cons.mp h.nodup).2

theorem IsRoute.via_ne (h : p.IsRoute u v bs) (hw : w ∉ u :: childrenOf bs) {w' : VarId}
    (hd : p.edges.Joins d w w') : ∀ b ∈ bs, b.via ≠ d := by
  rintro b hb rfl
  have hparent : b.parent ≠ w := fun he => hw (he ▸ h.chained.parent_mem hb)
  have hchild : b.child ≠ w := fun he =>
    hw (he ▸ List.mem_cons_of_mem _ (mem_childrenOf.mpr ⟨b, hb, rfl⟩))
  rcases (h.follows b hb).joins with ⟨hl, hr⟩ | ⟨hr, hl⟩ <;> rcases hd with ⟨hw, -⟩ | ⟨hw, -⟩
  · exact hparent (hl.symm.trans hw)
  · exact hchild (hr.symm.trans hw)
  · exact hchild (hl.symm.trans hw)
  · exact hparent (hr.symm.trans hw)

theorem IsRoute.linked {E : Set ConId} (h : p.IsRoute u v bs) (hE : ∀ b ∈ bs, b.via ∈ E) :
    p.edges.Linked E u v := by
  apply h.chained.leads.lift id
  rintro x y ⟨b, hb, rfl, rfl⟩
  exact ⟨b.via, hE b hb, (h.follows b hb).joins⟩

theorem IsRoute.linked_without (h : p.IsRoute u v bs) (hd : ∀ b ∈ bs, b.via ≠ d) :
    p.edges.Linked (p.active \ {d}) u v :=
  h.linked fun b hb => ⟨(h.follows b hb).active, hd b hb⟩

theorem IsRoute.via_eq (hf : p.edges.IsForest p.active) {c : Branch} (h : p.IsRoute u v (b :: bs))
    (h' : p.IsRoute u v (c :: cs)) : b.via = c.via := by
  by_contra hne
  have hb := h.follows b List.mem_cons_self
  have hjoins := h.chained.1 ▸ hb.joins
  have hrest := h.tail.linked_without (h.tail.via_ne (List.nodup_cons.mp h.nodup).1 hjoins)
  have hother := h'.linked_without (List.forall_mem_cons.mpr
    ⟨Ne.symm hne, h'.tail.via_ne (List.nodup_cons.mp h'.nodup).1 hjoins⟩)
  -- The other route and the rest of this one bypass its first constraint.
  have hround := hother.trans hrest.symm
  rcases hjoins with ⟨hl, hr⟩ | ⟨hr, hl⟩
  · exact hf b.via hb.active (hl ▸ hr ▸ hround)
  · exact hf b.via hb.active (hl ▸ hr ▸ hround.symm)

theorem IsRoute.unique (hf : p.edges.IsForest p.active) (h : p.IsRoute u v bs)
    (h' : p.IsRoute u v cs) : bs = cs := by
  induction bs generalizing u cs with
  | nil =>
    cases cs with
    | nil => rfl
    | cons c cs =>
      have hv := h'.chained.mem_childrenOf
      exact absurd (h.chained ▸ hv) (List.nodup_cons.mp h'.nodup).1
  | cons b bs ih =>
    cases cs with
    | nil =>
      have hv := h.chained.mem_childrenOf
      exact absurd (h'.chained ▸ hv) (List.nodup_cons.mp h.nodup).1
    | cons c cs =>
      have hvia := h.via_eq hf h'
      have hparent : b.parent = c.parent := h.chained.1.trans h'.chained.1.symm
      have hloop : b.child ≠ b.parent := by
        rw [h.chained.1]
        exact fun he => (List.nodup_cons.mp h.nodup).1 (he ▸ List.mem_cons_self)
      obtain rfl : b = c := (h.follows b List.mem_cons_self).eq_of_via
        (h'.follows c List.mem_cons_self) hvia hparent hloop
      rw [ih h.tail h'.tail]

theorem isRoute_pathTo (hg : Grown {u} bs) (hf : ∀ x ∈ bs, p.Follows x)
    (hv : v = u ∨ v ∈ childrenOf bs) : p.IsRoute u v (pathTo v bs.reverse).reverse := by
  induction bs using List.reverseRecOn generalizing v with
  | nil =>
    obtain rfl : v = u := by simpa using hv
    exact .nil v
  | append_singleton bs b ih =>
    obtain ⟨hg', hparent, hnew, hnew'⟩ := grown_concat hg
    have hf' : ∀ x ∈ bs, p.Follows x := fun x hx => hf x (List.mem_append_left _ hx)
    rw [List.reverse_append, List.reverse_singleton, List.singleton_append, pathTo]
    split
    · rename_i hbv
      have hsub : pathTo b.parent bs.reverse ⊆ bs :=
        fun x hx => (linked_of_mem_pathTo hg' hf' hparent hx).1
      have hfresh : b.child ∉ u :: childrenOf (pathTo b.parent bs.reverse).reverse := by
        rw [List.mem_cons, childrenOf_reverse, List.mem_reverse, not_or]
        exact ⟨hnew, fun hc => hnew' (List.map_subset Branch.child hsub hc)⟩
      rw [List.reverse_cons, ← hbv]
      exact (ih hg' hf' hparent).concat (hf b (by simp)) rfl hfresh
    · rename_i hbv
      apply ih hg' hf'
      refine hv.imp_right fun hv => ?_
      rw [childrenOf_append, List.mem_append] at hv
      exact hv.resolve_right fun h => hbv (List.mem_singleton.mp h).symm

end Problem

namespace Arrangement

variable {a : Arrangement α} {u v : VarId} {bs : List Branch}

theorem isRoute_path (ha : a.Intact) (hu : u < a.problem.vars.size) (hv : v < a.problem.vars.size)
    (huv : a.blockOf u = a.blockOf v) : a.problem.IsRoute u v (a.path u v).reverse := by
  have hmem := (Problem.mem_tree_iff ha.consistent ha.together rfl v).mpr (ha.linked u hu v hv huv)
  exact Problem.isRoute_pathTo (Problem.grown_tree _ _ _) (Problem.follows_of_mem_tree ha.consistent)
    (List.mem_cons.mp hmem)

theorem existsUnique_route (ha : a.Intact) (hu : u < a.problem.vars.size)
    (hv : v < a.problem.vars.size) (huv : a.blockOf u = a.blockOf v) :
    ∃! bs, a.problem.IsRoute u v bs :=
  ⟨_, isRoute_path ha hu hv huv, fun _ h => h.unique ha.forest (isRoute_path ha hu hv huv)⟩

theorem mem_path_iff (ha : a.Intact) (hu : u < a.problem.vars.size) (hv : v < a.problem.vars.size)
    (huv : a.blockOf u = a.blockOf v) (h : a.problem.IsRoute u v bs) {x : Branch} :
    x ∈ a.path u v ↔ x ∈ bs := by
  rw [h.unique ha.forest (isRoute_path ha hu hv huv), List.mem_reverse]

end Arrangement

end Spacing
