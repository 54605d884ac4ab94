import Mathlib.Data.List.Induction
import Spacing.Proofs.Arrangement.Step

namespace Spacing

variable {α : Type} [Scalar α]

theorem foldl_least_mem {β : Type} (key : β → α) (xs : List β) (x : β) :
    xs.foldl (fun best y => if key y < key best then y else best) x ∈ x :: xs := by
  induction xs generalizing x with
  | nil => exact List.mem_cons_self
  | cons y xs ih =>
    rw [List.foldl_cons]
    split
    · exact List.mem_cons_of_mem _ (ih y)
    · rcases List.mem_cons.mp (ih x) with h | h
      · rw [h]
        exact List.mem_cons_self
      · exact List.mem_cons_of_mem _ (List.mem_cons_of_mem _ h)

theorem mem_of_firstLeast {β : Type} {key : β → α} {xs : List β} {x : β}
    (h : firstLeast key xs = some x) : x ∈ xs := by
  cases xs with
  | nil => cases h
  | cons y xs =>
    cases h
    exact foldl_least_mem key xs y

theorem grown_concat {S : Set VarId} {bs : List Branch} {b : Branch} (h : Grown S (bs ++ [b])) :
    Grown S bs ∧ (b.parent ∈ S ∨ b.parent ∈ childrenOf bs) ∧ b.child ∉ S ∧ b.child ∉ childrenOf bs := by
  induction bs generalizing S with
  | nil => exact ⟨trivial, .inl h.1, h.2.1, List.not_mem_nil⟩
  | cons x bs ih =>
    obtain ⟨hp, hc, hg⟩ := h
    obtain ⟨h1, h2, h3, h4⟩ := ih hg
    simp only [Set.mem_insert_iff, not_or] at h2 h3
    refine ⟨⟨hp, hc, h1⟩, ?_, h3.2, ?_⟩
    · simp only [childrenOf_cons, List.mem_cons]
      tauto
    · simp only [childrenOf_cons, List.mem_cons, not_or]
      exact ⟨h3.1, h4⟩

namespace Problem

variable {p : Problem α} {root v : VarId} {bs : List Branch}

def crossed (bs : List Branch) : Set ConId :=
  { c | ∃ b ∈ bs, b.via = c }

theorem mem_crossed_concat {b : Branch} {c : ConId} :
    c ∈ crossed (bs ++ [b]) ↔ c ∈ crossed bs ∨ c = b.via := by
  simp only [crossed, Set.mem_ofPred_eq, List.mem_append, List.mem_singleton]
  constructor
  · rintro ⟨x, hx | rfl, rfl⟩
    · exact .inl ⟨x, hx, rfl⟩
    · exact .inr rfl
  · rintro (⟨x, hx, rfl⟩ | rfl)
    · exact ⟨x, .inl hx, rfl⟩
    · exact ⟨b, .inr rfl, rfl⟩

theorem via_notMem_crossed {S : Set VarId} {b : Branch} (hg : Grown S (bs ++ [b]))
    (hf : ∀ x ∈ bs ++ [b], p.Follows x) : b.via ∉ crossed bs := by
  rintro ⟨x, hx, hv⟩
  obtain ⟨h1, -, h3, h4⟩ := grown_concat hg
  have hseen : b.child = x.parent ∨ b.child = x.child := by
    have hjb := (hf b (by simp)).joins
    have hjx := (hf x (List.mem_append_left _ hx)).joins
    rw [hv] at hjx
    rcases hjb with ⟨-, hb⟩ | ⟨-, hb⟩ <;> rcases hjx with ⟨hxl, hxr⟩ | ⟨hxl, hxr⟩
    · exact .inr (hb.symm.trans hxr)
    · exact .inl (hb.symm.trans hxl)
    · exact .inl (hb.symm.trans hxl)
    · exact .inr (hb.symm.trans hxr)
  have hparent : x.parent ∈ S ∨ x.parent ∈ childrenOf bs := by
    clear h3 h4 hseen hg hf hv
    induction bs generalizing S with
    | nil => simp at hx
    | cons y bs ih =>
      obtain ⟨hp, hc, hg⟩ := h1
      rcases List.mem_cons.mp hx with rfl | hx
      · exact .inl hp
      · have := ih hx hg
        simp only [Set.mem_insert_iff, childrenOf_cons, List.mem_cons] at this ⊢
        tauto
  rcases hseen with h | h
  · exact hparent.elim (fun hp => h3 (h ▸ hp)) fun hp => h4 (h ▸ hp)
  · exact h4 (h ▸ mem_childrenOf.mpr ⟨x, hx, rfl⟩)

theorem linked_crossed (hg : Grown {root} bs) (hf : ∀ x ∈ bs, p.Follows x)
    (hv : v = root ∨ v ∈ childrenOf bs) : p.edges.Linked (crossed bs) root v := by
  rcases hv with rfl | hv
  · exact .refl
  · refine linked_of_grown (S := {root}) (E := crossed bs) ?_ hg (fun b hb => ⟨⟨b, hb, rfl⟩, hf b hb⟩) v hv
    rintro w rfl
    exact .refl

theorem linked_of_mem_pathTo (hg : Grown {root} bs) (hf : ∀ x ∈ bs, p.Follows x)
    (hv : v = root ∨ v ∈ childrenOf bs) {x : Branch} (hx : x ∈ pathTo v bs.reverse) :
    x ∈ bs ∧ p.edges.Linked (crossed bs \ {x.via}) root x.parent ∧
      p.edges.Linked (crossed bs \ {x.via}) x.child v := by
  induction bs using List.reverseRecOn generalizing v with
  | nil => simp [pathTo] at hx
  | append_singleton bs b ih =>
    obtain ⟨hg', hparent, hnew, hnew'⟩ := grown_concat hg
    have hvia := via_notMem_crossed hg hf
    have hf' : ∀ x ∈ bs, p.Follows x := fun x hx => hf x (List.mem_append_left _ hx)
    have hparent' : b.parent = root ∨ b.parent ∈ childrenOf bs := hparent
    have hsub (c : ConId) : crossed bs \ {c} ⊆ crossed (bs ++ [b]) \ {c} :=
      Set.sdiff_subset_sdiff_left fun d hd => mem_crossed_concat.mpr (.inl hd)
    rw [List.reverse_append, List.reverse_singleton, List.singleton_append, pathTo] at hx
    split at hx
    · rename_i hbv
      subst hbv
      rcases List.mem_cons.mp hx with rfl | hx
      · refine ⟨by simp, (linked_crossed hg' hf' hparent').mono fun d hd => ?_, .refl⟩
        exact ⟨mem_crossed_concat.mpr (.inl hd), fun hdx => hvia (hdx ▸ hd)⟩
      · obtain ⟨hmem, h1, h2⟩ := ih hg' hf' hparent' hx
        refine ⟨List.mem_append_left _ hmem, h1.mono (hsub _), (h2.mono (hsub _)).trans ?_⟩
        refine .joins ⟨mem_crossed_concat.mpr (.inr rfl), fun hbx => hvia ?_⟩ (hf b (by simp)).joins
        exact ⟨x, hmem, hbx.symm⟩
    · rename_i hbv
      have hv' : v = root ∨ v ∈ childrenOf bs := by
        refine hv.imp id fun hv => ?_
        rw [childrenOf_append, List.mem_append] at hv
        exact hv.resolve_right fun h => hbv (List.mem_singleton.mp h).symm
      obtain ⟨hmem, h1, h2⟩ := ih hg' hf' hv' hx
      exact ⟨List.mem_append_left _ hmem, h1.mono (hsub _), h2.mono (hsub _)⟩

theorem tree_congr {q : Problem α} (hn : q.vars.size = p.vars.size)
    (hc : ∀ v, q.crossings v = p.crossings v) (hb : ∀ v, q.blockOf v = p.blockOf v)
    (he : q.edges = p.edges) (ha : q.active = p.active) (b : BlockId) (root : VarId) :
    q.tree b root = p.tree b root := by
  have hfar (x : Crossing) : q.farEnd x = p.farEnd x := by
    have hl := congrArg (fun g : Edges => g.left x.via) he
    have hr := congrArg (fun g : Edges => g.right x.via) he
    simp only [edges] at hl hr
    rw [farEnd, farEnd, hl, hr]
  have hact (c : ConId) : (q.constraintAt c).active = (p.constraintAt c).active := by
    rw [Bool.eq_iff_iff]
    exact Set.ext_iff.mp ha c
  have hbranch (v : VarId) (unseen : List VarId) (xs : List Crossing) :
      q.branch v unseen xs = p.branch v unseen xs := by
    induction xs generalizing unseen with
    | nil => rfl
    | cons x xs ih => simp only [branch, hfar, hact, ih]
  have hwalk (unseen stack : List VarId) : q.walk unseen stack = p.walk unseen stack := by
    induction unseen, stack using walk.induct (p := p) with
    | case1 unseen => rw [walk_nil, walk_nil]
    | case2 unseen v stack found ih =>
      rw [walk_cons, walk_cons, hc, hbranch]
      exact congrArg _ ih
  have hblock : (fun v => decide (q.blockOf v = b)) = fun v => decide (p.blockOf v = b) := by
    funext v
    rw [hb]
  rw [tree, tree, hwalk, variableIds, variableIds, hn, hblock]

end Problem

namespace Arrangement

variable {a a' : Arrangement α} {u v : VarId} {f : ConId}

theorem tree_writeMultipliers (ms : List (ConId × α)) (b : BlockId) (root : VarId) :
    (a.writeMultipliers ms).problem.tree b root = a.problem.tree b root := by
  have hv := variableAt_writeMultipliers (a := a) ms
  have hg := given_writeMultipliers (a := a) ms
  apply Problem.tree_congr (Problem.size_vars_eq hg) _ _ (Problem.edges_eq hg)
    (active_writeMultipliers ms)
  · intro v
    rw [Problem.crossings, Problem.crossings, hv]
  · intro v
    rw [Problem.blockOf, Problem.blockOf, hv]

theorem linked_of_mem_path (ha : a.Intact) (hu : u < a.problem.vars.size)
    (hv : v < a.problem.vars.size) (huv : a.blockOf u = a.blockOf v) {x : Branch}
    (hx : x ∈ a.path u v) : a.problem.Follows x ∧
      a.problem.edges.Linked (a.problem.active \ {x.via}) u x.parent ∧
      a.problem.edges.Linked (a.problem.active \ {x.via}) x.child v := by
  have hf (y : Branch) (hy : y ∈ a.problem.tree (a.blockOf u) u) : a.problem.Follows y :=
    Problem.follows_of_mem_tree ha.consistent y hy
  have hmem := (Problem.mem_tree_iff ha.consistent ha.together rfl v).mpr (ha.linked u hu v hv huv)
  obtain ⟨hxt, h1, h2⟩ := Problem.linked_of_mem_pathTo (Problem.grown_tree _ _ _) hf
    (List.mem_cons.mp hmem) hx
  have hsub : Problem.crossed (a.problem.tree (a.blockOf u) u) ⊆ a.problem.active := by
    rintro c ⟨b, hb, rfl⟩
    exact (hf b hb).active
  have hsub' := Set.sdiff_subset_sdiff_left (t := {x.via}) hsub
  exact ⟨hf x hxt, h1.mono hsub', h2.mono hsub'⟩

theorem splitBetween_cases (ha : a.Intact) (hu : u < a.problem.vars.size)
    (hv : v < a.problem.vars.size) (huv : a.blockOf u = a.blockOf v) :
    a.splitBetween u v = .ok (a.writeMultipliers (a.multipliersOf (a.blockOf u)), none) ∨
      ∃ a₁ f a' l r B L R, a₁ = a.writeMultipliers (a.multipliersOf (a.blockOf u)) ∧
        a.splitBetween u v = .ok (a', some f) ∧ f ∈ a₁.problem.active ∧ a₁.isReleasable f ∧
        a₁.split f = .ok (a', l, r) ∧ Halved a₁ a' f l r B L R ∧ u ∈ L ∧ v ∈ R := by
  let a₁ := a.writeMultipliers (a.multipliersOf (a.blockOf u))
  have ha₁ : a₁.Intact := ha.writeMultipliers _
  let candidates := (a₁.path u v).filter fun b => b.forward && a₁.isReleasable b.via
  let key := fun b : Branch => (a₁.problem.constraintAt b.via).multiplier
  have hleast : a.leastOnPath u v = (a₁, (firstLeast key candidates).map fun b => b.via) := rfl
  cases hx : firstLeast key candidates with
  | none =>
    left
    rw [splitBetween, hleast, hx]
    rfl
  | some x =>
    right
    obtain ⟨hpath, hkeep⟩ := List.mem_filter.mp (mem_of_firstLeast hx)
    obtain ⟨hforward, hrel⟩ := Bool.and_eq_true_iff.mp hkeep
    have hblock (w : VarId) : a₁.blockOf w = a.blockOf w :=
      congrArg Variable.block (variableAt_writeMultipliers _ w)
    have hn : a₁.problem.vars.size = a.problem.vars.size :=
      Problem.size_vars_eq (given_writeMultipliers _)
    -- What is given up lies on the path, so `u` and `v` are linked to its ends without it.
    obtain ⟨hfollows, h1, h2⟩ := linked_of_mem_path ha₁ (hn ▸ hu) (hn ▸ hv)
      (by rw [hblock, hblock, huv]) hpath
    obtain ⟨a', l, r, B, L, R, hs, hh⟩ := exists_split ha₁ hfollows.active
    have hparent : x.parent = a₁.problem.edges.left x.via := by
      rw [hfollows.parent, if_pos hforward]
    have hchild : x.child = a₁.problem.edges.right x.via := by
      rw [hfollows.child, if_pos hforward]
    refine ⟨a₁, x.via, a', l, r, B, L, R, rfl, ?_, hfollows.active, hrel, hs, hh, ?_, ?_⟩
    · rw [splitBetween, hleast, hx]
      exact bind_eq_ok.mpr ⟨_, hs, rfl⟩
    · rw [hh.mem_left, ← hparent]
      exact h1.symm
    · rw [hh.mem_right, ← hchild]
      exact h2

end Arrangement

end Spacing
