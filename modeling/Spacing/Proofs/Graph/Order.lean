import Mathlib.Data.List.Nodup
import Mathlib.Data.List.Perm.Basic
import Mathlib.Logic.Relation
import Spacing.Digraph

namespace Spacing.Digraph

open Relation

variable {g : Digraph} {unseen order : List Nat} {frames : List (Nat × List Nat)} {v w : Nat}

def Arc (g : Digraph) (v w : Nat) : Prop :=
  w ∈ g.next v

def Acyclic (g : Digraph) : Prop :=
  ∀ v, ¬ TransGen g.Arc v v

def Bounded (g : Digraph) : Prop :=
  ∀ v w, g.Arc v w → w < g.size

/-- All that a vertex has arcs to is behind it or leads back to it. -/
def Settled (g : Digraph) : List Nat → Prop
  | [] => True
  | v :: vs => (∀ w, g.Arc v w → w ∈ vs ∨ ReflTransGen g.Arc w v) ∧ Settled g vs

theorem Settled.of_arc {pre post : List Nat} (h : g.Settled (pre ++ v :: post)) (ha : g.Arc v w) :
    w ∈ post ∨ ReflTransGen g.Arc w v := by
  induction pre with
  | nil => exact h.1 w ha
  | cons x pre ih => exact ih h.2

theorem walk_perm (unseen : List Nat) (frames : List (Nat × List Nat)) (order : List Nat) :
    ((g.walk unseen frames order).1 ++ (g.walk unseen frames order).2).Perm
      (unseen ++ (frames.map Prod.fst ++ order)) := by
  induction unseen, frames, order using Digraph.walk.induct (g := g) with
  | case1 unseen order => rw [Digraph.walk, List.map_nil, List.nil_append]
  | case2 unseen order v frames ih =>
    rw [Digraph.walk]
    exact ih.trans (List.perm_middle.append_left unseen)
  | case3 unseen order v r rs frames hr ih =>
    rw [Digraph.walk, if_pos hr]
    apply ih.trans
    exact List.perm_middle.trans ((List.perm_cons_erase hr).symm.append_right _)
  | case4 unseen order v r rs frames hr ih =>
    rw [Digraph.walk, if_neg hr]
    exact ih

theorem walk_subset (unseen : List Nat) (frames : List (Nat × List Nat)) (order : List Nat) :
    (g.walk unseen frames order).1 ⊆ unseen := by
  induction unseen, frames, order using Digraph.walk.induct (g := g) with
  | case1 unseen order =>
    rw [Digraph.walk]
    exact fun _ hw => hw
  | case2 unseen order v frames ih =>
    rw [Digraph.walk]
    exact ih
  | case3 unseen order v r rs frames hr ih =>
    rw [Digraph.walk, if_pos hr]
    exact fun _ hw => List.mem_of_mem_erase (ih hw)
  | case4 unseen order v r rs frames hr ih =>
    rw [Digraph.walk, if_neg hr]
    exact ih

def Divided (g : Digraph) (state : List Nat × List Nat) : Prop :=
  (state.1 ++ state.2).Perm (List.range g.size)

theorem Divided.nodup_unseen {state : List Nat × List Nat} (h : g.Divided state) : state.1.Nodup :=
  (List.nodup_append.mp (h.nodup_iff.mpr List.nodup_range)).1

theorem Divided.walkFrom {state : List Nat × List Nat} (h : g.Divided state) (root : Nat) :
    g.Divided (g.walkFrom state root) ∧ (g.walkFrom state root).1 ⊆ state.1 ∧
      root ∉ (g.walkFrom state root).1 := by
  unfold Digraph.walkFrom
  split
  · rename_i hroot
    have hsub := walk_subset (g := g) (state.1.erase root) [(root, g.next root)] state.2
    refine ⟨?_, fun w hw => List.mem_of_mem_erase (hsub hw), fun hr => ?_⟩
    · apply (walk_perm _ _ _).trans
      apply List.Perm.trans _ h
      exact List.perm_middle.trans ((List.perm_cons_erase hroot).symm.append_right state.2)
    · exact ((List.Nodup.mem_erase_iff h.nodup_unseen).mp (hsub hr)).1 rfl
  · exact ⟨h, fun _ hw => hw, ‹_›⟩

theorem Divided.foldl (roots : List Nat) {state : List Nat × List Nat} (h : g.Divided state) :
    g.Divided (roots.foldl g.walkFrom state) ∧ (roots.foldl g.walkFrom state).1 ⊆ state.1 ∧
      ∀ root ∈ roots, root ∉ (roots.foldl g.walkFrom state).1 := by
  induction roots generalizing state with
  | nil => exact ⟨h, fun _ hw => hw, fun _ hr => absurd hr List.not_mem_nil⟩
  | cons root roots ih =>
    obtain ⟨h', hsub, hroot⟩ := h.walkFrom root
    obtain ⟨hrest, hsub', hroots⟩ := ih h'
    refine ⟨hrest, fun _ hw => hsub (hsub' hw), fun r hr => ?_⟩
    rcases List.mem_cons.mp hr with rfl | hr
    · exact fun hmem => hroot (hsub' hmem)
    · exact hroots r hr

theorem order_perm (g : Digraph) (sources : List Nat) :
    (g.order sources).Perm (List.range g.size) := by
  have hstart : g.Divided (List.range g.size, []) := by rw [Divided, List.append_nil]
  obtain ⟨h, hsub, hroots⟩ := hstart.foldl (sources ++ List.range g.size)
  have hnone : ((sources ++ List.range g.size).foldl g.walkFrom (List.range g.size, [])).1 = [] := by
    refine List.eq_nil_iff_forall_not_mem.mpr fun w hw => ?_
    exact hroots w (List.mem_append_right _ (hsub hw)) hw
  rw [Divided, hnone, List.nil_append] at h
  exact h

structure Walking (g : Digraph) (unseen : List Nat) (frames : List (Nat × List Nat))
    (order : List Nat) : Prop where
  perm : (unseen ++ (frames.map Prod.fst ++ order)).Perm (List.range g.size)
  looked : ∀ f ∈ frames, ∀ w, g.Arc f.1 w → w ∈ f.2 ∨ w ∉ unseen
  /-- The stack is a path, its end on top. -/
  nested : frames.Pairwise fun f f' => TransGen g.Arc f'.1 f.1
  settled : g.Settled order

namespace Walking

theorem finish (hb : g.Bounded) (h : g.Walking unseen ((v, []) :: frames) order) :
    g.Walking unseen frames (v :: order) where
  perm := by
    refine (List.Perm.append_left unseen ?_).trans h.perm
    exact List.perm_middle
  looked f hf := h.looked f (List.mem_cons_of_mem _ hf)
  nested := h.nested.of_cons
  settled := by
    refine ⟨fun w harc => ?_, h.settled⟩
    have hseen : w ∉ unseen :=
      (h.looked (v, []) List.mem_cons_self w harc).resolve_left List.not_mem_nil
    have hmem := h.perm.mem_iff.mpr (List.mem_range.mpr (hb v w harc))
    rcases List.mem_append.mp hmem with hw | hw
    · exact absurd hw hseen
    · rcases List.mem_append.mp hw with hw | hw
      · -- A successor on the stack leads to all above it.
        obtain ⟨f, hf, rfl⟩ := List.mem_map.mp hw
        rcases List.mem_cons.mp hf with rfl | hf
        · exact .inr .refl
        · exact .inr ((List.pairwise_cons.mp h.nested).1 f hf).to_reflTransGen
      · exact .inl hw

theorem push {rs : List Nat} (h : g.Walking unseen ((v, w :: rs) :: frames) order)
    (harc : g.Arc v w) (hw : w ∈ unseen) :
    g.Walking (unseen.erase w) ((w, g.next w) :: (v, rs) :: frames) order where
  perm := by
    refine List.Perm.trans ?_ h.perm
    have := (List.perm_cons_erase hw).symm.append_right (v :: frames.map Prod.fst ++ order)
    exact List.perm_middle.trans this
  looked f hf u hu := by
    have hn : unseen.Nodup := (List.nodup_append.mp (h.perm.nodup_iff.mpr List.nodup_range)).1
    rcases List.mem_cons.mp hf with rfl | hf
    · exact .inl hu
    · rcases List.mem_cons.mp hf with rfl | hf
      · rcases h.looked _ List.mem_cons_self u hu with hmem | hmem
        · rcases List.mem_cons.mp hmem with rfl | hmem
          · exact .inr fun he => (List.Nodup.mem_erase_iff hn).mp he |>.1 rfl
          · exact .inl hmem
        · exact .inr fun he => hmem (List.mem_of_mem_erase he)
      · exact (h.looked f (List.mem_cons_of_mem _ hf) u hu).imp_right
          fun hmem he => hmem (List.mem_of_mem_erase he)
  nested := by
    obtain ⟨htop, hrest⟩ := List.pairwise_cons.mp h.nested
    refine List.pairwise_cons.mpr ⟨fun f hf => ?_, List.pairwise_cons.mpr ⟨htop, hrest⟩⟩
    rcases List.mem_cons.mp hf with rfl | hf
    · exact .single harc
    · exact (htop f hf).tail harc
  settled := h.settled

theorem skip {rs : List Nat} (h : g.Walking unseen ((v, w :: rs) :: frames) order)
    (hw : w ∉ unseen) : g.Walking unseen ((v, rs) :: frames) order where
  perm := h.perm
  looked f hf u hu := by
    rcases List.mem_cons.mp hf with rfl | hf
    · rcases h.looked _ List.mem_cons_self u hu with hmem | hmem
      · rcases List.mem_cons.mp hmem with rfl | hmem
        · exact .inr hw
        · exact .inl hmem
      · exact .inr hmem
    · exact h.looked f (List.mem_cons_of_mem _ hf) u hu
  nested := by
    obtain ⟨htop, hrest⟩ := List.pairwise_cons.mp h.nested
    exact List.pairwise_cons.mpr ⟨htop, hrest⟩
  settled := h.settled

def Pending (g : Digraph) (frames : List (Nat × List Nat)) : Prop :=
  ∀ f ∈ frames, ∀ w ∈ f.2, g.Arc f.1 w

theorem walk (hb : g.Bounded) (h : g.Walking unseen frames order)
    (hp : Pending g frames) :
    g.Walking (g.walk unseen frames order).1 [] (g.walk unseen frames order).2 := by
  induction unseen, frames, order using Digraph.walk.induct (g := g) with
  | case1 unseen order =>
    rw [Digraph.walk]
    exact h
  | case2 unseen order v frames ih =>
    rw [Digraph.walk]
    exact ih (h.finish hb) fun f hf => hp f (List.mem_cons_of_mem _ hf)
  | case3 unseen order v r rs frames hr ih =>
    have harc : g.Arc v r := hp _ List.mem_cons_self r List.mem_cons_self
    have hp' : Pending g ((r, g.next r) :: (v, rs) :: frames) := by
      intro f hf w hw
      rcases List.mem_cons.mp hf with rfl | hf
      · exact hw
      · rcases List.mem_cons.mp hf with rfl | hf
        · exact hp _ List.mem_cons_self w (List.mem_cons_of_mem _ hw)
        · exact hp f (List.mem_cons_of_mem _ hf) w hw
    rw [Digraph.walk, if_pos hr]
    exact ih (h.push harc hr) hp'
  | case4 unseen order v r rs frames hr ih =>
    have hp' : Pending g ((v, rs) :: frames) := by
      intro f hf w hw
      rcases List.mem_cons.mp hf with rfl | hf
      · exact hp _ List.mem_cons_self w (List.mem_cons_of_mem _ hw)
      · exact hp f (List.mem_cons_of_mem _ hf) w hw
    rw [Digraph.walk, if_neg hr]
    exact ih (h.skip hr) hp'

theorem walkFrom (hb : g.Bounded) {state : List Nat × List Nat}
    (h : g.Walking state.1 [] state.2) (root : Nat) :
    g.Walking (g.walkFrom state root).1 [] (g.walkFrom state root).2 := by
  unfold Digraph.walkFrom
  split
  · rename_i hroot
    have hstart : g.Walking (state.1.erase root) [(root, g.next root)] state.2 := by
      constructor
      · refine List.Perm.trans ?_ h.perm
        exact List.perm_middle.trans ((List.perm_cons_erase hroot).symm.append_right state.2)
      · intro f hf w hw
        obtain rfl := List.mem_singleton.mp hf
        exact .inl hw
      · exact List.pairwise_singleton _ _
      · exact h.settled
    apply hstart.walk hb
    intro f hf w hw
    obtain rfl := List.mem_singleton.mp hf
    exact hw
  · exact h

theorem foldl (hb : g.Bounded) (roots : List Nat) {state : List Nat × List Nat}
    (h : g.Walking state.1 [] state.2) :
    g.Walking (roots.foldl g.walkFrom state).1 [] (roots.foldl g.walkFrom state).2 := by
  induction roots generalizing state with
  | nil => exact h
  | cons root roots ih => exact ih (h.walkFrom hb root)

end Walking

theorem settled_order (hb : g.Bounded) (sources : List Nat) : g.Settled (g.order sources) := by
  let start : List Nat × List Nat := (List.range g.size, [])
  have hstart : g.Walking start.1 [] start.2 :=
    ⟨by simp [start], fun f hf => absurd hf List.not_mem_nil, List.Pairwise.nil, trivial⟩
  exact (Walking.foldl hb (sources ++ List.range g.size) hstart).settled

end Spacing.Digraph
