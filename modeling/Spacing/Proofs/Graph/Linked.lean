import Mathlib.Logic.Relation
import Mathlib.Order.BooleanAlgebra.Set
import Spacing.Handle

namespace Spacing

open Relation

@[ext]
structure Edges where
  left : ConId → VarId
  right : ConId → VarId

namespace Edges

variable {g : Edges} {E F : Set ConId} {c d : ConId} {u v w : VarId}

def Joins (g : Edges) (c : ConId) (u v : VarId) : Prop :=
  (g.left c = u ∧ g.right c = v) ∨ (g.right c = u ∧ g.left c = v)

/-- The edges of `E` lead from `u` to `v`, whichever way each of them is crossed. -/
def Linked (g : Edges) (E : Set ConId) : VarId → VarId → Prop :=
  ReflTransGen fun u v => ∃ c ∈ E, g.Joins c u v

def IsForest (g : Edges) (E : Set ConId) : Prop :=
  ∀ c ∈ E, ¬ g.Linked (E \ {c}) (g.left c) (g.right c)

structure IsSpanningTree (g : Edges) (vs : List VarId) (E : Set ConId) : Prop where
  inside : ∀ c ∈ E, g.left c ∈ vs ∧ g.right c ∈ vs
  linked : ∀ u ∈ vs, ∀ v ∈ vs, g.Linked E u v
  forest : g.IsForest E

theorem Joins.symm (h : g.Joins c u v) : g.Joins c v u := by
  rcases h with ⟨hu, hv⟩ | ⟨hu, hv⟩
  · exact .inr ⟨hv, hu⟩
  · exact .inl ⟨hv, hu⟩

theorem Linked.refl : g.Linked E u u := ReflTransGen.refl

theorem Linked.trans (h : g.Linked E u v) (h' : g.Linked E v w) : g.Linked E u w :=
  ReflTransGen.trans h h'

theorem Linked.symm (h : g.Linked E u v) : g.Linked E v u := by
  induction h with
  | refl => exact .refl
  | tail _ hc ih =>
    obtain ⟨c, hc, hj⟩ := hc
    exact ReflTransGen.head ⟨c, hc, hj.symm⟩ ih

theorem Linked.mono (hEF : E ⊆ F) (h : g.Linked E u v) : g.Linked F u v := by
  induction h with
  | refl => exact .refl
  | tail _ hc ih =>
    obtain ⟨c, hc, hj⟩ := hc
    exact ih.tail ⟨c, hEF hc, hj⟩

theorem Linked.joins (hc : c ∈ E) (hj : g.Joins c u v) : g.Linked E u v :=
  ReflTransGen.single ⟨c, hc, hj⟩

theorem Linked.edge (hc : c ∈ E) : g.Linked E (g.left c) (g.right c) :=
  .joins hc (.inl ⟨rfl, rfl⟩)

theorem Linked.transport {P : VarId → Prop} (hP : ∀ c ∈ E, P (g.left c) ↔ P (g.right c))
    (h : g.Linked E u v) : P u ↔ P v := by
  induction h with
  | refl => exact Iff.rfl
  | tail _ hc ih =>
    obtain ⟨c, hc, ⟨rfl, rfl⟩ | ⟨rfl, rfl⟩⟩ := hc
    · exact ih.trans (hP c hc)
    · exact ih.trans (hP c hc).symm

theorem Linked.congr {β : Type} {f : VarId → β} (hf : ∀ c ∈ E, f (g.left c) = f (g.right c))
    (h : g.Linked E u v) : f u = f v := by
  have := Linked.transport (P := fun x => f u = f x) (fun c hc => by simp only [hf c hc]) h
  exact this.mp rfl

theorem Linked.of_insert (h : g.Linked (insert c E) u v) :
    g.Linked E u v ∨ (g.Linked E u (g.left c) ∧ g.Linked E (g.right c) v) ∨
      (g.Linked E u (g.right c) ∧ g.Linked E (g.left c) v) := by
  induction h with
  | refl => exact .inl .refl
  | @tail v w _ hd ih =>
    obtain ⟨d, hd, hj⟩ := hd
    rcases Set.mem_insert_iff.mp hd with rfl | hd
    · rcases hj with ⟨rfl, rfl⟩ | ⟨rfl, rfl⟩
      · rcases ih with h | ⟨h, _⟩ | ⟨h, _⟩
        · exact .inr (.inl ⟨h, .refl⟩)
        · exact .inr (.inl ⟨h, .refl⟩)
        · exact .inl h
      · rcases ih with h | ⟨h, _⟩ | ⟨h, _⟩
        · exact .inr (.inr ⟨h, .refl⟩)
        · exact .inl h
        · exact .inr (.inr ⟨h, .refl⟩)
    · have hvw : g.Linked E v w := .joins hd hj
      rcases ih with h | ⟨h, h'⟩ | ⟨h, h'⟩
      · exact .inl (h.trans hvw)
      · exact .inr (.inl ⟨h, h'.trans hvw⟩)
      · exact .inr (.inr ⟨h, h'.trans hvw⟩)

theorem Linked.cut (hc : c ∈ E) (h : g.Linked E u v) :
    g.Linked (E \ {c}) u v ∨
      (g.Linked (E \ {c}) u (g.left c) ∧ g.Linked (E \ {c}) (g.right c) v) ∨
      (g.Linked (E \ {c}) u (g.right c) ∧ g.Linked (E \ {c}) (g.left c) v) := by
  rw [← Set.insert_sdiff_self_of_mem hc] at h
  exact h.of_insert

theorem Linked.of_left (hc : c ∈ E) (h : g.Linked E (g.left c) v) :
    g.Linked (E \ {c}) (g.left c) v ∨ g.Linked (E \ {c}) (g.right c) v := by
  rcases h.cut hc with h | ⟨_, h⟩ | ⟨_, h⟩
  · exact .inl h
  · exact .inr h
  · exact .inl h

theorem IsForest.mono (hEF : E ⊆ F) (h : g.IsForest F) : g.IsForest E :=
  fun c hc hl => h c (hEF hc) (hl.mono (Set.sdiff_subset_sdiff_left hEF))

theorem IsForest.insert (h : g.IsForest E) (hc : ¬ g.Linked E (g.left c) (g.right c)) :
    g.IsForest (insert c E) := by
  intro d hd hl
  by_cases hdc : d = c
  · subst hdc
    exact hc (hl.mono (by simp))
  · have hdE : d ∈ E := hd.resolve_left hdc
    have hsub : E \ {d} ⊆ E := Set.sdiff_subset
    rw [Set.insert_sdiff_of_notMem _ (by simpa using Ne.symm hdc)] at hl
    have hends : g.Linked E (g.left d) (g.right d) := .edge hdE
    rcases hl.of_insert with hl | ⟨h1, h2⟩ | ⟨h1, h2⟩
    · exact h d hdE hl
    · exact hc ((h1.mono hsub).symm.trans (hends.trans (h2.mono hsub).symm))
    · exact hc ((h2.mono hsub).trans (hends.symm.trans (h1.mono hsub)))

end Edges

end Spacing
