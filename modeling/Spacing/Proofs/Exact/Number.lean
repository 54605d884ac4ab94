import Mathlib.Algebra.Order.BigOperators.Group.List
import Mathlib.Algebra.Order.Ring.Rat
import Mathlib.Tactic.Linarith
import Mathlib.Tactic.Ring
import Spacing.Arrangement.Basic
import Spacing.Proofs.Problem.Consistent

namespace Spacing

@[simp]
theorem zero_exact : (Scalar.zero : Rat) = 0 := rfl

@[simp]
theorem one_exact : (Scalar.one : Rat) = 1 := rfl

@[simp]
theorem two_exact : (Scalar.two : Rat) = 2 := rfl

theorem epsilon_pos : (0 : Rat) < Scalar.epsilon := by decide

theorem sum_exact (xs : List Rat) : Scalar.sum xs = xs.sum := by
  have h (xs : List Rat) (x : Rat) : xs.foldl (· + ·) x = x + xs.sum := by
    induction xs generalizing x with
    | nil => simp
    | cons y xs ih => rw [List.foldl_cons, ih, List.sum_cons, add_assoc]
  exact (h xs 0).trans (zero_add _)

section Least

variable {β : Type} {f : β → Rat} {xs : List β} {x y : β}

theorem foldl_least_le (xs : List β) (x : β) :
    ∀ y ∈ x :: xs, f (xs.foldl (fun best y => if f y < f best then y else best) x) ≤ f y := by
  induction xs generalizing x with
  | nil => simp
  | cons z xs ih =>
    intro y hy
    rw [List.foldl_cons]
    have hbest : f (if f z < f x then z else x) ≤ f x ∧
        f (if f z < f x then z else x) ≤ f z := by
      split
      · exact ⟨le_of_lt ‹_›, le_refl _⟩
      · exact ⟨le_refl _, not_lt.mp ‹_›⟩
    have hfirst := ih (if f z < f x then z else x) _ List.mem_cons_self
    rcases List.mem_cons.mp hy with rfl | hy
    · exact hfirst.trans hbest.1
    · rcases List.mem_cons.mp hy with rfl | hy
      · exact hfirst.trans hbest.2
      · exact ih _ y (List.mem_cons_of_mem _ hy)

theorem firstLeast_le (h : firstLeast f xs = some x) (hy : y ∈ xs) : f x ≤ f y := by
  cases xs with
  | nil => cases hy
  | cons z xs =>
    cases h
    exact foldl_least_le xs z y hy

theorem exists_firstLeast (h : y ∈ xs) : ∃ x, firstLeast f xs = some x := by
  cases xs with
  | nil => cases h
  | cons z xs => exact ⟨_, rfl⟩

end Least

namespace Problem

variable {p q : Problem Rat} {x y : VarId → Rat} {vs ws : List VarId}

def mass (p : Problem Rat) (vs : List VarId) : Rat :=
  (vs.map fun v => (p.variableAt v).weight).sum

def tension (p : Problem Rat) (x : VarId → Rat) (vs : List VarId) : Rat :=
  (vs.map fun v => (p.variableAt v).weight * (x v - (p.variableAt v).desired)).sum

theorem mass_append : p.mass (vs ++ ws) = p.mass vs + p.mass ws := by
  rw [mass, List.map_append, List.sum_append, mass, mass]

theorem tension_append : p.tension x (vs ++ ws) = p.tension x vs + p.tension x ws := by
  rw [tension, List.map_append, List.sum_append, tension, tension]

theorem tension_perm (h : vs.Perm ws) : p.tension x vs = p.tension x ws :=
  (h.map _).sum_eq

theorem mass_given (h : p.given = q.given) (vs : List VarId) : p.mass vs = q.mass vs := by
  simp only [mass, weight_eq h]

theorem tension_given (h : p.given = q.given) (x : VarId → Rat) (vs : List VarId) :
    p.tension x vs = q.tension x vs := by
  simp only [tension, weight_eq h, desired_eq h]

theorem tension_congr (h : ∀ v ∈ vs, x v = y v) : p.tension x vs = p.tension y vs := by
  refine congrArg List.sum (List.map_congr_left fun v hv => ?_)
  rw [h v hv]

theorem tension_shift {d : Rat} (h : ∀ v ∈ vs, y v = x v + d) :
    p.tension y vs = p.tension x vs + p.mass vs * d := by
  induction vs with
  | nil => simp [tension, mass]
  | cons v vs ih =>
    have hv := h v List.mem_cons_self
    have ih := ih fun u hu => h u (List.mem_cons_of_mem _ hu)
    simp only [tension, mass, List.map_cons, List.sum_cons] at ih ⊢
    rw [ih, hv]
    ring

theorem mass_pos (hw : p.Weighted) (hlt : ∀ v ∈ vs, v < p.vars.size) (hne : vs ≠ []) :
    0 < p.mass vs := by
  refine List.sum_pos _ ?_ (by simpa using hne)
  intro w hw'
  obtain ⟨v, hv, rfl⟩ := List.mem_map.mp hw'
  exact hw v (hlt v hv)

end Problem

namespace Block

theorem weigh_exact (p : Problem Rat) (vs : List VarId) : Block.weigh p vs = p.mass vs := by
  have h (vs : List VarId) (w : Rat) :
      vs.foldl (fun w v => w + (p.variableAt v).weight) w = w + p.mass vs := by
    induction vs generalizing w with
    | nil => simp [Problem.mass]
    | cons v vs ih =>
      rw [List.foldl_cons, ih, Problem.mass, Problem.mass, List.map_cons, List.sum_cons, add_assoc]
  exact (h vs 0).trans (zero_add _)

theorem pullOf_exact (p : Problem Rat) (x : Rat) (vs : List VarId) :
    x * p.mass vs - Block.pullOf p vs = p.tension (fun v => x + (p.variableAt v).offset) vs := by
  rw [Block.pullOf, sum_exact]
  induction vs with
  | nil => simp [Problem.tension, Problem.mass]
  | cons v vs ih =>
    simp only [Problem.tension, Problem.mass, List.map_cons, List.sum_cons] at ih ⊢
    linarith

end Block

end Spacing
