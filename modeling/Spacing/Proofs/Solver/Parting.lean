import Spacing.Proofs.Solver.Structure

namespace Spacing

variable {α : Type} [Scalar α]

namespace Arrangement

variable {a a' : Arrangement α} {b l r : BlockId} {B : Block α} {c : ConId} {u v : VarId}
  {L R : List VarId}

def treeOf (a : Arrangement α) (b : BlockId) : Set ConId :=
  { c | c ∈ a.problem.active ∧ a.leftBlock c = b }

structure Parted (a a' : Arrangement α) (c : ConId) (l r : BlockId) (B : Block α) (L R : List VarId) :
    Prop extends Halved a a' c l r B L R where
  component_left : ∀ v, v ∈ L ↔ a.problem.edges.Linked (a.treeOf (a.leftBlock c) \ {c})
    (a.problem.edges.left c) v
  component_right : ∀ v, v ∈ R ↔ a.problem.edges.Linked (a.treeOf (a.leftBlock c) \ {c})
    (a.problem.edges.right c) v
  ends : a.problem.edges.left c ∈ L ∧ a.problem.edges.right c ∈ R
  perm : B.members.Perm (L ++ R)
  nodup : (L ++ R).Nodup
  position_eq : ∀ v < a.problem.vars.size, a'.position v = a.position v

theorem Intact.linked_treeOf (ha : a.Intact) :
    a.problem.edges.Linked (a.problem.active \ {c}) u v ↔
      a.problem.edges.Linked (a.treeOf (a.blockOf u) \ {c}) u v := by
  constructor
  · intro h
    apply (ha.linked_inside Set.sdiff_subset h).mono
    rintro d ⟨⟨hd, hdc⟩, hdu⟩
    exact ⟨⟨hd, hdu⟩, hdc⟩
  · intro h
    apply h.mono
    rintro d ⟨⟨hd, -⟩, hdc⟩
    exact ⟨hd, hdc⟩

theorem Halved.parted (h : Halved a a' c l r B L R) (ha : a.Intact) (hc : c ∈ a.problem.active) :
    Parted a a' c l r B L R where
  toHalved := h
  component_left v := (h.mem_left v).trans ha.linked_treeOf
  component_right v := by
    rw [h.mem_right, ha.linked_treeOf, ← ha.together c hc]
    rfl
  ends := h.ends_mem
  perm := h.members_perm ha hc
  nodup := (h.members_perm ha hc).nodup_iff.mp (ha.nodup _ B h.old)
  position_eq _ hv := h.position_eq ha hc hv

theorem exists_parted (ha : a.Intact) (hc : c ∈ a.problem.active) :
    ∃ a' l r B L R, a.split c = .ok (a', l, r) ∧ Parted a a' c l r B L R := by
  obtain ⟨a', l, r, B, L, R, hsplit, h⟩ := exists_split ha hc
  exact ⟨a', l, r, B, L, R, hsplit, h.parted ha hc⟩

end Arrangement

namespace Solver

open Arrangement

variable {s t : Solver α} {c : ConId} {gap : α} {p : Problem α}

/-- Constraint `c` got a new gap, is not active any more and is watched. The block that it was in has
parted, and every variable is where it was. -/
structure Released (s t : Solver α) (c : ConId) (gap : α) : Prop where
  inactive_eq : t.inactive = s.inactive ++ [c]
  constraintAt_eq : ∀ d, t.problem.constraintAt d =
    if d = c then { s.problem.constraintAt d with gap, active := false } else s.problem.constraintAt d
  variableAt_eq : ∀ v, t.problem.variableAt v =
    { s.problem.variableAt v with block := t.arrangement.blockOf v }
  position_eq : ∀ v < s.problem.vars.size, t.arrangement.position v = s.arrangement.position v
  parted : ∃ a l r B L R,
    Parted { s.arrangement with problem := s.problem.setGap c gap } a c l r B L R ∧
      t = { s with arrangement := a.cleanUp, inactive := s.inactive ++ [c] }

theorem setGap_releases (hs : s.Sound) (hc : c ∈ s.problem.active) (gap : α) :
    Yields (s.setGap c gap) fun t => s.Released t c gap := by
  have hlt := Problem.lt_size_of_mem_active hc
  have hc' : c ∈ (s.problem.setGap c gap).active := (active_setGap gap).symm ▸ hc
  obtain ⟨a, l, r, B, L, R, hsplit, h⟩ := exists_parted (hs.intact.setGap hlt gap) hc'
  refine ⟨{ s with arrangement := a }.cleanUp.watch c, ?_, ?_⟩
  · refine bind_eq_ok.mpr ⟨_, Problem.edit_setGap hlt gap, ?_⟩
    dsimp only
    rw [if_pos (Problem.mem_active.mp hc')]
    exact bind_eq_ok.mpr ⟨_, hsplit, rfl⟩
  · constructor
    case inactive_eq => rfl
    case constraintAt_eq =>
      intro d
      have hgap : (s.arrangement.problem.setGap c gap).constraintAt d = _ :=
        Problem.constraintAt_setGap hlt gap d
      refine (h.constraintAt_eq d).trans ?_
      dsimp only
      rw [hgap]
      split <;> rfl
    case variableAt_eq =>
      intro v
      refine (h.variableAt_eq v).trans ?_
      exact congrArg (fun b => { s.problem.variableAt v with block := b })
        (congrArg Variable.block (h.variableAt_eq v)).symm
    case position_eq => exact fun v hv => h.position_eq v hv
    case parted => exact ⟨a, l, r, B, L, R, h, rfl⟩

/-- Whatever operations a new solver performs, on whatever scalars, each active constraint can be split
on exactly, and can be given a new gap by which nothing but that constraint is released. -/
theorem parted_run (hp : p.Built) (mode : Mode) (options : Options α) (rounds : Nat)
    (ops : List (Operation α)) :
    YieldsUnless (Excused p ops) ((new p mode options).run rounds ops) fun r =>
      ∀ s, r.1.Leads s → ∀ c ∈ s.problem.active,
        (∃ a l r B L R, s.arrangement.split c = .ok (a, l, r) ∧ Parted s.arrangement a c l r B L R) ∧
        ∀ gap, Yields (s.setGap c gap) fun t => s.Released t c gap := by
  apply (leads_run hp mode options rounds ops).mono fun _ he => he
  intro r _ s hs c hc
  exact ⟨exists_parted hs.sound.intact hc, setGap_releases hs.sound hc⟩

theorem parted_run_fork : ∃ s replies,
    (new Problem.fork .batch Options.standard).run 0 [.satisfy] = .ok (s, replies) ∧
      (∃ a l r B L R, s.arrangement.split 0 = .ok (a, l, r) ∧ Parted s.arrangement a 0 l r B L R) ∧
      Yields (s.setGap 0 7) fun t => s.Released t 0 7 := by
  have hok : Yields ((new Problem.fork .batch Options.standard).run 0 [.satisfy]) fun r =>
      (r.1.problem.constraintAt 0).active = true := by decide +kernel
  obtain ⟨⟨s, replies⟩, hrun, hc⟩ := hok
  have hs : s.Leads s := (leads_of_run Problem.built_fork.consistent hrun).sound.with .refl
  have h := (parted_run Problem.built_fork .batch Options.standard 0 [.satisfy]).of_ok hrun s hs 0 hc
  exact ⟨s, replies, hrun, h.1, h.2 7⟩

end Solver

end Spacing
