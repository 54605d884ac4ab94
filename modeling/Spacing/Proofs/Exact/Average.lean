import Spacing.Proofs.Exact.Clearing

namespace Spacing

namespace Arrangement

section Keeping

variable {α : Type} [Scalar α] {a : Arrangement α} {c : ConId} {side : Side}

def endBlock (a : Arrangement α) (c : ConId) (side : Side) : BlockId :=
  a.blockOf (a.problem.edges.endOn side c)

def shiftKeeping (a : Arrangement α) (c : ConId) (side : Side) : α :=
  let fixed := (a.problem.variableAt (a.problem.edges.endOn side c)).offset
  let moved := (a.problem.variableAt (a.problem.edges.endOn side.other c)).offset
  let gap := (a.problem.constraintAt c).gap
  match side with
  | .left => fixed + gap - moved
  | .right => fixed - gap - moved

def mergeKeeping (a : Arrangement α) (c : ConId) (side : Side) : Arrangement α :=
  let stays := a.endBlock c side
  let goes := a.endBlock c side.other
  let problem := a.problem.modifyConstraint c fun k => { k with active := true }
  (Arrangement.absorb { a with problem } stays goes (a.blockAt stays) (a.blockAt goes)
    (a.shiftKeeping c side)).record (.merged c stays goes)

def largerSide (a : Arrangement α) (c : ConId) : Side :=
  if (a.blockAt (a.leftBlock c)).members.length < (a.blockAt (a.rightBlock c)).members.length then
    .right
  else .left

variable (ha : a.Intact) (hne : a.leftBlock c ≠ a.rightBlock c)
include ha hne

theorem merged_mergeKeeping (side : Side) : Merged a (a.mergeKeeping c side) c (a.endBlock c side)
    (a.endBlock c side.other) (a.blockAt (a.endBlock c side)) (a.blockAt (a.endBlock c side.other))
    (a.shiftKeeping c side) := by
  have hlt := lt_size_of_ends_ne hne
  have hblock (side : Side) :
      a.block? (a.endBlock c side) = some (a.blockAt (a.endBlock c side)) := by
    obtain ⟨B, hB⟩ := ha.exists_block (ha.consistent.endOn_lt hlt side)
    rw [endBlock, hB, blockAt_eq hB]
  constructor
  case survivor => exact hblock side
  case absorbed => exact hblock side.other
  case ne =>
    cases side
    · exact hne
    · exact hne.symm
  case ends =>
    cases side
    · exact .inl ⟨rfl, rfl, rfl⟩
    · exact .inr ⟨rfl, rfl, rfl⟩
  case result => rfl

theorem merge_eq_mergeKeeping : a.merge c =
    .ok (a.mergeKeeping c (a.largerSide c), a.endBlock c (a.largerSide c)) := by
  have hl := (merged_mergeKeeping ha hne .left).survivor
  have hr := (merged_mergeKeeping ha hne .right).survivor
  have hl : a.block? (a.leftBlock c) = some (a.blockAt (a.leftBlock c)) := hl
  have hr : a.block? (a.rightBlock c) = some (a.blockAt (a.rightBlock c)) := hr
  simp only [merge, if_neg hne, hl, hr, largerSide]
  split
  · rfl
  · rfl

end Keeping

def Rests {α : Type} [Scalar α] (a : Arrangement α) (b : BlockId) : Prop :=
  a.settle b = a

end Arrangement

namespace Problem

variable {p : Problem Rat} {x y : VarId → Rat} {vs ws : List VarId} {d : Rat}

def moment (p : Problem Rat) (x : VarId → Rat) (vs : List VarId) : Rat :=
  (vs.map fun v => (p.variableAt v).weight * x v).sum

theorem moment_append : p.moment x (vs ++ ws) = p.moment x vs + p.moment x ws := by
  rw [moment, List.map_append, List.sum_append, moment, moment]

theorem moment_shift (h : ∀ v ∈ vs, y v = x v + d) :
    p.moment y vs = p.moment x vs + p.mass vs * d := by
  induction vs with
  | nil => simp [moment, mass]
  | cons v vs ih =>
    have hv := h v List.mem_cons_self
    have ih := ih fun u hu => h u (List.mem_cons_of_mem _ hu)
    simp only [moment, mass, List.map_cons, List.sum_cons] at ih ⊢
    rw [ih, hv]
    ring

end Problem

namespace Arrangement

variable {a a' a'' : Arrangement Rat} {b t r t' r' : BlockId} {s B s' B' : Block Rat} {c d : ConId}
  {v : VarId} {shift shift' : Rat}

theorem rests_iff (ha : a.Intact) (hb : a.Balanced) : a.Rests b ↔ a.tension b = 0 := by
  constructor
  · intro h
    rw [← tension_settle (b := b) ha hb, show a.settle b = a from h]
  · intro ht
    exact modifyBlock_eq_self fun B hB => hb.settle_eq_of_tension ha hB ht

/-- The blocks at the ends of `c` have become the block `t`, in which `c` is active and tight. They have
moved so that the weighted sum of all places is what it was, and nothing moved inside of them or
elsewhere. -/
structure Averaged (a a' : Arrangement Rat) (c : ConId) (t : BlockId) : Prop where
  given_eq : a'.problem.given = a.problem.given
  constraintAt_eq : ∀ d, a'.problem.constraintAt d =
    if d = c then { a.problem.constraintAt d with active := true } else a.problem.constraintAt d
  union : ∀ v < a.problem.vars.size,
    a'.blockOf v = t ↔ a.blockOf v = a.leftBlock c ∨ a.blockOf v = a.rightBlock c
  tight : a'.slack c = 0
  rigid : a.Rigid a'
  moment_eq :
    let members := (a.blockAt (a.leftBlock c)).members ++ (a.blockAt (a.rightBlock c)).members
    a.problem.moment a'.position members = a.problem.moment a.position members
  outside : ∀ v < a.problem.vars.size, a.blockOf v ≠ a.leftBlock c → a.blockOf v ≠ a.rightBlock c →
    a'.blockOf v = a.blockOf v ∧ a'.position v = a.position v
  rests : a.Rests (a.leftBlock c) → a.Rests (a.rightBlock c) → a'.Rests t

namespace Merged

variable (h : Merged a a' c t r s B shift) (ha : a.Intact) (hb : a.Balanced)
include h ha hb

theorem slack_self : a'.slack c = 0 := by
  rw [h.slack_between ha hb h.lt_size rfl rfl, sub_self]

theorem moment_eq {Bl Br : Block Rat} (hl : a.block? (a.leftBlock c) = some Bl)
    (hr : a.block? (a.rightBlock c) = some Br) :
    a.problem.moment a'.position (Bl.members ++ Br.members) =
      a.problem.moment a.position (Bl.members ++ Br.members) := by
  have hWl := hb.weight_pos ha hl
  have hWr := hb.weight_pos ha hr
  have hleft := Problem.moment_shift (p := a.problem) (x := a.position) (y := a'.position)
    (d := Br.weight / (Bl.weight + Br.weight) * a.slack c) fun v (hv : v ∈ Bl.members) =>
      (h.position_eq ha hb hl hr (ha.lt_of_mem hl hv)).1 (ha.blockOf_eq hl hv)
  have hright := Problem.moment_shift (p := a.problem) (x := a.position) (y := a'.position)
    (d := -(Bl.weight / (Bl.weight + Br.weight) * a.slack c)) fun v (hv : v ∈ Br.members) => by
      rw [(h.position_eq ha hb hl hr (ha.lt_of_mem hr hv)).2 (ha.blockOf_eq hr hv)]
      ring
  rw [Problem.moment_append, Problem.moment_append, hleft, hright, ← hb.weight_eq _ _ hl,
    ← hb.weight_eq _ _ hr]
  field_simp
  ring

theorem averaged : Averaged a a' c t := by
  obtain ⟨Bl, hl⟩ := ha.exists_block (ha.consistent.leftEnd_lt h.lt_size)
  obtain ⟨Br, hr⟩ := ha.exists_block (ha.consistent.rightEnd_lt h.lt_size)
  have hl : a.block? (a.leftBlock c) = some Bl := hl
  have hr : a.block? (a.rightBlock c) = some Br := hr
  have hrigid : a.Rigid a := fun u _ v _ huv => ⟨huv, rfl⟩
  constructor
  case given_eq => exact h.given_eq
  case constraintAt_eq => exact fun d => h.constraintAt_eq
  case union => exact fun v hv => h.blockOf_eq_iff_ends ha hv
  case tight => exact h.slack_self ha hb
  case rigid => exact hrigid.merged ha rfl h
  case moment_eq =>
    rw [blockAt_eq hl, blockAt_eq hr]
    exact h.moment_eq ha hb hl hr
  case outside =>
    intro v hv hvl hvr
    have hvr' : a.blockOf v ≠ r := by
      rcases h.ends with ⟨-, hr', -⟩ | ⟨-, hr', -⟩
      · exact hr' ▸ hvr
      · exact hr' ▸ hvl
    exact ⟨h.blockOf_of_ne ha hvr', h.position_of_ne ha hvl hvr⟩
  case rests =>
    intro hleft hright
    rw [rests_iff ha hb] at hleft hright
    rw [rests_iff (h.intact ha) (h.balanced ha hb), h.tension_survivor ha hb, hleft, hright, add_zero]

theorem position_congr (h' : Merged a a'' c t' r' s' B' shift') (hv : v < a.problem.vars.size) :
    a'.position v = a''.position v := by
  obtain ⟨Bl, hl⟩ := ha.exists_block (ha.consistent.leftEnd_lt h.lt_size)
  obtain ⟨Br, hr⟩ := ha.exists_block (ha.consistent.rightEnd_lt h.lt_size)
  have hmove := h.position_eq ha hb hl hr hv
  have hmove' := h'.position_eq ha hb hl hr hv
  by_cases hvl : a.blockOf v = a.leftBlock c
  · rw [hmove.1 hvl, hmove'.1 hvl]
  · by_cases hvr : a.blockOf v = a.rightBlock c
    · rw [hmove.2 hvr, hmove'.2 hvr]
    · rw [h.position_of_ne ha hvl hvr, h'.position_of_ne ha hvl hvr]

end Merged

end Arrangement

namespace Solver

open Arrangement

/-- Whatever operations a new solver performs, a merge across a constraint between two blocks averages
them, and whichever block stays, the variables end at the same places. -/
theorem averaged_run {p : Problem Rat} (hp : p.Built) (mode : Mode) (options : Options Rat) (rounds : Nat)
    (ops : List (Operation Rat)) :
    YieldsUnless (Excused p ops) ((new p mode options).run rounds ops) fun r =>
      ∀ s, r.1.Leads s → ∀ c, s.arrangement.leftBlock c ≠ s.arrangement.rightBlock c →
        s.arrangement.merge c = .ok (s.arrangement.mergeKeeping c (s.arrangement.largerSide c),
          s.arrangement.endBlock c (s.arrangement.largerSide c)) ∧
        (∀ side, Averaged s.arrangement (s.arrangement.mergeKeeping c side) c
          (s.arrangement.endBlock c side)) ∧
        ∀ v < s.problem.vars.size, (s.arrangement.mergeKeeping c .left).position v =
          (s.arrangement.mergeKeeping c .right).position v := by
  apply (leads_run hp mode options rounds ops).mono fun _ he => he
  intro r hr s hs c hne
  have ha := hs.sound.intact
  have hb := balanced_of_leads hp (hr.trans hs)
  have hm := merged_mergeKeeping ha hne
  refine ⟨merge_eq_mergeKeeping ha hne, fun side => (hm side).averaged ha hb, fun v hv => ?_⟩
  exact (hm .left).position_congr ha hb (hm .right) hv

theorem averaged_run_fork : ∃ s replies,
    (new Problem.fork .batch Options.standard).run 0 [.satisfy, .setGap 1 3, .settle] =
        .ok (s, replies) ∧
      s.arrangement.leftBlock 1 ≠ s.arrangement.rightBlock 1 ∧
      s.arrangement.Rests (s.arrangement.leftBlock 1) ∧
      s.arrangement.Rests (s.arrangement.rightBlock 1) ∧
      s.arrangement.merge 1 = .ok (s.arrangement.mergeKeeping 1 (s.arrangement.largerSide 1),
        s.arrangement.endBlock 1 (s.arrangement.largerSide 1)) ∧
      (∀ side, Averaged s.arrangement (s.arrangement.mergeKeeping 1 side) 1
        (s.arrangement.endBlock 1 side)) ∧
      ∀ v < 3, (s.arrangement.mergeKeeping 1 .left).position v =
        (s.arrangement.mergeKeeping 1 .right).position v := by
  have hok : Yields ((new Problem.fork .batch Options.standard).run 0 [.satisfy, .setGap 1 3, .settle])
      fun r => r.1.arrangement.leftBlock 1 ≠ r.1.arrangement.rightBlock 1 ∧
        r.1.arrangement.settle (r.1.arrangement.leftBlock 1) = r.1.arrangement ∧
        r.1.arrangement.settle (r.1.arrangement.rightBlock 1) = r.1.arrangement ∧
        r.1.problem.vars.size = 3 := by decide +kernel
  obtain ⟨⟨s, replies⟩, hrun, hne, hleft, hright, hsize⟩ := hok
  have hs : s.Leads s := (leads_of_run Problem.built_fork.consistent hrun).sound.with .refl
  obtain ⟨hmerge, haverage, hsame⟩ := (averaged_run Problem.built_fork .batch Options.standard 0
    [.satisfy, .setGap 1 3, .settle]).of_ok hrun s hs 1 hne
  exact ⟨s, replies, hrun, hne, hleft, hright, hmerge, haverage, fun v hv => hsame v (hsize.symm ▸ hv)⟩

end Solver

end Spacing
