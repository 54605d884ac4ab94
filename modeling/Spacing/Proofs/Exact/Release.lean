import Spacing.Proofs.Exact.Feasible

namespace Spacing

namespace Arrangement

variable {a a' : Arrangement Rat} {b l r : BlockId} {B : Block Rat} {L R : List VarId} {c : ConId}
  {x : Rat} {side : Side} {p : Problem Rat} {P : Event Rat → Prop}

theorem Halved.multiplier_eq_tension (h : Halved a a' c l r B L R) (ha : a.Intact) (hr : a.Resting)
    (hx : (c, x) ∈ a.multipliersOf b) : x = 2 * a.problem.tension a.position R := by
  obtain rfl : a.leftBlock c = b := leftBlock_of_mem_multipliersOf ha hx
  obtain ⟨root, rest, hmem⟩ := List.exists_cons_of_ne_nil (ha.nonempty _ B h.old)
  rw [multipliersOf_eq h.old (hmem ▸ List.head?_cons)] at hx
  exact h.multiplier_eq ha (hr.tension_eq _) (hmem ▸ List.mem_cons_self) hx

theorem base_along (hg : a.problem.given = p.given) (hs : ∀ c < p.constraints.size, 0 ≤ a.slack c) :
    Base p side (fun _ => True) (a.along side) where
  closed _ _ _ := trivial
  satisfied c hc _ := by
    rw [← slack_of_given hg]
    exact hs c hc

theorem pushed_settle (ha : a.Intact) (hb : a.Balanced) (hg : a.problem.given = p.given)
    (hs : ∀ c < p.constraints.size, 0 ≤ a.slack c) (hB : a.block? b = some B)
    (hx : 0 ≤ side.sign * a.tension b) :
    Pushed p side (fun _ => True) (a.along side) (a.settle b) b := by
  let move := side.sign * a.tension b / B.weight
  have hmove : 0 ≤ move := div_nonneg hx (hb.weight_pos ha hB).le
  have hin (v : VarId) (hv : a.blockOf v = b) :
      (a.settle b).along side v = a.along side v - move := by
    rw [along, along, position_settle ha hb hB hv]
    simp only [move]
    ring
  have hout (v : VarId) (hv : a.blockOf v ≠ b) : (a.settle b).along side v = a.along side v := by
    rw [along, along, position_settle_of_ne hv]
  have hg' : (a.settle b).problem.given = p.given := hg
  constructor
  case given_eq => exact hg
  case balanced => exact hb.settle ha
  case together => exact fun _ _ _ _ _ => .inr ⟨trivial, trivial⟩
  case inside => exact fun _ _ _ => trivial
  case outside => exact fun v _ hv => hout v hv
  case behind =>
    intro v _ hv
    rw [hin v hv]
    linarith
  case below =>
    intro v _ hv c hc
    obtain ⟨hlt, hnear, hfar⟩ := (crosses_of_given hg').mp hc
    have hold := hs c hlt
    rw [slack_of_given hg side] at hold
    rw [slack_of_given hg' side, hin v hv, hin _ hnear, hout _ hfar]
    linarith
  case within =>
    intro c hc hn hf
    have hold := hs c hc
    rw [slack_of_given hg side] at hold
    rw [slack_of_given hg' side, hin _ hn, hin _ hf]
    linarith

theorem Feasible.rebalance (hf : Feasible p P a) (hi : p.Inequalities)
    (hmerged : ∀ c t r, P (.merged c t r)) (hsplit : ∀ c x l r, P (.split c x l r))
    (hx : (c, x) ∈ a.multipliersOf b) (hneg : x < 0) : Yields (a.rebalance c) (Feasible p P) := by
  have ha := hf.intact
  have hc := active_of_mem_multipliersOf ha.consistent hx
  have hinv (side : Side) : LoopInvariant side fun a b =>
      (∃ y, Base p side (fun _ => True) y ∧ Pushed p side (fun _ => True) y a b) ∧ a.Tells P :=
    (loopInvariant_pushed hi side _).and (loopInvariant_tells hmerged side)
  refine (rebalance_rests (P := fun x => x < 0) ha hf.resting hf.given_eq hc (hinv .left)
    (hinv .right) ?_ ?_).mono ?_
  · intro a' l r B L R hh
    -- A negative multiplier pulls the left half to the left, and the right half to the right as much.
    have hright := hh.multiplier_eq_tension ha hf.resting hx
    have hsum := hh.tension_add ha hc
    rw [hf.resting.tension_eq, hh.tension_right ha hc] at hsum
    have hg₁ := hh.given_eq.trans hf.given_eq
    have hs₁ (d : ConId) (hd : d < p.constraints.size) : 0 ≤ a'.slack d := by
      rw [hh.slack_eq ha hc (Problem.size_constraints_eq hf.given_eq ▸ hd)]
      exact hf.satisfied d hd
    refine ⟨by linarith, ⟨_, base_along hg₁ hs₁, pushed_settle (hh.intact ha hc)
      (hh.balanced hf.resting.balanced) hg₁ hs₁ hh.block?_left ?_⟩,
      hf.tells.push (hsplit _ _ _ _) hh.journal_eq⟩
    rw [Side.sign]
    linarith
  · rintro a' b' x' ha' hg' hb hx' hpulled ⟨⟨y, hbase, hpushed⟩, ht⟩ hk hn
    have hclt : c < a'.problem.constraints.size := by
      rw [Problem.size_constraints_eq hg', ← Problem.size_constraints_eq hf.given_eq]
      exact Problem.lt_size_of_mem_active hc
    obtain ⟨B, hB⟩ := Option.isSome_iff_exists.mp (ha'.isSome_right hclt)
    have hs' (d : ConId) (hd : d < p.constraints.size) : 0 ≤ a'.slack d :=
      hpushed.slack_nonneg ha' hb hk hn hbase hd trivial
    refine ⟨⟨_, base_along hg' hs', pushed_settle ha' hpulled.balanced hg' hs' hB ?_⟩, ht⟩
    have hright : a'.rightBlock c = a'.blockOf (a.problem.edges.right c) := by
      rw [rightBlock_eq, Problem.edges_eq hg', Problem.edges_eq hf.given_eq]
    rw [hright, hpulled.tension_eq, if_pos rfl, Side.sign]
    linarith
  · rintro a' ⟨ha', hr', hg', b', hb, ⟨⟨y, hbase, hpushed⟩, ht⟩, hk, hn⟩
    exact ⟨ha', hr', hg',
      fun d hd => hpushed.slack_nonneg ha' hb hk hn hbase hd trivial, ht⟩

end Arrangement

end Spacing
