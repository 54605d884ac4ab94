import Spacing.Proofs.Exact.Force
import Spacing.Proofs.Exact.Restart
import Spacing.Proofs.Solver.Progress

namespace Spacing

def Problem.yielding (p : Problem Rat) (bs : List Branch) : Set ConId :=
  { c | ∃ b ∈ bs, b.via = c ∧ b.forward = true ∧ (p.constraintAt c).equality = false }

namespace Arrangement

variable {a a' a'' : Arrangement Rat} {l r r' t : BlockId} {s B B' : Block Rat} {c f : ConId}
  {u v : VarId} {L R : List VarId} {bs : List Branch} {shift : Rat}

structure Exchanged (a a' : Arrangement Rat) (c f : ConId) : Prop where
  given_eq : a'.problem.given = a.problem.given
  active_eq : a'.problem.active = insert c (a.problem.active \ {f})
  tight : a'.slack c = 0
  freed : a'.slack f = -a.slack c

theorem Exchanged.of_still (h : Exchanged a' a'' c f) (hs : Still a a') : Exchanged a a'' c f where
  given_eq := h.given_eq.trans hs.given_eq
  active_eq := by rw [h.active_eq, hs.active_eq]
  tight := h.tight
  freed := by rw [h.freed, hs.slack_eq]

theorem Halved.exchanged (h : Halved a a' f l r B L R) (hm : Merged a' a'' c t r' s B' shift)
    (ha : a.Intact) (hb : a.Balanced) (hf : f ∈ a.problem.active)
    (hL : a.problem.edges.left c ∈ L) (hR : a.problem.edges.right c ∈ R) : Exchanged a a'' c f := by
  have ha' := h.intact ha hf
  have hb' := h.balanced hb
  have hc : c < a.problem.constraints.size := Problem.size_constraints_eq h.given_eq ▸ hm.lt_size
  have hflt := Problem.lt_size_of_mem_active hf
  have hleft : a'.leftBlock f = a'.leftBlock c := by
    rw [leftBlock_eq, leftBlock_eq, h.edges_eq, h.blockOf_left ha hf h.ends_mem.1,
      h.blockOf_left ha hf hL]
  have hright : a'.rightBlock f = a'.rightBlock c := by
    rw [rightBlock_eq, rightBlock_eq, h.edges_eq, h.blockOf_right ha hf h.ends_mem.2,
      h.blockOf_right ha hf hR]
  constructor
  case given_eq => exact hm.given_eq.trans h.given_eq
  case active_eq => rw [hm.active_eq, h.active_eq]
  case tight => exact hm.slack_self ha' hb'
  case freed =>
    have hflt' : f < a'.problem.constraints.size := (Problem.size_constraints_eq h.given_eq).symm ▸ hflt
    rw [hm.slack_between ha' hb' hflt' hleft hright, h.slack_eq ha hf hflt, h.slack_eq ha hf hc,
      hb.slack_of_active ha hf, zero_sub]

theorem leastOnPath_least (ha : a.Intact) (hu : u < a.problem.vars.size) (hv : v < a.problem.vars.size)
    (huv : a.blockOf u = a.blockOf v) (h : a.problem.IsRoute u v bs) :
    LeastIn (fun c => ((a.leastMultiplier (a.blockOf u)).1.problem.constraintAt c).multiplier)
      (a.problem.yielding bs) (a.leastOnPath u v).2 := by
  let a₁ := (a.leastMultiplier (a.blockOf u)).1
  let candidates := (a₁.path u v).filter fun b => b.forward && a₁.isReleasable b.via
  let key := fun b : Branch => (a₁.problem.constraintAt b.via).multiplier
  have hleast : (a.leastOnPath u v).2 = (firstLeast key candidates).map fun b => b.via := rfl
  have hmem (b : Branch) : b ∈ candidates ↔
      b ∈ bs ∧ b.forward = true ∧ (a.problem.constraintAt b.via).equality = false := by
    have hpath : a₁.path u v = a.path u v := path_writeMultipliers _ u v
    have hrel : a₁.isReleasable b.via = a.isReleasable b.via := isReleasable_writeMultipliers _ b.via
    rw [List.mem_filter, hpath, mem_path_iff ha hu hv huv h, hrel, isReleasable, Bool.and_eq_true,
      Bool.not_eq_true']
  rw [hleast]
  apply leastIn_firstLeast
  · intro c
    rw [List.mem_map]
    constructor
    · rintro ⟨b, hb, rfl, hkeep⟩
      exact ⟨b, (hmem b).mpr ⟨hb, hkeep⟩, rfl⟩
    · rintro ⟨b, hb, rfl⟩
      obtain ⟨hb, hkeep⟩ := (hmem b).mp hb
      exact ⟨b, hb, rfl, hkeep⟩
  · exact fun _ _ => rfl

theorem splitBetween_of_some (h : (a.leastOnPath u v).2 = some f) :
    a.splitBetween u v = (do
      let (a', _) ← (a.leastOnPath u v).1.split f
      return (a', some f)) := by
  unfold splitBetween
  split
  · rename_i a₁ hfound
    rw [hfound] at h
    cases h
  · rename_i a₁ d hfound
    rw [hfound] at h ⊢
    cases h
    rfl

theorem exists_exchanged (ha : a.Intact) (hb : a.Balanced) (hc : c < a.problem.constraints.size)
    (hcb : a.leftBlock c = a.rightBlock c)
    (h : (a.leastOnPath (a.problem.edges.left c) (a.problem.edges.right c)).2 = some f) :
    ∃ a' l r a'' t, (a.leastMultiplier (a.leftBlock c)).1.split f = .ok (a', l, r) ∧
      a.splitBetween (a.problem.edges.left c) (a.problem.edges.right c) = .ok (a', some f) ∧
      a'.merge c = .ok (a'', t) ∧ Exchanged a a'' c f := by
  have hbind := splitBetween_of_some h
  rcases splitBetween_cases ha (ha.consistent.leftEnd_lt hc) (ha.consistent.rightEnd_lt hc) hcb with
    hnone | ⟨_, g, a', l, r, B, L, R, rfl, hsome, hactive, -, hsplit, hhalved, hL, hR⟩
  · obtain ⟨_, -, hr⟩ := bind_eq_ok.mp (hbind.symm.trans hnone)
    cases congrArg Prod.snd (Except.ok.inj hr)
  · obtain ⟨_, -, hr⟩ := bind_eq_ok.mp (hbind.symm.trans hsome)
    obtain rfl : f = g := Option.some.inj (congrArg Prod.snd (Except.ok.inj hr))
    have hstill := still_writeMultipliers a (a.multipliersOf (a.leftBlock c))
    have ha₁ := ha.writeMultipliers (a.multipliersOf (a.leftBlock c))
    have hc₁ := (Problem.size_constraints_eq hstill.given_eq).symm ▸ hc
    rw [← hstill.edges_eq] at hL hR
    obtain ⟨a'', t, hm, -⟩ := hhalved.exists_exchange ha₁ hactive hc₁ hL hR
    obtain ⟨_, _, _, _, hmerged⟩ := merged_of_merge hm
    have hex := hhalved.exchanged hmerged ha₁ (hb.still hstill) hactive hL hR
    exact ⟨a', l, r, a'', t, hsplit, hsome, hm, hex.of_still hstill⟩

end Arrangement

namespace Solver

open Arrangement

variable {s : Solver Rat} {c f : ConId} {a' a'' : Arrangement Rat} {t : BlockId}

theorem resolveInside_of_some
    (h : s.arrangement.splitBetween (s.problem.edges.left c) (s.problem.edges.right c) = .ok (a', some f))
    (hm : a'.merge c = .ok (a'', t)) (splits : Nat) : s.resolveInside c splits =
      .ok (.resumed { s with arrangement := a'', inactive := s.inactive ++ [f] } (splits + 1)) := by
  refine bind_eq_ok.mpr ⟨_, h, bind_eq_ok.mpr ⟨_, ?_, rfl⟩⟩
  exact bind_eq_ok.mpr ⟨_, hm, rfl⟩

/-- Whatever operations a new solver performs, there is one route between two members of a block. What is
found there is an inequality that it crosses from left to right, one of least multiplier, and this gives
way to a constraint between the two. -/
theorem exchanged_run {p : Problem Rat} (hp : p.Built) (mode : Mode) (options : Options Rat)
    (rounds : Nat) (ops : List (Operation Rat)) :
    YieldsUnless (Excused p ops) ((new p mode options).run rounds ops) fun r =>
      ∀ s, r.1.Leads s → ∀ u < s.problem.vars.size, ∀ v < s.problem.vars.size,
        s.arrangement.blockOf u = s.arrangement.blockOf v →
        let a := (s.arrangement.leastMultiplier (s.arrangement.blockOf u)).1
        let least := (s.arrangement.leastOnPath u v).2
        (s.arrangement.leastOnPath u v).1 = a ∧ (∃! bs, s.problem.IsRoute u v bs) ∧
        (∀ bs, s.problem.IsRoute u v bs →
          LeastIn (fun c => (a.problem.constraintAt c).multiplier) (s.problem.yielding bs) least) ∧
        ∀ c < s.problem.constraints.size, s.problem.edges.left c = u → s.problem.edges.right c = v →
          ∀ f, least = some f → ∃ a' l r a'' t, a.split f = .ok (a', l, r) ∧
            a'.merge c = .ok (a'', t) ∧ Exchanged s.arrangement a'' c f ∧
            ∀ splits, s.resolveInside c splits = .ok (.resumed
              { s with arrangement := a'', inactive := s.inactive ++ [f] } (splits + 1)) := by
  apply (leads_run hp mode options rounds ops).mono fun _ he => he
  intro r hr s hs u hu v hv huv
  have ha := hs.sound.intact
  have hb := balanced_of_leads hp (hr.trans hs)
  refine ⟨rfl, existsUnique_route ha hu hv huv, fun bs h => leastOnPath_least ha hu hv huv h, ?_⟩
  rintro c hc rfl rfl f hf
  obtain ⟨a', l, r, a'', t, hsplit, hbetween, hm, hex⟩ := exists_exchanged ha hb hc huv hf
  exact ⟨a', l, r, a'', t, hsplit, hm, hex, resolveInside_of_some hbetween hm⟩

theorem exchanged_run_bow : ∃ s replies a'',
    (new Problem.bow .batch Options.standard).run 0 [.satisfy, .setGap 3 2] = .ok (s, replies) ∧
      s.arrangement.slack 3 = -1 ∧ (s.arrangement.leastOnPath 2 3).2 = some 2 ∧
      (∃! bs, s.problem.IsRoute 2 3 bs) ∧
      (∀ bs, s.problem.IsRoute 2 3 bs → LeastIn
        (fun c => ((s.arrangement.leastMultiplier 0).1.problem.constraintAt c).multiplier)
        (s.problem.yielding bs) (some 2)) ∧
      s.resolveInside 3 0 =
        .ok (.resumed { s with arrangement := a'', inactive := s.inactive ++ [2] } 1) ∧
      a''.slack 3 = 0 ∧ a''.slack 2 = 1 := by
  -- The route from variable 2 to variable 3 goes back over one constraint and on over another,
  -- which gives way.
  have hok : Yields ((new Problem.bow .batch Options.standard).run 0 [.satisfy, .setGap 3 2]) fun r =>
      r.1.arrangement.slack 3 = -1 ∧ (r.1.arrangement.leastOnPath 2 3).2 = some 2 ∧
        r.1.problem.vars.size = 4 ∧ r.1.problem.constraints.size = 4 ∧
        r.1.arrangement.blockOf 2 = 0 ∧ r.1.arrangement.blockOf 3 = 0 ∧
        r.1.problem.edges.left 3 = 2 ∧ r.1.problem.edges.right 3 = 3 := by decide +kernel
  obtain ⟨⟨s, replies⟩, hrun, hslack, hleast, hn, hm, hu, hv, hleft, hright⟩ := hok
  have hn : s.problem.vars.size = 4 := hn
  have hm : s.problem.constraints.size = 4 := hm
  have hs : s.Leads s := (leads_of_run Problem.built_bow.consistent hrun).sound.with .refl
  obtain ⟨-, hroute, hfound, hex⟩ := (exchanged_run Problem.built_bow .batch Options.standard 0
    [.satisfy, .setGap 3 2]).of_ok hrun s hs 2 (by omega) 3 (by omega) (hu.trans hv.symm)
  obtain ⟨-, -, -, a'', -, -, -, hexchanged, hresolve⟩ := hex 3 (by omega) hleft hright 2 hleast
  have hfreed := hexchanged.freed
  rw [hslack, neg_neg] at hfreed
  rw [hu, hleast] at hfound
  exact ⟨s, replies, a'', hrun, hslack, hleast, hroute, hfound, hresolve 0, hexchanged.tight, hfreed⟩

end Solver

end Spacing
