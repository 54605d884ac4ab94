import Spacing.Proofs.Arrangement.Charted
import Spacing.Proofs.Solver.Structure

namespace Spacing

variable {α : Type} [Scalar α]

theorem Problem.modifyConstraint_eq_self {p : Problem α} {c : ConId} {f : Constraint α → Constraint α}
    (h : f (p.constraintAt c) = p.constraintAt c) : p.modifyConstraint c f = p := by
  have hmodify : p.constraints.modify c f = p.constraints := by
    apply Slots.modify_eq_self
    intro hc
    have hk : p.constraintAt c = p.constraints[c] := by simp [constraintAt, hc]
    rwa [hk] at h
  rw [modifyConstraint, hmodify]

omit [Scalar α] in
theorem Block.boundary_setBoundary (B : Block α) (side side' : Side) (cs : List ConId) :
    (B.setBoundary side cs).boundary side' = if side' = side then some cs else B.boundary side' := by
  cases side <;> cases side' <;> rfl

omit [Scalar α] in
theorem Block.setBoundary_eq_self {B : Block α} {side : Side} {cs : List ConId}
    (h : B.boundary side = some cs) : B.setBoundary side cs = B := by
  obtain ⟨_, _, _, _, _, _⟩ := B
  cases side
  · cases h
    rfl
  · cases h
    rfl

namespace Arrangement

variable {a a' : Arrangement α} {b : BlockId} {B : Block α} {side : Side} {bs : List BlockId}

def Collected (a : Arrangement α) (side : Side) (b : BlockId) : Prop :=
  ∀ B, a.block? b = some B → B.boundary side = some (a.crossing side b (a.listed side B.members))

theorem Collected.congr (h : a.Collected side b) (hg : a'.problem.given = a.problem.given)
    (hv : ∀ v, a'.blockOf v = a.blockOf v) (hb : ∀ B', a'.block? b = some B' → ∃ B,
      a.block? b = some B ∧ B'.members = B.members ∧ B'.boundary side = B.boundary side) :
    a'.Collected side b := by
  intro B' hB'
  obtain ⟨B, hB, hmembers, hboundary⟩ := hb B' hB'
  have hcross : a'.crossing side b (a.listed side B.members) =
      a.crossing side b (a.listed side B.members) := by
    apply crossing_congr
    intro c _
    rw [Problem.edges_eq hg, hv]
  rw [hboundary, h B hB, hmembers, listed_given hg, hcross]

theorem Collected.collectBoundary_eq (h : a.Collected side b) : a.collectBoundary side b = a := by
  apply modifyBlock_eq_self
  intro B hB
  apply Block.setBoundary_eq_self
  rw [collected_eq, blockAt_eq hB]
  exact h B hB

theorem collected_collectBoundary (a : Arrangement α) (side : Side) (b : BlockId) :
    (a.collectBoundary side b).Collected side b := by
  intro B' hB'
  rw [collectBoundary, block?_modifyBlock, if_pos rfl] at hB'
  obtain ⟨B, hB, rfl⟩ := Option.map_eq_some_iff.mp hB'
  have hmembers (cs : List ConId) : (B.setBoundary side cs).members = B.members := by
    cases side <;> rfl
  rw [Block.boundary_setBoundary, if_pos rfl, hmembers, collected_eq, blockAt_eq hB]
  rfl

theorem Collected.collectBoundary (h : a.Collected side b) (side' : Side) (i : BlockId) :
    (a.collectBoundary side' i).Collected side b := by
  by_cases hsame : side = side' ∧ b = i
  · obtain ⟨rfl, rfl⟩ := hsame
    exact collected_collectBoundary a side b
  · refine h.congr rfl (fun _ => rfl) fun B' hB' => ?_
    rw [Arrangement.collectBoundary, block?_modifyBlock] at hB'
    split at hB'
    · rename_i hb
      obtain ⟨B, hB, rfl⟩ := Option.map_eq_some_iff.mp hB'
      have hside : side ≠ side' := fun hs => hsame ⟨hs, hb⟩
      refine ⟨B, hB, by cases side' <;> rfl, ?_⟩
      rw [Block.boundary_setBoundary, if_neg hside]
    · exact ⟨B', hB', rfl, rfl⟩

theorem collected_collectBoundaries (hb : b ∈ bs) (side : Side) :
    (a.collectBoundaries bs).Collected side b := by
  induction bs generalizing a with
  | nil => cases hb
  | cons i bs ih =>
    rcases List.mem_cons.mp hb with rfl | hb
    · refine collectBoundaries_keeps (I := fun a => a.Collected side b)
        (fun _ side' i h => h.collectBoundary side' i) ?_ bs
      cases side
      · exact (collected_collectBoundary a .left b).collectBoundary .right b
      · exact collected_collectBoundary _ .right b
    · exact ih hb

theorem collectBoundaries_of_collected (h : ∀ b ∈ bs, ∀ side, a.Collected side b) :
    a.collectBoundaries bs = a := by
  induction bs with
  | nil => rfl
  | cons b bs ih =>
    obtain ⟨hb, hbs⟩ := List.forall_mem_cons.mp h
    calc a.collectBoundaries (b :: bs)
      _ = ((a.collectBoundary .left b).collectBoundary .right b).collectBoundaries bs := rfl
      _ = a.collectBoundaries bs := by rw [(hb .left).collectBoundary_eq, (hb .right).collectBoundary_eq]
      _ = a := ih hbs

def Noted (a : Arrangement α) (b : BlockId) : Prop :=
  ∀ m ∈ a.multipliersOf b, (a.problem.constraintAt m.1).multiplier = m.2

theorem writeMultipliers_eq_self {ms : List (ConId × α)}
    (h : ∀ m ∈ ms, (a.problem.constraintAt m.1).multiplier = m.2) : a.writeMultipliers ms = a := by
  induction ms with
  | nil => rfl
  | cons m ms ih =>
    obtain ⟨hm, hms⟩ := List.forall_mem_cons.mp h
    have hsame : a.problem.modifyConstraint m.1 (fun k => { k with multiplier := m.2 }) = a.problem := by
      apply Problem.modifyConstraint_eq_self
      rw [← hm]
    have hfirst := ih hms
    rw [writeMultipliers] at hfirst ⊢
    rw [List.foldl_cons, hsame, hfirst]

theorem noted_writeMultipliers (ha : a.Intact) (b : BlockId) :
    (a.writeMultipliers (a.multipliersOf b)).Noted b := by
  intro m hm
  rw [multipliersOf_writeMultipliers] at hm
  exact multiplier_writeMultipliers ha hm

theorem Noted.writeMultipliers (h : a.Noted b) (ha : a.Intact) (i : BlockId) :
    (a.writeMultipliers (a.multipliersOf i)).Noted b := by
  by_cases hbi : b = i
  · subst hbi
    exact noted_writeMultipliers ha b
  · intro m hm
    rw [multipliersOf_writeMultipliers] at hm
    -- The multipliers of another block are those of other constraints.
    have hother : m.1 ∉ (a.multipliersOf i).map Prod.fst := by
      intro hmi
      obtain ⟨x, hx, hxm⟩ := List.mem_map.mp hmi
      apply hbi
      rw [← leftBlock_of_mem_multipliersOf ha hm, ← hxm, leftBlock_of_mem_multipliersOf ha hx]
    have hkept := constraintAt_foldl_of_notMem (p := a.problem) hother
    exact (congrArg Constraint.multiplier hkept).trans (h m hm)

theorem noted_firstNegative (ha : a.Intact) (h : (a.firstNegative bs).2 = none) (hb : b ∈ bs) :
    (a.firstNegative bs).1.Noted b := by
  induction bs generalizing a with
  | nil => cases hb
  | cons i bs ih =>
    have ha' : (a.leastMultiplier i).1.Intact := ha.writeMultipliers _
    rw [firstNegative_cons] at h ⊢
    split at h
    · cases h
    · rcases List.mem_cons.mp hb with rfl | hb
      · exact (firstNegative_keeps (I := fun a => a.Noted b) (fun _ i ha h => h.writeMultipliers ha i)
          ha' (noted_writeMultipliers ha b)).2
      · exact ih ha' h hb

theorem firstNegative_of_noted (h : ∀ b ∈ bs, a.Noted b) (hn : (a.firstNegative bs).2 = none) :
    a.firstNegative bs = (a, none) := by
  induction bs with
  | nil => rfl
  | cons b bs ih =>
    obtain ⟨hb, hbs⟩ := List.forall_mem_cons.mp h
    have hsame : (a.leastMultiplier b).1 = a := writeMultipliers_eq_self hb
    rw [firstNegative_cons, hsame] at hn ⊢
    split at hn
    · cases hn
    · exact ih hbs hn

structure UpToDate (a : Arrangement α) : Prop where
  collected : ∀ b ∈ a.blockIds, ∀ side, a.Collected side b
  noted : ∀ b ∈ a.blockIds, a.Noted b

theorem UpToDate.writePositions (h : a.UpToDate) : a.writePositions.UpToDate where
  collected b hb side := by
    refine (h.collected b hb side).congr given_writePositions block_writePositions fun B hB => ?_
    exact ⟨B, hB, rfl, rfl⟩
  noted b hb m hm := by
    rw [(still_writePositions a).multipliersOf_eq] at hm
    exact h.noted b hb m hm

theorem writePositions_writePositions (a : Arrangement α) :
    a.writePositions.writePositions = a.writePositions := by
  have hposition := (still_writePositions a).position_eq
  have hvars : a.writePositions.writePositions.problem.vars = a.writePositions.problem.vars := by
    apply Array.ext
    · simp [Arrangement.writePositions]
    · intro v hv hv'
      have hstored : a.writePositions.problem.vars[v].position = a.position v := by
        simp [Arrangement.writePositions]
      have hagain : a.writePositions.writePositions.problem.vars[v] =
          { a.writePositions.problem.vars[v] with position := a.writePositions.position v } := by
        simp [Arrangement.writePositions]
      rw [hagain, hposition, ← hstored]
  exact congrArg (fun vars => { a.writePositions with problem.vars := vars }) hvars

end Arrangement

namespace Solver

open Arrangement

variable {s t : Solver α} {p : Problem α}

theorem upToDate_scan (hs : s.Sound) (hn : s.scan.2 = none) : s.scan.1.UpToDate := by
  have hintact := hs.intact.steps (steps_collectBoundaries s.arrangement s.arrangement.blockIds)
  have hids : s.scan.1.blockIds = s.arrangement.blockIds := (idle_scan hs).ids_eq
  constructor
  · intro b hb side
    rw [hids] at hb
    refine (firstNegative_keeps (I := fun a => a.Collected side b) ?_ hintact
      (collected_collectBoundaries hb side)).2
    intro a i _ h
    refine h.congr (given_writeMultipliers _) (still_writeMultipliers a _).blockOf_eq fun B hB => ?_
    exact ⟨B, hB, rfl, rfl⟩
  · intro b hb
    exact noted_firstNegative hintact hn (hids ▸ hb)

theorem scan_of_upToDate (h : s.arrangement.UpToDate) (hn : s.scan.2 = none) :
    s.scan = (s.arrangement, none) := by
  rw [scan, collectBoundaries_of_collected h.collected] at hn ⊢
  exact firstNegative_of_noted h.noted hn

theorem scan_of_refineOnce (h : s.refineOnce = .ok (t, none)) :
    s.scan.2 = none ∧ t = { s with arrangement := s.scan.1 } := by
  cases hc : s.scan.2 with
  | none =>
    rw [refineOnce_of_none hc] at h
    cases h
    exact ⟨rfl, rfl⟩
  | some c =>
    rw [refineOnce_of_some hc] at h
    obtain ⟨a, -, h⟩ := bind_eq_ok.mp h
    obtain ⟨r, -, h⟩ := bind_eq_ok.mp h
    cases h

theorem refine_of_upToDate (h : s.arrangement.UpToDate) (hn : s.scan.2 = none)
    (hw : s.writePositions = s) (hv : s.verify = (s, .ok ())) (k : Nat) :
    s.refine (k + 1) = .ok (s, .ok ()) := by
  have hround : s.refineOnce = .ok (s, none) := by
    rw [refineOnce_of_none hn, scan_of_upToDate h hn]
  calc s.refine (k + 1)
    _ = .ok s.writePositions.verify := by rw [refine, hround]; rfl
    _ = .ok (s, .ok ()) := by rw [hw, hv]

theorem refine_again (hs : s.Sound) {limit : Nat} (h : s.refine limit = .ok (t, .ok ())) (k : Nat) :
    t.refine (k + 1) = .ok (t, .ok ()) := by
  obtain ⟨u, v, hu, hlast, hv⟩ := refine_eq_ok (P := Sound)
    (fun u v hu hv => ((refineOnce_leads hu).of_ok hv).sound) hs h
  obtain ⟨hn, hscan⟩ := scan_of_refineOnce hlast
  have ht := verify_eq_ok hv
  have hidle : Idle u.arrangement t.arrangement := by
    rw [ht, hscan]
    exact (idle_scan hu).trans (.writePositions _)
  have hsound : t.Sound := by
    rw [ht, hscan]
    exact ((hu.with (steps_scan hu)).writePositions).sound
  have hcurrent : t.arrangement.UpToDate := by
    rw [ht, hscan]
    exact (upToDate_scan hu hn).writePositions
  have hquiet : t.scan.2 = none := by
    rw [scan_eq_findSome hsound, hidle.ids_eq, funext hidle.still.negativeOf_eq,
      ← scan_eq_findSome hu, hn]
  have hstored : t.writePositions = t := by
    rw [ht]
    exact congrArg (fun a => { v with arrangement := a }) (writePositions_writePositions v.arrangement)
  exact refine_of_upToDate hcurrent hquiet hstored (ht ▸ hv) k

/-- Once a refinement has succeeded, another one succeeds in its first round and changes nothing: not
the blocks, what they know of their boundaries, the constraints, the positions, what is watched or the
journal. -/
theorem refine_idempotent (hp : p.Built) (mode : Mode) (options : Options α) (rounds : Nat)
    (ops : List (Operation α)) :
    YieldsUnless (Excused p ops) ((new p mode options).run rounds ops) fun r =>
      ∀ s, r.1.Leads s → ∀ limit t, s.refine limit = .ok (t, .ok ()) →
        ∀ k, t.refine (k + 1) = .ok (t, .ok ()) := by
  apply (leads_run hp mode options rounds ops).mono fun _ he => he
  intro r _ s hs limit t ht k
  exact refine_again hs.sound ht k

theorem refine_idempotent_fork : ∃ s replies t,
    (new Problem.fork .batch Options.standard).run 0 [.satisfy] = .ok (s, replies) ∧
      s.refine 2 = .ok (t, .ok ()) ∧ t.refine 1 = .ok (t, .ok ()) := by
  -- The first of these refinements splits a block.
  have hok : Yields ((new Problem.fork .batch Options.standard).run 0 [.satisfy]) fun r =>
      Yields (r.1.refine 2) fun q => q.2 = .ok () := by decide +kernel
  obtain ⟨⟨s, replies⟩, hrun, ⟨t, reply⟩, ht, hreply⟩ := hok
  cases hreply
  have hs : s.Leads s := (leads_of_run Problem.built_fork.consistent hrun).sound.with .refl
  refine ⟨s, replies, t, hrun, ht, ?_⟩
  exact (refine_idempotent Problem.built_fork .batch Options.standard 0 [.satisfy]).of_ok hrun s hs 2 t
    ht 0

end Solver

end Spacing
