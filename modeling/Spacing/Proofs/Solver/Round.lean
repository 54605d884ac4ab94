import Spacing.Proofs.Solver.Pass

namespace Spacing

open Arrangement

variable {α : Type} [Scalar α]

namespace Arrangement

variable {a a' : Arrangement α} {c : ConId} {l r : BlockId}

def roundCosts (a : Arrangement α) : List α :=
  (eventsOf a.journal.toList).filterMap Event.roundCost?

omit [Scalar α] in
theorem roundCosts_push {x : Entry α} (h : a'.journal = a.journal.push x) :
    a'.roundCosts = a.roundCosts ++ (eventsOf [x]).filterMap Event.roundCost? := by
  rw [roundCosts, h, Array.toList_push, eventsOf, List.filterMap_append, List.filterMap_append]
  rfl

omit [Scalar α] in
theorem roundCosts_eq_of_push {x : Entry α} (h : a'.journal = a.journal.push x)
    (hx : (eventsOf [x]).filterMap Event.roundCost? = []) : a'.roundCosts = a.roundCosts := by
  rw [roundCosts_push h, hx, List.append_nil]

theorem roundCosts_split (h : a.split c = .ok (a', l, r)) : a'.roundCosts = a.roundCosts :=
  roundCosts_eq_of_push (journal_split h) rfl

theorem Merged.roundCosts_eq {t : BlockId} {s B : Block α} {shift : α}
    (h : Merged a a' c t r s B shift) : a'.roundCosts = a.roundCosts :=
  roundCosts_eq_of_push h.journal_eq rfl

theorem journal_foldl_settle (bs : List BlockId) (a : Arrangement α) :
    (bs.foldl Arrangement.settle a).journal = a.journal := by
  induction bs generalizing a with
  | nil => rfl
  | cons b bs ih => exact ih (a.settle b)

end Arrangement

namespace Solver

variable {s t u : Solver α} {E : Abort → Prop}

theorem keeps_roundCosts (ks : List α) : Keeps fun a : Arrangement α => a.roundCosts = ks where
  log a c x _ h := (roundCosts_eq_of_push (x := .event (.picked c x)) rfl rfl).trans h
  multipliers _ _ _ h := h
  merge _ _ _ _ _ h hm := by
    obtain ⟨_, _, _, _, hmerged⟩ := merged_of_merge hm
    exact hmerged.roundCosts_eq.trans h
  exchange _ _ _ _ _ _ _ _ _ _ _ _ h _ _ hs _ _ _ hm := by
    obtain ⟨_, _, _, _, hmerged⟩ := merged_of_merge hm
    exact hmerged.roundCosts_eq.trans ((roundCosts_split hs).trans h)
  cleanUp _ _ h := h

theorem roundCosts_splitNegative {bs : List BlockId} (h : s.splitNegative bs = .ok t) :
    t.arrangement.roundCosts = s.arrangement.roundCosts := by
  induction bs generalizing s with
  | nil =>
    cases h
    rfl
  | cons b bs ih =>
    unfold splitNegative at h
    dsimp only at h
    split at h
    · have hrest := ih h
      exact hrest
    · obtain ⟨⟨a, l, r⟩, hsplit, h⟩ := bind_eq_ok.mp h
      have hrest := ih h
      have hsame := roundCosts_split hsplit
      exact hrest.trans hsame

structure Silent (s t : Solver α) : Prop where
  leads : s.Leads t
  given_eq : t.problem.given = s.problem.given
  costs_eq : t.arrangement.roundCosts = s.arrangement.roundCosts

namespace Silent

variable (h : s.Silent t)
include h

theorem writePositions : s.Silent t.writePositions :=
  ⟨h.leads.writePositions, given_writePositions.trans h.given_eq, h.costs_eq⟩

theorem verify : s.Silent t.verify.1 := by
  refine ⟨h.leads.verify, ?_, ?_⟩ <;> unfold Solver.verify <;> split
  · exact h.given_eq
  · exact h.given_eq
  · exact h.costs_eq
  · rename_i c _
    refine (roundCosts_eq_of_push rfl rfl).trans ?_
    let e : Event α := .unsatisfied c (t.arrangement.slack c)
    exact (roundCosts_eq_of_push (x := .event e) rfl rfl).trans h.costs_eq

theorem resolve (n : Nat) : Yields (t.resolve n) fun r => s.Silent r.1 := by
  have hkeeps := (Keeps.given t.problem).and (keeps_roundCosts t.arrangement.roundCosts)
  obtain ⟨r, hr, hl, -, hg, hc⟩ :=
    (h.leads.resolve n).and (resolve_yields hkeeps h.leads.sound ⟨rfl, rfl⟩ n)
  exact ⟨r, hr, hl, hg.trans h.given_eq, hc.trans h.costs_eq⟩

end Silent

theorem splitBlocks_silent (hs : s.Sound) : Yields s.splitBlocks (s.Silent ·) := by
  obtain ⟨t, ht, hl, cs, hr⟩ := (splitBlocks_leads hs).and (splitBlocks_releases hs)
  refine ⟨t, ht, hl, hr.given_eq, ?_⟩
  obtain ⟨u, hu, ht⟩ := bind_eq_ok.mp ht
  cases ht
  refine (roundCosts_splitNegative hu).trans ?_
  exact congrArg (fun j => (eventsOf j.toList).filterMap Event.roundCost?)
    (journal_foldl_settle s.arrangement.blockIds s.arrangement)

theorem satisfyIncremental_silent (hs : s.Sound) : Yields s.satisfyIncremental (s.Silent ·.1) := by
  refine (splitBlocks_silent hs).bind fun t ht => ?_
  refine (ht.resolve 0).bind fun ⟨u, reply⟩ hu => ?_
  cases reply with
  | error e => exact .ok hu
  | ok => exact .ok hu.writePositions.verify

/-- The placements that the first rounds of a run end with, up to a failure. Every round splits blocks and
resolves what that violates, and between two rounds blocks are split once more. -/
def roundEnds : (rounds : Nat) → (done : Nat) → Solver α → List (Solver α)
  | 0, _, _ => []
  | rounds + 1, done, s =>
    match s.satisfyIncremental with
    | .ok (t, .ok ()) =>
      t :: match (t.record (.round (done + 1) t.arrangement.cost)).splitBlocks with
        | .ok u => roundEnds rounds (done + 1) u
        | .error _ => []
    | _ => []

theorem roundEnds_cons {rounds done : Nat} (ht : s.satisfyIncremental = .ok (t, .ok ()))
    (hu : (t.record (.round (done + 1) t.arrangement.cost)).splitBlocks = .ok u) :
    s.roundEnds (rounds + 1) done = t :: u.roundEnds rounds (done + 1) := by
  rw [roundEnds, ht]
  dsimp only
  rw [hu]

theorem leads_of_mem_roundEnds {rounds done : Nat} (hs : s.Sound) (hu : u ∈ s.roundEnds rounds done) :
    s.Leads u ∧ u.problem.given = s.problem.given := by
  induction rounds generalizing s done with
  | zero => cases hu
  | succ rounds ih =>
    obtain ⟨⟨t, reply⟩, ht, hst⟩ := satisfyIncremental_silent hs
    cases reply with
    | error e =>
      rw [roundEnds, ht] at hu
      cases hu
    | ok =>
      have hround := hst.leads.record (e := .round (done + 1) t.arrangement.cost) ⟨rfl, rfl⟩
      obtain ⟨v, hv, htv⟩ := splitBlocks_silent hround.sound
      rw [roundEnds_cons ht hv] at hu
      rcases List.mem_cons.mp hu with rfl | hu
      · exact ⟨hst.leads, hst.given_eq⟩
      · obtain ⟨hl, hg⟩ := ih htv.leads.sound hu
        exact ⟨(hround.trans htv.leads).trans hl, (hg.trans htv.given_eq).trans hst.given_eq⟩

theorem solveRounds_roundCosts (hE : E .outOfRounds) (rounds : Nat) (last : Option α) (done : Nat)
    (hs : s.Sound) : YieldsUnless E (s.solveRounds rounds last done) fun r => ∃ n ≤ rounds,
      r.1.arrangement.roundCosts =
        s.arrangement.roundCosts ++ (s.roundEnds n done).map (·.arrangement.cost) := by
  induction rounds generalizing s last done with
  | zero => exact .error hE
  | succ rounds ih =>
    obtain ⟨⟨t, reply⟩, ht, hst⟩ := satisfyIncremental_silent hs
    unfold solveRounds
    rw [ht]
    cases reply with
    | error e => exact .ok ⟨0, Nat.zero_le _, hst.costs_eq.trans (List.append_nil _).symm⟩
    | ok =>
      let e : Event α := .round (done + 1) t.arrangement.cost
      have hround : s.Leads (t.record e) := hst.leads.record ⟨rfl, rfl⟩
      have hcosts : (t.record e).arrangement.roundCosts =
          s.arrangement.roundCosts ++ [t.arrangement.cost] := by
        rw [← hst.costs_eq]
        exact roundCosts_push (x := .event e) rfl
      obtain ⟨u, hu, htu⟩ := splitBlocks_silent hround.sound
      have hone : s.roundEnds 1 done = [t] := roundEnds_cons ht hu
      dsimp only [bind, Except.bind, andThen]
      split
      · exact .ok ⟨1, Nat.le_add_left .., hone ▸ hcosts⟩
      · split
        · exact .ok ⟨1, Nat.le_add_left .., hone ▸ (roundCosts_eq_of_push rfl rfl).trans hcosts⟩
        · rw [hu]
          refine (ih (some t.arrangement.cost) (done + 1) htu.leads.sound).mono (fun _ he => he) ?_
          rintro r ⟨n, hn, hr⟩
          refine ⟨n + 1, Nat.succ_le_succ hn, ?_⟩
          rw [hr, htu.costs_eq, hcosts, roundEnds_cons ht hu, List.map_cons, List.append_assoc]
          rfl

end Solver

end Spacing
