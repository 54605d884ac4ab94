import Spacing.Proofs.Arrangement.Chronicle
import Spacing.Proofs.Solver.Structure

namespace Spacing

open Arrangement

variable {α : Type}

/-- What is told of a constraint that is picked: its ends were in two blocks, which are merged; or they
were in one, which is split for it and merged again; or they were in one and nothing is done. -/
inductive Turn (α : Type)
  | across (c : ConId) (slack : α) (survivor absorbed : BlockId)
  | exchange (c : ConId) (slack : α) (freed : ConId) (multiplier : α)
    (left right survivor absorbed : BlockId)
  | vain (c : ConId) (slack : α)

namespace Turn

def events : Turn α → List (Event α)
  | .across c slack survivor absorbed => [.picked c slack, .merged c survivor absorbed]
  | .exchange c slack freed multiplier left right survivor absorbed =>
    [.picked c slack, .split freed multiplier left right, .merged c survivor absorbed]
  | .vain c slack => [.picked c slack]

def isAcross : Turn α → Bool
  | .across .. => true
  | _ => false

end Turn

variable [Scalar α]

namespace Arrangement

variable {a a' : Arrangement α} {b t l r : BlockId} {c : ConId} {u v : VarId} {side : Side}

theorem events_merge (h : a.merge c = .ok (a', t)) :
    ∃ r, a'.events = a.events ++ [.merged c t r] :=
  ⟨_, events_merge_of_ends h (.inl ⟨rfl, rfl⟩)⟩

theorem events_splitBetween {freed : Option ConId} (h : a.splitBetween u v = .ok (a', freed)) :
    a'.events = a.events ∧ freed = none ∨
      ∃ f m l r, a'.events = a.events ++ [.split f m l r] ∧ freed = some f := by
  unfold splitBetween at h
  split at h
  · rename_i a₁ hleast
    cases h
    have hevents : (a.leastOnPath u v).1.events = a.events := rfl
    rw [hleast] at hevents
    exact .inl ⟨hevents, rfl⟩
  · rename_i a₁ f hleast
    have hevents : (a.leastOnPath u v).1.events = a.events := rfl
    rw [hleast] at hevents
    obtain ⟨⟨a₂, l, r⟩, hsplit, h⟩ := bind_eq_ok.mp h
    cases h
    refine .inr ⟨f, (a₁.problem.constraintAt f).multiplier, l, r, ?_, rfl⟩
    rw [← hevents]
    exact events_push (journal_split hsplit)

def Joined (a a' : Arrangement α) : Prop :=
  ∃ es : List (Event α), a'.events = a.events ++ es ∧ (∀ e ∈ es, e.isMerge = true) ∧
    es.length + a'.standing = a.standing

theorem loopInvariant_joined (a : Arrangement α) (side : Side) :
    LoopInvariant side fun a' _ => a.Joined a' where
  collect a' _ i _ h := by
    obtain ⟨es, hevents, hmerges, hlength⟩ := h
    exact ⟨es, hevents, hmerges, (standing_collectBoundary a' side i).symm ▸ hlength⟩
  merge a' _ c a'' t _ _ _ h _ _ hm := by
    obtain ⟨es, hevents, hmerges, hlength⟩ := h
    obtain ⟨r, hevent⟩ := events_merge hm
    refine ⟨es ++ [.merged c t r], ?_, ?_, ?_⟩
    · rw [hevent, hevents, List.append_assoc]
    · intro e he
      rcases List.mem_append.mp he with he | he
      · exact hmerges e he
      · rw [List.mem_singleton.mp he]
        rfl
    · have hstanding := standing_merge hm
      rw [List.length_append, List.length_singleton]
      omega

theorem Intact.standing_pos_iff (ha : a.Intact) : 0 < a.standing ↔ 0 < a.problem.vars.size := by
  rw [← length_blockIds ha, List.length_pos_iff_exists_mem]
  constructor
  · rintro ⟨b, hb⟩
    obtain ⟨B, hB⟩ := Option.isSome_iff_exists.mp ((mem_blockIds ha).mp hb)
    obtain ⟨v, hv⟩ := List.exists_mem_of_ne_nil _ (ha.nonempty b B hB)
    exact Nat.zero_lt_of_lt (ha.lt_of_mem hB hv)
  · intro hn
    exact ⟨_, (mem_blockIds ha).mpr (ha.standing 0 hn)⟩

theorem Steps.standing_pos (h : Steps a a') (ha : a.Intact) (hpos : 0 < a.standing) :
    0 < a'.standing := by
  rw [(ha.steps h).standing_pos_iff, (h.sizes_eq ha).1]
  exact ha.standing_pos_iff.mp hpos

end Arrangement

namespace Solver

variable {s t : Solver α} {c : ConId} {n m : Nat} {r : Step α} {reply : Reply α}

structure Takes (s : Solver α) (n : Nat) (x : Turn α) (r : Step α) : Prop where
  events_eq : r.solver.arrangement.events = s.arrangement.events ++ x.events
  standing_eq : r.solver.arrangement.standing + (if x.isAcross then 1 else 0) =
    s.arrangement.standing
  options_eq : r.solver.options = s.options
  finished : ∀ t reply, r = .finished t reply → x.isAcross = false
  resumed : ∀ t m, r = .resumed t m →
    if x.isAcross then m = n else m = n + 1 ∧ n < s.options.maxSplits

theorem events_pick (s : Solver α) (c : ConId) : (s.pick c).arrangement.events =
    s.arrangement.events ++ [.picked c (s.arrangement.slack c)] :=
  events_push (x := .event (.picked c (s.arrangement.slack c))) rfl

theorem takes_inside (hlimit : n < s.options.maxSplits) (h : (s.pick c).resolveInside c n = .ok r) :
    ∃ x, s.Takes n x r := by
  have hpick := s.events_pick c
  obtain ⟨⟨a, freed⟩, hsplit, h⟩ := bind_eq_ok.mp h
  have hstanding := standing_splitBetween hsplit
  rcases events_splitBetween hsplit with ⟨hevents, rfl⟩ | ⟨f, m, left, right, hevents, rfl⟩
  · have hr : r.solver = { s.pick c with arrangement := a } ∧ ∀ t m, r = .resumed t m → m = n + 1 := by
      dsimp only at h
      split at h
      · cases h
        exact ⟨rfl, fun _ _ he => by cases he; rfl⟩
      · cases h
        exact ⟨rfl, fun _ _ he => by cases he⟩
    refine ⟨.vain c (s.arrangement.slack c), ?_, ?_, ?_, fun _ _ _ => rfl, ?_⟩
    · rw [hr.1, hevents, hpick]
      rfl
    · rw [hr.1]
      exact hstanding
    · rw [hr.1]
      rfl
    · intro t m he
      exact ⟨hr.2 t m he, hlimit⟩
  · obtain ⟨u, hu, h⟩ := bind_eq_ok.mp h
    cases h
    obtain ⟨⟨a', t⟩, hm, hu⟩ := bind_eq_ok.mp hu
    cases hu
    obtain ⟨r', hevent⟩ := events_merge hm
    have hmerged := standing_merge hm
    refine ⟨.exchange c (s.arrangement.slack c) f m left right t r', ?_, ?_, rfl, nofun, fun _ _ he => ?_⟩
    · have hevent : a'.events = a.events ++ [.merged c t r'] := hevent
      exact hevent.trans (by simp [hevents, hpick, Turn.events])
    · -- The split leaves one block more, and the merge after it one less.
      have hmerged : a'.standing + 1 = a.standing := hmerged
      have hstanding : a.standing = s.arrangement.standing + 1 := hstanding
      have hsame : a'.standing = s.arrangement.standing := by omega
      exact hsame
    · cases he
      exact ⟨rfl, hlimit⟩

theorem takes_of_resolveStep (h : s.resolveStep n = .ok r) :
    r = .finished s.cleanUp (.ok ()) ∨ ∃ x, s.Takes n x r := by
  unfold resolveStep at h
  split at h
  · cases h
    exact .inl rfl
  · rename_i c hc
    right
    unfold resolvePicked at h
    split at h
    · obtain ⟨u, hu, h⟩ := bind_eq_ok.mp h
      cases h
      obtain ⟨⟨a, t⟩, hm, hu⟩ := bind_eq_ok.mp hu
      cases hu
      obtain ⟨r', hevent⟩ := events_merge hm
      have hmerged := standing_merge hm
      refine ⟨.across c (s.arrangement.slack c) t r', ?_, hmerged, rfl, fun _ _ he => ?_, fun _ _ he => ?_⟩
      · exact hevent.trans (by rw [events_pick, List.append_assoc]; rfl)
      · cases he
      · cases he
        rfl
    · split at h
      · cases h
        refine ⟨.vain c (s.arrangement.slack c), s.events_pick c, rfl, rfl, fun _ _ _ => rfl, ?_⟩
        intro _ _ he
        cases he
      · rename_i hlimit
        exact takes_inside (Nat.not_le.mp hlimit) h

structure Taken (s : Solver α) (n : Nat) (xs : List (Turn α)) (t : Solver α) : Prop where
  events_eq : t.arrangement.events = s.arrangement.events ++ xs.flatMap Turn.events
  standing_eq : xs.countP Turn.isAcross + t.arrangement.standing = s.arrangement.standing
  inside_le : xs.countP (fun x => !x.isAcross) ≤ s.options.maxSplits - n + 1

omit [Scalar α] in
theorem Takes.taken {x : Turn α} (h : s.Takes n x (.finished t reply)) : s.Taken n [x] t := by
  have hacross := h.finished t reply rfl
  have hstanding := h.standing_eq
  rw [hacross] at hstanding
  constructor
  · rw [List.flatMap_singleton]
    exact h.events_eq
  · rw [List.countP_singleton, hacross, Nat.add_comm]
    exact hstanding
  · simp [hacross]

omit [Scalar α] in
theorem Takes.cons {x : Turn α} {xs : List (Turn α)} {u : Solver α}
    (h : s.Takes n x (.resumed t m)) (h' : t.Taken m xs u) : s.Taken n (x :: xs) u := by
  have hnext := h.resumed t m rfl
  have hstanding : t.arrangement.standing + (if x.isAcross then 1 else 0) = s.arrangement.standing :=
    h.standing_eq
  have hoptions : t.options = s.options := h.options_eq
  have hrest := h'.standing_eq
  have hinside := h'.inside_le
  rw [hoptions] at hinside
  constructor
  · rw [h'.events_eq, List.flatMap_cons, ← List.append_assoc]
    congr 1
    exact h.events_eq
  · rw [List.countP_cons]
    omega
  · rw [List.countP_cons]
    cases hacross : x.isAcross with
    | true =>
      rw [hacross, if_pos rfl] at hnext
      simpa [hnext] using hinside
    | false =>
      rw [hacross, if_neg Bool.false_ne_true] at hnext
      rw [Bool.not_false, if_pos rfl]
      omega

theorem taken_of_resolve (h : s.resolve n = .ok (t, reply)) : ∃ xs, s.Taken n xs t := by
  induction s, n using resolve.induct with
  | case1 s n e he =>
    rw [resolve_eq, he] at h
    cases h
  | case2 s n u reply hu =>
    rw [resolve_eq, hu] at h
    cases h
    rcases takes_of_resolveStep hu with he | ⟨x, hx⟩
    · cases he
      exact ⟨[], (List.append_nil _).symm, Nat.zero_add _, Nat.zero_le _⟩
    · exact ⟨[x], hx.taken⟩
  | case3 s n u m hu ih =>
    rw [resolve_eq, hu] at h
    obtain ⟨xs, hxs⟩ := ih h
    rcases takes_of_resolveStep hu with he | ⟨x, hx⟩
    · cases he
    · exact ⟨x :: xs, hx.cons hxs⟩

/-- The loops of `s` end: those that merge a block with its neighbours, those that resolve violations, and
every round of an incremental run. -/
structure Ends (s : Solver α) : Prop where
  merging : ∀ side, ∀ b ∈ s.arrangement.blockIds,
    Yields (s.arrangement.mergeTowards side b) fun r => ∃ es : List (Event α),
      r.1.events = s.arrangement.events ++ es ∧ (∀ e ∈ es, e.isMerge = true) ∧
      es.length + r.1.blockIds.length = s.arrangement.blockIds.length ∧
      es.length ≤ s.arrangement.blockIds.length - 1
  resolving : Yields (s.resolve 0) fun r => ∃ xs : List (Turn α),
    r.1.arrangement.events = s.arrangement.events ++ xs.flatMap Turn.events ∧
    xs.countP Turn.isAcross + r.1.arrangement.blockIds.length = s.arrangement.blockIds.length ∧
    xs.countP Turn.isAcross ≤ s.arrangement.blockIds.length - 1 ∧
    xs.countP (fun x => !x.isAcross) ≤ s.options.maxSplits + 1
  satisfying : Yields s.satisfy fun r => s.Leads r.1
  round : ∀ last done, (∃ r, s.Leads r.1 ∧ ∀ rounds, s.solveRounds (rounds + 1) last done = .ok r) ∨
    ∃ t cost, s.Leads t ∧ ∀ rounds,
      s.solveRounds (rounds + 1) last done = t.solveRounds rounds (some cost) (done + 1)

theorem round_of_sound (hs : s.Sound) (last : Option α) (done : Nat) :
    (∃ r, s.Leads r.1 ∧ ∀ rounds, s.solveRounds (rounds + 1) last done = .ok r) ∨
      ∃ t cost, s.Leads t ∧ ∀ rounds,
        s.solveRounds (rounds + 1) last done = t.solveRounds rounds (some cost) (done + 1) := by
  obtain ⟨⟨t, reply⟩, ht, hst⟩ := (satisfyIncremental_leads (E := fun _ => False) hs).yields
  cases reply with
  | error e =>
    left
    refine ⟨(t, .error e), hst, fun rounds => ?_⟩
    rw [solveRounds, ht]
    rfl
  | ok =>
    let u := t.record (.round (done + 1) t.arrangement.cost)
    have hround : s.Leads u := hst.record ⟨rfl, rfl⟩
    by_cases hsettled : u.isSettled last t.arrangement.cost = true
    · left
      refine ⟨(u.writePositions, .ok ()), hround.writePositions, fun rounds => ?_⟩
      rw [solveRounds, ht]
      exact if_pos hsettled
    · by_cases hlimit : u.options.maxRounds.any (· ≤ done + 1) = true
      · left
        let limit : Note α := .roundLimit (done + 1) t.arrangement.cost
        refine ⟨((u.note limit).writePositions, .ok ()), (hround.note limit).writePositions,
          fun rounds => ?_⟩
        rw [solveRounds, ht]
        exact (if_neg hsettled).trans (if_pos hlimit)
      · right
        obtain ⟨w, hw, huw⟩ := splitBlocks_leads hround.sound
        refine ⟨w, t.arrangement.cost, hround.trans huw, fun rounds => ?_⟩
        rw [solveRounds, ht]
        apply ((if_neg hsettled).trans (if_neg hlimit)).trans
        rw [hw]
        rfl

theorem Sound.ends (hs : s.Sound) : s.Ends := by
  have hlive := length_blockIds hs.intact
  constructor
  · intro side b hb
    have hsome := (mem_blockIds hs.intact).mp hb
    have hinv := (loopInvariant_joined s.arrangement side).and (loopInvariant_steps s.arrangement side)
    have hstart : s.arrangement.Joined s.arrangement := ⟨[], by simp⟩
    apply (mergeTowards_yields hinv hs.intact hsome ⟨hstart, .refl⟩).mono
    rintro ⟨a, t⟩ ⟨ha, -, ⟨⟨es, hevents, hmerges, hlength⟩, hsteps⟩, -, -⟩
    have hpos := hsteps.standing_pos hs.intact
    refine ⟨es, hevents, hmerges, ?_, ?_⟩
    · rw [length_blockIds ha, hlive, hlength]
    · rw [hlive]
      omega
  · obtain ⟨⟨t, reply⟩, ht, hl⟩ := (hs.with .refl).resolve 0
    obtain ⟨xs, hxs⟩ := taken_of_resolve ht
    have hpos : 0 < s.arrangement.standing → 0 < t.arrangement.standing :=
      hl.steps.standing_pos hs.intact
    have hstanding : xs.countP Turn.isAcross + t.arrangement.standing = s.arrangement.standing :=
      hxs.standing_eq
    refine ⟨_, ht, xs, hxs.events_eq, ?_, ?_, hxs.inside_le⟩
    · rw [length_blockIds hl.sound.intact, hlive, hstanding]
    · rw [hlive]
      omega
  · exact (satisfy_leads (E := fun _ => False) hs).yields
  · exact round_of_sound hs

theorem ends_run {p : Problem α} (hp : p.Built) (mode : Mode) (options : Options α) (rounds : Nat)
    (ops : List (Operation α)) :
    YieldsUnless (Excused p ops) ((new p mode options).run rounds ops) (fun r => r.1.Ends) ∧
      ∀ s, (new p mode options).Leads s → s.Ends := by
  refine ⟨?_, fun s hs => hs.sound.ends⟩
  exact (leads_run hp mode options rounds ops).mono (fun _ he => he) fun _ hr => hr.sound.ends

theorem ends_run_fork : ∃ s replies,
    (new Problem.fork .incremental Options.standard).run 3 [.solve, .setGap 0 7, .refine] =
      .ok (s, replies) ∧ s.Ends := by
  obtain ⟨s, replies, hr⟩ := exists_run_fork
  obtain ⟨hends, -⟩ := ends_run Problem.built_fork .incremental Options.standard 3
    [.solve, .setGap 0 7, .refine]
  exact ⟨s, replies, hr, hends.of_ok hr⟩

end Solver

end Spacing
