import Spacing.Proofs.Solver.Structure

namespace Spacing

variable {α : Type}

namespace Arrangement

variable {a : Arrangement α} {b : BlockId}

/-- No handle in the list is that of a block that was merged away or split. -/
def Tidy (a : Arrangement α) : Prop :=
  ∀ b ∈ a.live, (a.block? b).isSome

theorem tidy_iff : a.Tidy ↔ a.live.length = a.blockIds.length := by
  rw [blockIds, eq_comm, List.length_filter_eq_length_iff]
  rfl

theorem tidy_cleanUp (a : Arrangement α) : a.cleanUp.Tidy :=
  fun _ hb => (List.mem_filter.mp hb).2

theorem Tidy.modifyBlock (h : a.Tidy) (f : Block α → Block α) : (a.modifyBlock b f).Tidy := by
  intro i hi
  have hsome := h i hi
  rw [block?_modifyBlock]
  split <;> simp [hsome]

variable [Scalar α]

theorem Tidy.collectBoundaries (h : a.Tidy) (bs : List BlockId) : (a.collectBoundaries bs).Tidy :=
  collectBoundaries_keeps (I := Tidy) (fun _ _ _ h => h.modifyBlock _) h bs

theorem Tidy.settleAll (h : a.Tidy) (bs : List BlockId) : (bs.foldl settle a).Tidy := by
  induction bs generalizing a with
  | nil => exact h
  | cons b bs ih => exact ih (h.modifyBlock _)

theorem Tidy.firstNegative (h : a.Tidy) (bs : List BlockId) : (a.firstNegative bs).1.Tidy := by
  induction bs generalizing a with
  | nil => exact h
  | cons b bs ih =>
    unfold Arrangement.firstNegative
    dsimp only
    split
    · exact h
    · exact ih h

theorem tidy_ofProblem (p : Problem α) : (ofProblem p).Tidy := by
  intro b hb
  have hlt : b < p.vars.size := by
    simpa [ofProblem, Problem.variableIds] using hb
  simp [block?_ofProblem, hlt]

end Arrangement

namespace Solver

open Arrangement

variable {s t : Solver α} {r : Solver α × Reply α} {c : ConId} {n rounds : Nat}

def Cycles : Reply α → Prop
  | .error (.cycle ..) => True
  | _ => False

def Exits (r : Solver α × Reply α) : Prop :=
  r.1.arrangement.Tidy ∨ Cycles r.2

theorem Exits.tidy (h : Exits (s, .ok ())) : s.arrangement.Tidy :=
  h.resolve_right id

theorem exits_andThen {f : Solver α → Except Abort (Solver α × Reply α)} {q : Solver α × Reply α}
    (h : andThen q f = .ok r) (hq : Exits q)
    (hf : ∀ t, t.arrangement.Tidy → f t = .ok r → Exits r) : Exits r := by
  obtain ⟨t, _ | _⟩ := q
  · cases h
    exact hq
  · exact hf t hq.tidy h

variable [Scalar α]

theorem exits_verify (h : s.arrangement.Tidy) : Exits s.verify := by
  unfold verify
  split
  · exact .inl h
  · exact .inl h

theorem cycles_of_resolveInside {reply : Reply α}
    (h : s.resolveInside c n = .ok (.finished t reply)) : Cycles reply := by
  obtain ⟨⟨a, freed⟩, -, h⟩ := bind_eq_ok.mp h
  cases freed with
  | some f =>
    obtain ⟨u, -, h⟩ := bind_eq_ok.mp h
    cases h
  | none =>
    dsimp only at h
    split at h
    · cases h
    · cases h
      trivial

theorem exits_resolveStep {reply : Reply α} (h : s.resolveStep n = .ok (.finished t reply)) :
    Exits (t, reply) := by
  unfold resolveStep at h
  split at h
  · cases h
    exact .inl (tidy_cleanUp _)
  · unfold resolvePicked at h
    split at h
    · obtain ⟨u, -, h⟩ := bind_eq_ok.mp h
      cases h
    · split at h
      · cases h
        exact .inr trivial
      · exact .inr (cycles_of_resolveInside h)

theorem exits_resolve (h : s.resolve n = .ok r) : Exits r := by
  induction s, n using resolve.induct with
  | case1 s n e he =>
    rw [resolve_eq, he] at h
    cases h
  | case2 s n t reply ht =>
    rw [resolve_eq, ht] at h
    cases h
    exact exits_resolveStep ht
  | case3 s n t m ht ih =>
    rw [resolve_eq, ht] at h
    exact ih h

theorem exits_satisfyBatch (h : s.satisfyBatch = .ok r) : Exits r := by
  obtain ⟨a, -, h⟩ := bind_eq_ok.mp h
  obtain ⟨q, hq, h⟩ := bind_eq_ok.mp h
  apply exits_andThen h (exits_resolve hq)
  intro t ht h
  cases h
  exact exits_verify ht

theorem exits_refine (h : s.refine rounds = .ok r) (hs : s.arrangement.Tidy) : Exits r := by
  induction rounds generalizing s with
  | zero => cases h
  | succ rounds ih =>
    obtain ⟨⟨t, reply⟩, ht, h⟩ := bind_eq_ok.mp h
    cases hc : s.scan.2 with
    | none =>
      rw [refineOnce_of_none hc] at ht
      cases ht
      cases h
      exact exits_verify ((hs.collectBoundaries _).firstNegative _)
    | some c =>
      rw [refineOnce_of_some hc] at ht
      obtain ⟨a, -, ht⟩ := bind_eq_ok.mp ht
      obtain ⟨q, hq, ht⟩ := bind_eq_ok.mp ht
      cases ht
      exact exits_andThen h (exits_resolve hq) fun u hu h => ih h hu

theorem tidy_splitBlocks (h : s.splitBlocks = .ok t) : t.arrangement.Tidy := by
  obtain ⟨u, -, h⟩ := bind_eq_ok.mp h
  cases h
  exact tidy_cleanUp u.arrangement

theorem exits_satisfyIncremental (h : s.satisfyIncremental = .ok r) : Exits r := by
  obtain ⟨t, -, h⟩ := bind_eq_ok.mp h
  obtain ⟨q, hq, h⟩ := bind_eq_ok.mp h
  apply exits_andThen h (exits_resolve hq)
  intro u hu h
  cases h
  exact exits_verify hu

theorem exits_solveRounds {last : Option α} {done : Nat} (h : s.solveRounds rounds last done = .ok r) :
    Exits r := by
  induction rounds generalizing s last done with
  | zero => cases h
  | succ rounds ih =>
    obtain ⟨q, hq, h⟩ := bind_eq_ok.mp h
    apply exits_andThen h (exits_satisfyIncremental hq)
    intro t ht h
    dsimp only at h
    split at h
    · cases h
      exact .inl ht
    · split at h
      · cases h
        exact .inl ht
      · obtain ⟨u, -, h⟩ := bind_eq_ok.mp h
        exact ih h

theorem exits_satisfy (h : s.satisfy = .ok r) : Exits r := by
  unfold satisfy at h
  split at h
  · exact exits_satisfyBatch h
  · exact exits_satisfyIncremental h

theorem exits_solve (h : s.solve rounds = .ok r) : Exits r := by
  unfold solve at h
  split at h
  · obtain ⟨q, hq, h⟩ := bind_eq_ok.mp h
    exact exits_andThen h (exits_satisfy hq) fun t ht h => exits_refine h ht
  · exact exits_solveRounds h

theorem tidy_setGap {gap : α} (h : s.setGap c gap = .ok t) (hs : s.arrangement.Tidy) :
    t.arrangement.Tidy := by
  obtain ⟨q, -, h⟩ := bind_eq_ok.mp h
  dsimp only at h
  split at h
  · obtain ⟨⟨a, l, r⟩, -, h⟩ := bind_eq_ok.mp h
    cases h
    exact tidy_cleanUp a
  · cases h
    exact hs

end Solver

def Operation.cleans : Operation α → Bool
  | .solve | .satisfy | .split => true
  | _ => false

def Untidied (log : List (Operation α × Reply α)) : Prop :=
  ∃ done op reply rest, log = done ++ (op, reply) :: rest ∧ Solver.Cycles reply ∧
    ∀ x ∈ rest, x.1.cleans = false

theorem Untidied.cons {log : List (Operation α × Reply α)} (h : Untidied log)
    (x : Operation α × Reply α) : Untidied (x :: log) := by
  obtain ⟨done, op, reply, rest, rfl, h⟩ := h
  exact ⟨x :: done, op, reply, rest, rfl, h⟩

namespace Solver

open Arrangement

variable [Scalar α] {s t : Solver α} {r : Solver α × Reply α} {rounds : Nat} {op : Operation α}
  {ops : List (Operation α)} {replies : List (Reply α)}

theorem exits_perform (h : s.perform rounds op = .ok r)
    (hs : s.arrangement.Tidy ∨ op.cleans = true) : Exits r := by
  cases op with
  | solve => exact exits_solve h
  | satisfy => exact exits_satisfy h
  | split =>
    obtain ⟨t, ht, h⟩ := bind_eq_ok.mp h
    cases h
    exact .inl (tidy_splitBlocks ht)
  | refine => exact exits_refine h (hs.resolve_right nofun)
  | settle =>
    cases h
    exact .inl ((hs.resolve_right nofun).settleAll _)
  | setDesired v desired =>
    obtain ⟨t, ht, h⟩ := bind_eq_ok.mp h
    obtain ⟨q, -, ht⟩ := bind_eq_ok.mp ht
    cases h
    cases ht
    exact .inl (hs.resolve_right nofun)
  | setGap c gap =>
    obtain ⟨t, ht, h⟩ := bind_eq_ok.mp h
    cases h
    exact .inl (tidy_setGap ht (hs.resolve_right nofun))

theorem tidy_run (h : s.run rounds ops = .ok (t, replies)) :
    t.arrangement.Tidy ∨ Untidied (ops.zip replies) ∨
      (¬ s.arrangement.Tidy ∧ ∀ op ∈ ops, op.cleans = false) := by
  induction ops generalizing s replies with
  | nil =>
    cases h
    exact (Classical.em _).imp_right fun hs => .inr ⟨hs, nofun⟩
  | cons op ops ih =>
    obtain ⟨⟨u, reply⟩, hperform, h⟩ := bind_eq_ok.mp h
    obtain ⟨⟨t, replies⟩, hrun, h⟩ := bind_eq_ok.mp h
    cases h
    rcases ih hrun with ht | hlog | ⟨hu, hops⟩
    · exact .inl ht
    · exact .inr (.inl (hlog.cons (op, reply)))
    · by_cases hs : s.arrangement.Tidy ∨ op.cleans = true
      · -- The operation has left handles in the list, so it ended at a cycle.
        have hreply := (exits_perform hperform hs).resolve_left hu
        refine .inr (.inl ⟨[], op, reply, ops.zip replies, rfl, hreply, ?_⟩)
        exact fun x hx => hops x.1 (List.of_mem_zip hx).1
      · rw [not_or, Bool.not_eq_true] at hs
        exact .inr (.inr ⟨hs.1, List.forall_mem_cons.mpr ⟨hs.2, hops⟩⟩)

/-- After any operations on any scalars, the list of blocks is as long as there are blocks in use, unless
a run has reported a cycle and nothing has cleaned up after it. -/
theorem live_run {p : Problem α} (hp : p.Built) (mode : Mode) (options : Options α) (rounds : Nat)
    (ops : List (Operation α)) :
    YieldsUnless (Excused p ops) ((new p mode options).run rounds ops) fun r =>
      r.1.arrangement.live.length = r.1.arrangement.blockIds.length ∨ Untidied (ops.zip r.2) := by
  apply (leads_run hp mode options rounds ops).mono_ok
  rintro ⟨s, replies⟩ hrun -
  rcases tidy_run hrun with h | h | ⟨h, -⟩
  · exact .inl (tidy_iff.mp h)
  · exact .inr h
  · exact absurd (tidy_ofProblem p) h

theorem live_run_fork : ∃ s,
    (new Problem.fork .incremental Options.standard).run 3 [.solve, .setGap 0 7, .solve] =
      .ok (s, [.ok (), .ok (), .ok ()]) ∧
    s.arrangement.live.length = s.arrangement.blockIds.length := by
  have hok : Yields ((new Problem.fork .incremental Options.standard).run 3
      [.solve, .setGap 0 7, .solve]) fun r => r.2 = [.ok (), .ok (), .ok ()] := by decide +kernel
  obtain ⟨⟨s, replies⟩, hrun, hreplies⟩ := hok
  cases hreplies
  refine ⟨s, hrun, ((live_run Problem.built_fork .incremental Options.standard 3
    [.solve, .setGap 0 7, .solve]).of_ok hrun).resolve_right ?_⟩
  rintro ⟨done, op, reply, rest, hlog, hreply, -⟩
  have hmem : (op, reply) ∈ done ++ (op, reply) :: rest := by simp
  rw [← hlog] at hmem
  have hok : reply = .ok () := by simpa using (List.of_mem_zip hmem).2
  rw [hok] at hreply
  exact hreply

end Solver

def Problem.clash : Problem Rat :=
  (((Problem.empty.insertVariable 0 0 1).insertVariable 1 0 1).insertConstraint 0 1 0 true).insertConstraint
    0 1 1 false

theorem Problem.built_clash : Problem.clash.Built :=
  Built.empty.edits [.addVariable 0 0 1, .addVariable 1 0 1, .addConstraint 0 1 0 true,
    .addConstraint 0 1 1 false] rfl

/-- The merge across the equality retires a block. The other constraint then has both ends in one block,
with nothing to release, and the run returns from there. -/
theorem Solver.live_clash : Problem.clash.Built ∧ ∃ s splits,
    (Solver.new Problem.clash .incremental Options.standard).run 3 [.solve] =
      .ok (s, [.error (.cycle 1 0 1 splits)]) ∧
    s.arrangement.live.length = 2 ∧ s.arrangement.blockIds.length = 1 := by
  refine ⟨Problem.built_clash, ?_⟩
  have hfails : Yields ((Solver.new Problem.clash .incremental Options.standard).run 3 [.solve]) fun r =>
      r.2 = [.error (.cycle 1 0 1 1)] ∧ r.1.arrangement.live.length = 2 ∧
        r.1.arrangement.blockIds.length = 1 := by decide +kernel
  obtain ⟨⟨s, replies⟩, hrun, hreplies, hlive, hblocks⟩ := hfails
  cases hreplies
  exact ⟨s, 1, hrun, hlive, hblocks⟩

end Spacing
