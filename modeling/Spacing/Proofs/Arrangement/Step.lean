import Spacing.Arrangement.Tree
import Spacing.Proofs.Arrangement.Merge
import Spacing.Proofs.Arrangement.Split

namespace Spacing.Arrangement

open Relation

variable {α : Type} [Scalar α] {a a' : Arrangement α} {b i : BlockId} {B : Block α} {c d : ConId}
  {v : VarId} {side : Side}

omit [Scalar α] in
theorem block?_modifyBlock (f : Block α → Block α) :
    (a.modifyBlock b f).block? i = if i = b then (a.block? i).map f else a.block? i := by
  simp only [modifyBlock, block?, Array.getD_eq_getD_getElem?, Array.getElem?_modify]
  by_cases hi : i = b
  · subst hi
    simp only [if_true]
    cases a.blocks[i]? <;> rfl
  · simp [hi, Ne.symm hi]

theorem Intact.of_problem (h : a.Intact) {q : Problem α} (hq : q.Consistent)
    (hn : q.vars.size = a.problem.vars.size) (hm : q.constraints.size = a.problem.constraints.size)
    (he : q.edges = a.problem.edges) (ha : q.active = a.problem.active)
    (hv : ∀ v, q.blockOf v = a.blockOf v) : Intact { a with problem := q } :=
  h.congr hq hn hm he ha hv (fun _ B' hB' => ⟨B', hB', rfl, fun _ _ hcs => .inl hcs⟩)
    (fun _ hb => hb) rfl (fun _ hb => hb) (fun _ _ hb => hb) h.live_nodup

theorem Intact.modifyBlock (h : a.Intact) {f : Block α → Block α}
    (hm : ∀ B, (f B).members = B.members)
    (hf : ∀ B, a.block? b = some B → ∀ side cs, (f B).boundary side = some cs →
      B.boundary side = some cs ∨ a.Covers side b cs) : (a.modifyBlock b f).Intact := by
  refine h.congr h.consistent rfl rfl rfl rfl (fun _ => rfl) ?_ ?_ (by simp [Arrangement.modifyBlock])
    (fun _ hb => hb) (fun _ _ hb => hb) h.live_nodup
  · intro i B' hB'
    rw [block?_modifyBlock] at hB'
    split at hB'
    · rename_i hi
      subst hi
      obtain ⟨B, hB, rfl⟩ := Option.map_eq_some_iff.mp hB'
      exact ⟨B, hB, hm B, hf B hB⟩
    · exact ⟨B', hB', rfl, fun _ _ hcs => .inl hcs⟩
  · intro i hi
    rw [block?_modifyBlock]
    split
    · simpa using hi
    · exact hi

theorem Intact.settle (h : a.Intact) : (a.settle b).Intact :=
  h.modifyBlock (fun _ => rfl) fun _ _ side cs hcs => .inl (by cases side <;> exact hcs)

theorem Intact.covers_collected (h : a.Intact) (hB : a.block? b = some B) (side : Side) :
    a.Covers side b ((a.blockAt b).members.flatMap fun v =>
      a.crossing side b ((a.problem.variableAt v).towards side)) := by
  rw [blockAt_eq hB]
  constructor
  · intro c hc
    obtain ⟨v, hv, hc⟩ := List.mem_flatMap.mp hc
    obtain ⟨hlt, hnear⟩ := (h.consistent.mem_towards side).mp (List.mem_filter.mp hc).1
    exact ⟨hlt, hnear ▸ h.blockOf_eq hB hv⟩
  · intro c hc
    refine List.mem_flatMap.mpr ⟨a.problem.edges.endOn side.other c, ?_, List.mem_filter.mpr ⟨?_, ?_⟩⟩
    · exact h.mem_of_blockOf hB (h.consistent.endOn_lt hc.lt_size _) hc.near
    · exact (h.consistent.mem_towards side).mpr ⟨hc.lt_size, rfl⟩
    · rw [Problem.endOn_edges]
      exact decide_eq_true hc.far

theorem Intact.collectBoundary (h : a.Intact) : (a.collectBoundary side b).Intact := by
  refine h.modifyBlock (fun B => by cases side <;> rfl) fun B hB side' cs hcs => ?_
  by_cases hs : side' = side
  · subst hs
    refine .inr ?_
    have : (a.blockAt b).members.flatMap (fun v =>
        a.crossing side' b ((a.problem.variableAt v).towards side')) = cs := by
      cases side' <;> exact Option.some.inj hcs
    exact this ▸ h.covers_collected hB side'
  · refine .inl ?_
    cases side <;> cases side' <;> first | exact absurd rfl hs | exact hcs

theorem Intact.ensureBoundary (h : a.Intact) : (a.ensureBoundary side b).Intact := by
  unfold Arrangement.ensureBoundary
  split
  · exact h
  · exact h.collectBoundary

section Multipliers

variable {p : Problem α} {ms : List (ConId × α)}

omit [Scalar α] in
theorem vars_foldl_multipliers : (ms.foldl (fun p m =>
    p.modifyConstraint m.1 fun k => { k with multiplier := m.2 }) p).vars = p.vars := by
  induction ms generalizing p with
  | nil => rfl
  | cons m ms ih => exact ih.trans rfl

theorem given_foldl_multipliers : (ms.foldl (fun p m =>
    p.modifyConstraint m.1 fun k => { k with multiplier := m.2 }) p).given = p.given := by
  induction ms generalizing p with
  | nil => rfl
  | cons m ms ih => exact ih.trans (Problem.given_modifyConstraint fun _ => rfl)

theorem active_foldl_multipliers : (ms.foldl (fun p m =>
    p.modifyConstraint m.1 fun k => { k with multiplier := m.2 }) p).active = p.active := by
  induction ms generalizing p with
  | nil => rfl
  | cons m ms ih => exact ih.trans (Problem.active_modifyConstraint fun _ => rfl)

end Multipliers

theorem given_writeMultipliers (ms : List (ConId × α)) :
    (a.writeMultipliers ms).problem.given = a.problem.given :=
  given_foldl_multipliers

theorem active_writeMultipliers (ms : List (ConId × α)) :
    (a.writeMultipliers ms).problem.active = a.problem.active :=
  active_foldl_multipliers

theorem variableAt_writeMultipliers (ms : List (ConId × α)) (v : VarId) :
    (a.writeMultipliers ms).problem.variableAt v = a.problem.variableAt v := by
  rw [Problem.variableAt, writeMultipliers, vars_foldl_multipliers, Problem.variableAt]

theorem Intact.writeMultipliers (h : a.Intact) (ms : List (ConId × α)) :
    (a.writeMultipliers ms).Intact := by
  have hg := given_writeMultipliers (a := a) ms
  exact h.of_problem (h.consistent.of_given hg) (Problem.size_vars_eq hg)
    (Problem.size_constraints_eq hg) (Problem.edges_eq hg) (active_writeMultipliers ms)
    fun v => congrArg Variable.block (variableAt_writeMultipliers ms v)

theorem variableAt_writePositions (hv : v < a.problem.vars.size) :
    a.writePositions.problem.variableAt v =
      { a.problem.variableAt v with position := a.position v } := by
  simp [writePositions, Problem.variableAt, hv]

theorem given_writePositions : a.writePositions.problem.given = a.problem.given := by
  simp only [writePositions, Problem.given, Problem.mk.injEq, and_true]
  apply Array.ext
  · simp
  · intro i h1 h2
    simp [Variable.given]

theorem block_writePositions (v : VarId) : a.writePositions.blockOf v = a.blockOf v := by
  by_cases hv : v < a.problem.vars.size
  · rw [blockOf, Problem.blockOf, variableAt_writePositions hv]
    rfl
  · have hv' : a.writePositions.problem.vars.size ≤ v := by
      simpa [writePositions] using hv
    rw [blockOf, Problem.blockOf, Problem.variableAt_of_le hv', blockOf, Problem.blockOf,
      Problem.variableAt_of_le (Nat.not_lt.mp hv)]

theorem Intact.writePositions (h : a.Intact) : a.writePositions.Intact := by
  have hg := given_writePositions (a := a)
  exact h.of_problem (h.consistent.of_given hg) (Problem.size_vars_eq hg) rfl
    (Problem.edges_eq hg) rfl block_writePositions

theorem Intact.cleanUp (h : a.Intact) : a.cleanUp.Intact := by
  refine h.congr h.consistent rfl rfl rfl rfl (fun _ => rfl)
    (fun _ B' hB' => ⟨B', hB', rfl, fun _ _ hcs => .inl hcs⟩) (fun _ hb => hb) rfl ?_ ?_
    (h.live_nodup.filter _)
  · exact fun b hb => (List.mem_filter.mp hb).1
  · exact fun b hb hl => List.mem_filter.mpr ⟨hl, hb⟩

theorem Intact.log (h : a.Intact) (e : Entry α) :
    Intact { a with journal := a.journal.push e } :=
  h.congr h.consistent rfl rfl rfl rfl (fun _ => rfl)
    (fun _ B' hB' => ⟨B', hB', rfl, fun _ _ hcs => .inl hcs⟩) (fun _ hb => hb) rfl
    (fun _ hb => hb) (fun _ _ hb => hb) h.live_nodup

theorem Intact.setDesired (h : a.Intact) (hv : v < a.problem.vars.size) (desired : α) :
    Intact { a with problem := a.problem.setDesired v desired } := by
  refine h.of_problem (h.consistent.setDesired hv desired) (Problem.size_modifyVariable _) rfl rfl
    rfl fun w => ?_
  rw [Problem.blockOf, Problem.variableAt_setDesired hv]
  split <;> rfl

theorem edges_setGap {p : Problem α} (hc : c < p.constraints.size) (gap : α) :
    (p.setGap c gap).edges = p.edges := by
  ext d <;>
  · simp only [Problem.edges, Problem.constraintAt_setGap hc]
    split <;> rfl

theorem active_setGap {p : Problem α} (gap : α) : (p.setGap c gap).active = p.active :=
  Problem.active_modifyConstraint fun _ => rfl

theorem Intact.setGap (h : a.Intact) (hc : c < a.problem.constraints.size) (gap : α) :
    Intact { a with problem := a.problem.setGap c gap } :=
  h.of_problem (h.consistent.setGap hc gap) rfl (Problem.size_modifyConstraint _)
    (edges_setGap hc gap) (active_setGap gap) fun _ => rfl

inductive Step (a : Arrangement α) : Arrangement α → Prop
  | merge {a' : Arrangement α} {c : ConId} {t : BlockId} (h : a.merge c = .ok (a', t)) : Step a a'
  | split {a' : Arrangement α} {c : ConId} {l r : BlockId} (hc : c ∈ a.problem.active)
    (h : a.split c = .ok (a', l, r)) : Step a a'
  | settle (b : BlockId) : Step a (a.settle b)
  | collectBoundary (side : Side) (b : BlockId) : Step a (a.collectBoundary side b)
  | writeMultipliers (b : BlockId) : Step a (a.writeMultipliers (a.multipliersOf b))
  | writePositions : Step a a.writePositions
  | cleanUp : Step a a.cleanUp
  | log (e : Entry α) (he : ∀ ev, e.event? = some ev → ev.isMerge = false ∧ ev.isSplit = false) :
    Step a { a with journal := a.journal.push e }
  | setDesired {v : VarId} (hv : v < a.problem.vars.size) (desired : α) :
    Step a { a with problem := a.problem.setDesired v desired }
  | setGap {c : ConId} (hlt : c < a.problem.constraints.size) (hc : c ∉ a.problem.active) (gap : α) :
    Step a { a with problem := a.problem.setGap c gap }
  /-- A new gap for a constraint that is active, which is split off for it. -/
  | release {a' : Arrangement α} {c : ConId} {l r : BlockId} (hc : c ∈ a.problem.active) (gap : α)
    (h : split { a with problem := a.problem.setGap c gap } c = .ok (a', l, r)) : Step a a'

abbrev Steps : Arrangement α → Arrangement α → Prop :=
  ReflTransGen Step

theorem Intact.merge (h : a.Intact) {t : BlockId} (hm : a.merge c = .ok (a', t)) : a'.Intact := by
  obtain ⟨r, s, b, shift, hmerged⟩ := merged_of_merge hm
  exact hmerged.intact h

theorem halved_of_split (ha : a.Intact) (hc : c ∈ a.problem.active) {l r : BlockId}
    (h : a.split c = .ok (a', l, r)) : ∃ B L R, Halved a a' c l r B L R := by
  obtain ⟨_, _, _, B, L, R, hs, hh⟩ := exists_split ha hc
  rw [hs] at h
  cases h
  exact ⟨B, L, R, hh⟩

theorem Intact.split (ha : a.Intact) (hc : c ∈ a.problem.active) {l r : BlockId}
    (h : a.split c = .ok (a', l, r)) : a'.Intact := by
  obtain ⟨B, L, R, hh⟩ := halved_of_split ha hc h
  exact hh.intact ha hc

theorem Intact.step (ha : a.Intact) (h : Step a a') : a'.Intact := by
  cases h with
  | merge h => exact ha.merge h
  | split hc h => exact ha.split hc h
  | settle b => exact ha.settle
  | collectBoundary side b => exact ha.collectBoundary
  | writeMultipliers b => exact ha.writeMultipliers _
  | writePositions => exact ha.writePositions
  | cleanUp => exact ha.cleanUp
  | log e he => exact ha.log e
  | setDesired hv desired => exact ha.setDesired hv desired
  | setGap hlt hc gap => exact ha.setGap hlt gap
  | release hc gap h =>
    refine (ha.setGap (Problem.lt_size_of_mem_active hc) gap).split ?_ h
    exact (active_setGap gap).symm ▸ hc

theorem Step.given_cases (ha : a.Intact) (h : Step a a') : ∃ q : Problem α,
    a'.problem.given = q.given ∧ (q = a.problem ∨
      (∃ v < a.problem.vars.size, ∃ desired, q = a.problem.setDesired v desired) ∨
      (∃ c < a.problem.constraints.size, ∃ gap, q = a.problem.setGap c gap)) := by
  cases h with
  | merge h =>
    obtain ⟨_, _, _, _, hm⟩ := merged_of_merge h
    exact ⟨_, hm.given_eq, .inl rfl⟩
  | split hc h =>
    obtain ⟨_, _, _, hh⟩ := halved_of_split ha hc h
    exact ⟨_, hh.given_eq, .inl rfl⟩
  | settle b => exact ⟨_, rfl, .inl rfl⟩
  | collectBoundary side b => exact ⟨_, rfl, .inl rfl⟩
  | writeMultipliers b => exact ⟨_, given_writeMultipliers _, .inl rfl⟩
  | writePositions => exact ⟨_, given_writePositions, .inl rfl⟩
  | cleanUp => exact ⟨_, rfl, .inl rfl⟩
  | log e he => exact ⟨_, rfl, .inl rfl⟩
  | @setDesired v hv desired => exact ⟨_, rfl, .inr (.inl ⟨v, hv, desired, rfl⟩)⟩
  | @setGap c hlt hc gap => exact ⟨_, rfl, .inr (.inr ⟨c, hlt, gap, rfl⟩)⟩
  | @release _ c _ _ hc gap h =>
    have hlt := Problem.lt_size_of_mem_active hc
    have hc' : c ∈ (a.problem.setGap c gap).active := (active_setGap gap).symm ▸ hc
    obtain ⟨_, _, _, hh⟩ := halved_of_split (ha.setGap hlt gap) hc' h
    exact ⟨a.problem.setGap c gap, hh.given_eq, .inr (.inr ⟨c, hlt, gap, rfl⟩)⟩

theorem Step.sizes_eq (ha : a.Intact) (h : Step a a') :
    a'.problem.vars.size = a.problem.vars.size ∧
      a'.problem.constraints.size = a.problem.constraints.size := by
  obtain ⟨q, hq, rfl | ⟨v, -, desired, rfl⟩ | ⟨c, -, gap, rfl⟩⟩ := h.given_cases ha
  · exact ⟨Problem.size_vars_eq hq, Problem.size_constraints_eq hq⟩
  · have hv : (a.problem.setDesired v desired).vars.size = a.problem.vars.size :=
      Problem.size_modifyVariable _
    exact ⟨hv ▸ Problem.size_vars_eq hq, (Problem.size_constraints_eq hq).trans rfl⟩
  · have hc : (a.problem.setGap c gap).constraints.size = a.problem.constraints.size :=
      Problem.size_modifyConstraint _
    exact ⟨(Problem.size_vars_eq hq).trans rfl, hc ▸ Problem.size_constraints_eq hq⟩

theorem Step.weighted (ha : a.Intact) (hw : a.problem.Weighted) (h : Step a a') :
    a'.problem.Weighted := by
  obtain ⟨q, hq, rfl | ⟨v, hv, desired, rfl⟩ | ⟨c, -, gap, rfl⟩⟩ := h.given_cases ha
  · exact hw.of_given hq
  · exact (hw.setDesired hv desired).of_given hq
  · exact Problem.Weighted.of_given (p := a.problem.setGap c gap) hq hw

theorem Intact.steps (ha : a.Intact) (h : Steps a a') : a'.Intact := by
  induction h with
  | refl => exact ha
  | tail _ h ih => exact ih.step h

theorem Steps.sizes_eq (ha : a.Intact) (h : Steps a a') :
    a'.problem.vars.size = a.problem.vars.size ∧
      a'.problem.constraints.size = a.problem.constraints.size := by
  induction h with
  | refl => exact ⟨rfl, rfl⟩
  | tail h' h ih =>
    obtain ⟨hv, hc⟩ := h.sizes_eq (ha.steps h')
    exact ⟨hv.trans ih.1, hc.trans ih.2⟩

theorem Steps.weighted (ha : a.Intact) (hw : a.problem.Weighted) (h : Steps a a') :
    a'.problem.Weighted := by
  induction h with
  | refl => exact hw
  | tail h' h ih => exact h.weighted (ha.steps h') ih

end Spacing.Arrangement
