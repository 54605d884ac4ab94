import Spacing.Proofs.Arrangement.Path
import Spacing.Proofs.Result

namespace Spacing.Arrangement

open Relation

variable {α : Type} [Scalar α] {a a' : Arrangement α} {b i : BlockId} {B : Block α} {c d : ConId}
  {side : Side}

def Known (a : Arrangement α) (side : Side) (b : BlockId) : Prop :=
  ((a.blockAt b).boundary side).isSome

theorem mem_crossing {cs : List ConId} : c ∈ a.crossing side b cs ↔
    c ∈ cs ∧ a.blockOf (a.problem.edges.endOn side c) ≠ b := by
  simp [crossing, Problem.endOn_edges]

theorem Intact.mem_crossing_known (ha : a.Intact) (hb : (a.block? b).isSome)
    (hk : a.Known side b) :
    c ∈ a.crossing side b (((a.blockAt b).boundary side).getD []) ↔ a.Crosses side b c := by
  obtain ⟨B, hB⟩ := Option.isSome_iff_exists.mp hb
  obtain ⟨cs, hcs⟩ := Option.isSome_iff_exists.mp hk
  have hcov := ha.covers b B hB side cs (blockAt_eq hB ▸ hcs)
  rw [mem_crossing, hcs, Option.getD_some]
  constructor
  · rintro ⟨hc, hfar⟩
    obtain ⟨hlt, hnear⟩ := hcov.near c hc
    exact ⟨hlt, hnear, hfar⟩
  · intro hc
    exact ⟨hcov.all c hc, hc.far⟩

theorem mem_of_mostUrgent {cs : List ConId} (h : a.mostUrgent cs = some c) : c ∈ cs := by
  unfold mostUrgent at h
  split at h
  · cases h
    exact List.mem_of_find?_eq_some ‹_›
  · exact mem_of_firstLeast h

theorem Intact.nextMerge_crosses (ha : a.Intact) (hb : (a.block? b).isSome) (hk : a.Known side b)
    (h : a.nextMerge side b = some c) : a.Crosses side b c ∧ a.needsMerge c := by
  obtain ⟨hc, hneeds⟩ := Option.filter_eq_some_iff.mp h
  exact ⟨(ha.mem_crossing_known hb hk).mp (mem_of_mostUrgent hc), hneeds⟩

theorem Intact.nextMerge_of_equality (ha : a.Intact) (hb : (a.block? b).isSome) (hk : a.Known side b)
    (hd : a.Crosses side b d) (hQ : d ∈ a.problem.equalities) :
    ∃ c ∈ a.problem.equalities, a.nextMerge side b = some c := by
  let bond (c : ConId) : Bool := (a.problem.constraintAt c).equality
  let cs := a.crossing side b (((a.blockAt b).boundary side).getD [])
  have hfound : (cs.find? bond).isSome :=
    List.find?_isSome.mpr ⟨d, (ha.mem_crossing_known hb hk).mpr hd, hQ⟩
  obtain ⟨c, hc⟩ := Option.isSome_iff_exists.mp hfound
  have hbond : bond c = true := List.find?_some hc
  have hurgent : a.mostUrgent cs = some c := by rw [mostUrgent, hc]
  have hneeds : a.needsMerge c = true := by rw [needsMerge, Bool.or_eq_true_iff]; exact .inl hbond
  refine ⟨c, hbond, ?_⟩
  change (a.mostUrgent cs).filter (fun c => a.needsMerge c) = some c
  rw [hurgent, Option.filter_some, if_pos hneeds]

theorem Crosses.ends_ne (h : a.Crosses side b c) : a.leftBlock c ≠ a.rightBlock c := by
  have hnear := h.near
  have hfar := h.far
  cases side
  · exact fun he => hfar (he.trans hnear)
  · exact fun he => hfar (he.symm.trans hnear)

theorem Crosses.blocks (h : a.Crosses side b c) :
    (side = .left ∧ a.rightBlock c = b ∧
      a.leftBlock c = a.blockOf (a.problem.edges.endOn side c)) ∨
    (side = .right ∧ a.leftBlock c = b ∧
      a.rightBlock c = a.blockOf (a.problem.edges.endOn side c)) := by
  cases side
  · exact .inl ⟨rfl, h.near, rfl⟩
  · exact .inr ⟨rfl, h.near, rfl⟩

theorem Intact.exists_merge (ha : a.Intact) (hlt : c < a.problem.constraints.size)
    (hne : a.leftBlock c ≠ a.rightBlock c) : ∃ a' t, a.merge c = .ok (a', t) :=
  Arrangement.exists_merge hne (ha.standing _ (ha.consistent.left_lt c hlt))
    (ha.standing _ (ha.consistent.right_lt c hlt))

theorem block?_collectBoundary (h : (a.block? i).isSome) :
    ((a.collectBoundary side b).block? i).isSome := by
  rw [collectBoundary, block?_modifyBlock]
  split
  · simpa using h
  · exact h

theorem known_collectBoundary (hb : (a.block? b).isSome) : (a.collectBoundary side b).Known side b := by
  obtain ⟨B, hB⟩ := Option.isSome_iff_exists.mp hb
  have hB' : ∃ cs, (a.collectBoundary side b).block? b = some (B.setBoundary side cs) := by
    rw [collectBoundary, block?_modifyBlock, if_pos rfl, hB]
    exact ⟨_, rfl⟩
  obtain ⟨cs, hB'⟩ := hB'
  rw [Known, blockAt_eq hB']
  cases side <;> rfl

theorem known_collectBoundary_of_known (hk : a.Known side b) (i : BlockId) :
    (a.collectBoundary side i).Known side b := by
  obtain ⟨cs, hcs⟩ := Option.isSome_iff_exists.mp hk
  cases hB : a.block? b with
  | none =>
    have : a.blockAt b = default := by simp [blockAt, hB]
    rw [this] at hcs
    cases side <;> cases hcs
  | some B =>
    by_cases hbi : b = i
    · subst hbi
      exact known_collectBoundary (by rw [hB]; rfl)
    · have : (a.collectBoundary side i).block? b = some B := by
        rw [collectBoundary, block?_modifyBlock, if_neg hbi, hB]
      rwa [Known, blockAt_eq this, ← blockAt_eq hB]

theorem ensureBoundary_cases (a : Arrangement α) (side : Side) (b : BlockId) :
    a.ensureBoundary side b = a ∧ a.Known side b ∨
      a.ensureBoundary side b = a.collectBoundary side b := by
  unfold ensureBoundary
  split
  · exact .inl ⟨rfl, ‹_›⟩
  · exact .inr rfl

theorem known_ensureBoundary (hb : (a.block? b).isSome) : (a.ensureBoundary side b).Known side b := by
  rcases a.ensureBoundary_cases side b with ⟨he, hk⟩ | he
  · rwa [he]
  · rw [he]
    exact known_collectBoundary hb

theorem isSome_ensureBoundary (h : (a.block? i).isSome) :
    ((a.ensureBoundary side b).block? i).isSome := by
  rcases a.ensureBoundary_cases side b with ⟨he, -⟩ | he
  · rwa [he]
  · rw [he]
    exact block?_collectBoundary h

theorem problem_ensureBoundary (a : Arrangement α) (side : Side) (b : BlockId) :
    (a.ensureBoundary side b).problem = a.problem := by
  rcases a.ensureBoundary_cases side b with ⟨he, -⟩ | he <;> rw [he]
  rfl

theorem position_collectBoundary (v : VarId) :
    (a.collectBoundary side b).position v = a.position v := by
  have hblock (i : BlockId) : ((a.collectBoundary side b).blockAt i).position =
      (a.blockAt i).position := by
    simp only [blockAt, collectBoundary, block?_modifyBlock]
    split
    · cases a.block? i
      · rfl
      · cases side <;> rfl
    · rfl
  exact congrArg (· + (a.problem.variableAt v).offset) (hblock (a.blockOf v))

theorem position_ensureBoundary (v : VarId) : (a.ensureBoundary side b).position v = a.position v := by
  rcases a.ensureBoundary_cases side b with ⟨he, -⟩ | he
  · rw [he]
  · rw [he, position_collectBoundary]

theorem slack_ensureBoundary (c : ConId) : (a.ensureBoundary side b).slack c = a.slack c := by
  simp only [slack, problem_ensureBoundary, position_ensureBoundary]

theorem nextMerge_ensureBoundary (hbi : b ≠ i) :
    (a.ensureBoundary side i).nextMerge side b = a.nextMerge side b := by
  rcases a.ensureBoundary_cases side i with ⟨he, -⟩ | he
  · rw [he]
  · have hblock : (a.collectBoundary side i).blockAt b = a.blockAt b := by
      rw [collectBoundary, blockAt, block?_modifyBlock, if_neg hbi, blockAt]
    have hslack : (a.collectBoundary side i).slack = a.slack :=
      funext fun c => he ▸ slack_ensureBoundary c
    rw [he]
    unfold nextMerge mostUrgent needsMerge
    rw [hblock, hslack]
    rfl

theorem mergeLoop_of_none (h : (a.ensureBoundary side b).nextMerge side b = none) :
    a.mergeLoop side b = .ok (a.ensureBoundary side b, b) := by
  rw [mergeLoop]
  split
  · rfl
  · rename_i c hc
    rw [h] at hc
    cases hc

theorem mergeLoop_of_merge {t : BlockId} (h : (a.ensureBoundary side b).nextMerge side b = some c)
    (hm : ((a.ensureBoundary side b).ensureBoundary side ((a.ensureBoundary side b).blockOf
      (((a.ensureBoundary side b).problem.constraintAt c).endOn side))).merge c = .ok (a', t)) :
    a.mergeLoop side b = a'.mergeLoop side t := by
  rw [mergeLoop]
  split
  · rename_i hn
    rw [h] at hn
    cases hn
  · rename_i d hd
    rw [h] at hd
    cases hd
    dsimp only
    split
    · rename_i e he
      rw [hm] at he
      cases he
    · rename_i a₂ t' he
      rw [hm] at he
      cases he
      rfl

theorem mergeLoop_of_error {e : Abort} (h : (a.ensureBoundary side b).nextMerge side b = some c)
    (hm : ((a.ensureBoundary side b).ensureBoundary side ((a.ensureBoundary side b).blockOf
      (((a.ensureBoundary side b).problem.constraintAt c).endOn side))).merge c = .error e) :
    a.mergeLoop side b = .error e := by
  rw [mergeLoop]
  split
  · rename_i hn
    rw [h] at hn
    cases hn
  · rename_i d hd
    rw [h] at hd
    cases hd
    dsimp only
    split
    · rename_i e' he
      rw [hm] at he
      cases he
      rfl
    · rename_i a₂ t' he
      rw [hm] at he
      cases he

/-- What holds of an arrangement and a block of it, and is kept by collecting boundaries and by the
merges that the loop chooses. -/
structure LoopInvariant (side : Side) (I : Arrangement α → BlockId → Prop) : Prop where
  collect : ∀ a b i, a.Intact → I a b → I (a.collectBoundary side i) b
  merge : ∀ a b c a' t, a.Intact → (a.block? b).isSome → a.Known side b → I a b →
    a.nextMerge side b = some c → a.Crosses side b c → a.merge c = .ok (a', t) → I a' t

theorem LoopInvariant.and {I J : Arrangement α → BlockId → Prop} (hI : LoopInvariant side I)
    (hJ : LoopInvariant side J) : LoopInvariant side fun a b => I a b ∧ J a b where
  collect a b i ha h := ⟨hI.collect a b i ha h.1, hJ.collect a b i ha h.2⟩
  merge a b c a' t ha hb hk h hn hc hm :=
    ⟨hI.merge a b c a' t ha hb hk h.1 hn hc hm, hJ.merge a b c a' t ha hb hk h.2 hn hc hm⟩

variable {I : Arrangement α → BlockId → Prop}

theorem mergeLoop_yields (hinv : LoopInvariant side I) (ha : a.Intact) (hb : (a.block? b).isSome)
    (hI : I a b) : Yields (a.mergeLoop side b) fun r => r.1.Intact ∧ (r.1.block? r.2).isSome ∧
      I r.1 r.2 ∧ r.1.Known side r.2 ∧ r.1.nextMerge side r.2 = none := by
  have hensure (a : Arrangement α) (b i : BlockId) (ha : a.Intact) (hI : I a b) :
      I (a.ensureBoundary side i) b := by
    rcases a.ensureBoundary_cases side i with ⟨he, -⟩ | he
    · rwa [he]
    · rw [he]
      exact hinv.collect a b i ha hI
  -- Every merge leaves one block less.
  induction hn : a.standing using Nat.strong_induction_on generalizing a b with
  | _ n ih =>
    let a₁ := a.ensureBoundary side b
    have ha₁ : a₁.Intact := ha.ensureBoundary
    have hb₁ : (a₁.block? b).isSome := isSome_ensureBoundary hb
    have hI₁ : I a₁ b := hensure a b b ha hI
    have hk₁ : a₁.Known side b := known_ensureBoundary hb
    cases hnext : a₁.nextMerge side b with
    | none =>
      rw [mergeLoop_of_none hnext]
      exact .ok ⟨ha₁, hb₁, hI₁, hk₁, hnext⟩
    | some c =>
      obtain ⟨hcross, -⟩ := ha₁.nextMerge_crosses hb₁ hk₁ hnext
      let far := a₁.blockOf ((a₁.problem.constraintAt c).endOn side)
      have hfar : b ≠ far := by
        have := hcross.far
        rw [← Problem.endOn_edges] at this
        exact this.symm
      let a₂ := a₁.ensureBoundary side far
      have ha₂ : a₂.Intact := ha₁.ensureBoundary
      have hproblem : a₂.problem = a₁.problem := problem_ensureBoundary _ _ _
      have hcross₂ : a₂.Crosses side b c := by
        refine ⟨?_, ?_, ?_⟩
        · rw [hproblem]
          exact hcross.lt_size
        · rw [blockOf, hproblem]
          exact hcross.near
        · rw [blockOf, hproblem]
          exact hcross.far
      have hk₂ : a₂.Known side b := by
        rcases a₁.ensureBoundary_cases side far with ⟨he, -⟩ | he
        · change (a₁.ensureBoundary side far).Known side b
          rwa [he]
        · change (a₁.ensureBoundary side far).Known side b
          rw [he]
          exact known_collectBoundary_of_known hk₁ far
      obtain ⟨a', t, hm⟩ := ha₂.exists_merge hcross₂.lt_size hcross₂.ends_ne
      rw [mergeLoop_of_merge hnext hm]
      have hI' : I a' t := by
        refine hinv.merge a₂ b c a' t ha₂ (isSome_ensureBoundary hb₁) hk₂ (hensure _ _ _ ha₁ hI₁) ?_
          hcross₂ hm
        rw [nextMerge_ensureBoundary hfar, hnext]
      obtain ⟨r, s, B, shift, hmerged⟩ := merged_of_merge hm
      refine ih a'.standing ?_ (ha₂.merge hm) ?_ hI' rfl
      · have := standing_merge hm
        rw [standing_ensureBoundary, standing_ensureBoundary] at this
        omega
      · rw [hmerged.block?_survivor]
        rfl

theorem mergeTowards_yields (hinv : LoopInvariant side I) (ha : a.Intact)
    (hb : (a.block? b).isSome) (hI : I a b) :
    Yields (a.mergeTowards side b) fun r => r.1.Intact ∧ (r.1.block? r.2).isSome ∧ I r.1 r.2 ∧
      r.1.Known side r.2 ∧ r.1.nextMerge side r.2 = none :=
  mergeLoop_yields hinv ha.collectBoundary (block?_collectBoundary hb) (hinv.collect a b b ha hI)

theorem loopInvariant_given (p : Problem α) (side : Side) :
    LoopInvariant side fun a _ => a.problem.given = p.given where
  collect _ _ _ _ h := h
  merge _ _ _ _ _ _ _ _ h _ _ hm := by
    obtain ⟨_, _, _, _, hmerged⟩ := merged_of_merge hm
    exact hmerged.given_eq.trans h

def Tells (P : Event α → Prop) (a : Arrangement α) : Prop :=
  ∀ e ∈ eventsOf a.journal.toList, P e

omit [Scalar α] in
theorem Tells.push {P : Event α → Prop} {e : Event α} (h : a.Tells P) (he : P e)
    (hj : a'.journal = a.journal.push (.event e)) : a'.Tells P := by
  intro e' he'
  rw [hj, Array.toList_push, eventsOf, List.filterMap_append, List.mem_append] at he'
  rcases he' with he' | he'
  · exact h e' he'
  · obtain rfl := List.mem_singleton.mp he'
    exact he

theorem loopInvariant_tells {P : Event α → Prop} (hP : ∀ c t r, P (.merged c t r)) (side : Side) :
    LoopInvariant side fun a _ => a.Tells P where
  collect _ _ _ _ h := h
  merge _ _ _ _ _ _ _ _ h _ _ hm := by
    obtain ⟨_, _, _, _, hmerged⟩ := merged_of_merge hm
    exact h.push (hP _ _ _) hmerged.journal_eq

theorem loopInvariant_steps (a : Arrangement α) (side : Side) :
    LoopInvariant side fun a' _ => Steps a a' where
  collect _ _ i _ h := h.tail (.collectBoundary side i)
  merge _ _ _ _ _ _ _ _ h _ _ hm := h.tail (.merge hm)

end Spacing.Arrangement
