import Spacing.Proofs.Arrangement.Step

namespace Spacing

theorem Slots.modify_eq_self {β : Type} {xs : Array β} {i : Nat} {f : β → β}
    (h : ∀ hi : i < xs.size, f xs[i] = xs[i]) : xs.modify i f = xs := by
  apply Array.ext
  · exact Array.size_modify
  · intro j hj hj'
    rw [Array.getElem_modify]
    split
    · rename_i hij
      subst hij
      exact h hj'
    · rfl

variable {α : Type}

def Block.body (b : Block α) : Block α :=
  { b with entering := none, leaving := none }

namespace Arrangement

variable {a a' a'' : Arrangement α} {b : BlockId} {B B' : Block α} {c : ConId} {v : VarId}

theorem modifyBlock_eq_self {f : Block α → Block α} (h : ∀ B, a.block? b = some B → f B = B) :
    a.modifyBlock b f = a := by
  have hmodify : a.blocks.modify b (Option.map f) = a.blocks := by
    apply Slots.modify_eq_self
    intro hb
    cases hB : a.blocks[b] with
    | none => rfl
    | some B =>
      have hblock : a.block? b = some B := by simp [block?, hb, hB]
      rw [Option.map_some, h B hblock]
  rw [modifyBlock, hmodify]

variable [Scalar α]

theorem body_blockAt (a : Arrangement α) (b : BlockId) :
    (a.blockAt b).body = ((a.block? b).map Block.body).getD default := by
  unfold blockAt
  cases a.block? b <;> rfl

structure Still (a a' : Arrangement α) : Prop where
  given_eq : a'.problem.given = a.problem.given
  active_eq : a'.problem.active = a.problem.active
  offset_eq : ∀ v, (a'.problem.variableAt v).offset = (a.problem.variableAt v).offset
  blockOf_eq : ∀ v, a'.blockOf v = a.blockOf v
  body_eq : ∀ b, (a'.block? b).map Block.body = (a.block? b).map Block.body

namespace Still

theorem refl : Still a a :=
  ⟨rfl, rfl, fun _ => rfl, fun _ => rfl, fun _ => rfl⟩

theorem trans (h : Still a a') (h' : Still a' a'') : Still a a'' where
  given_eq := h'.given_eq.trans h.given_eq
  active_eq := h'.active_eq.trans h.active_eq
  offset_eq v := (h'.offset_eq v).trans (h.offset_eq v)
  blockOf_eq v := (h'.blockOf_eq v).trans (h.blockOf_eq v)
  body_eq b := (h'.body_eq b).trans (h.body_eq b)

variable (h : Still a a')
include h

theorem edges_eq : a'.problem.edges = a.problem.edges :=
  Problem.edges_eq h.given_eq

theorem exists_block (hB' : a'.block? b = some B') : ∃ B, a.block? b = some B ∧ B'.body = B.body := by
  have he := h.body_eq b
  rw [hB', Option.map_some] at he
  obtain ⟨B, hB, hbody⟩ := Option.map_eq_some_iff.mp he.symm
  exact ⟨B, hB, hbody.symm⟩

theorem blockAt_body (b : BlockId) : (a'.blockAt b).body = (a.blockAt b).body := by
  rw [body_blockAt, body_blockAt, h.body_eq]

theorem members_eq (b : BlockId) : (a'.blockAt b).members = (a.blockAt b).members :=
  (congrArg Block.members (h.blockAt_body b) :)

theorem position_eq (v : VarId) : a'.position v = a.position v := by
  have hp : (a'.blockAt (a.blockOf v)).position = (a.blockAt (a.blockOf v)).position :=
    (congrArg Block.position (h.blockAt_body _) :)
  rw [position, h.blockOf_eq, h.offset_eq, hp]
  rfl

theorem slack_eq (c : ConId) : a'.slack c = a.slack c := by
  simp only [slack, h.position_eq, Problem.left_eq h.given_eq, Problem.right_eq h.given_eq,
    Problem.gap_eq h.given_eq]

end Still

theorem still_collectBoundary (a : Arrangement α) (side : Side) (b : BlockId) :
    Still a (a.collectBoundary side b) := by
  refine ⟨rfl, rfl, fun _ => rfl, fun _ => rfl, fun i => ?_⟩
  rw [collectBoundary, block?_modifyBlock]
  split
  · rw [Option.map_map]
    congr 1
    funext B
    cases side <;> rfl
  · rfl

theorem still_writeMultipliers (a : Arrangement α) (ms : List (ConId × α)) :
    Still a (a.writeMultipliers ms) where
  given_eq := given_writeMultipliers ms
  active_eq := active_writeMultipliers ms
  offset_eq v := congrArg Variable.offset (variableAt_writeMultipliers ms v)
  blockOf_eq v := congrArg Variable.block (variableAt_writeMultipliers ms v)
  body_eq _ := rfl

theorem still_writePositions (a : Arrangement α) : Still a a.writePositions where
  given_eq := given_writePositions
  active_eq := rfl
  offset_eq v := by
    by_cases hv : v < a.problem.vars.size
    · rw [variableAt_writePositions hv]
    · have hv' : a.writePositions.problem.vars.size ≤ v := by
        simpa [writePositions] using hv
      rw [Problem.variableAt_of_le hv', Problem.variableAt_of_le (Nat.not_lt.mp hv)]
  blockOf_eq := block_writePositions
  body_eq _ := rfl

theorem still_cleanUp (a : Arrangement α) : Still a a.cleanUp :=
  ⟨rfl, rfl, fun _ => rfl, fun _ => rfl, fun _ => rfl⟩

theorem still_record (a : Arrangement α) (e : Event α) : Still a (a.record e) :=
  ⟨rfl, rfl, fun _ => rfl, fun _ => rfl, fun _ => rfl⟩

structure Idle (a a' : Arrangement α) : Prop where
  steps : Steps a a'
  still : Still a a'
  ids_eq : a'.blockIds = a.blockIds

namespace Idle

theorem refl (a : Arrangement α) : Idle a a :=
  ⟨.refl, .refl, rfl⟩

theorem trans {a'' : Arrangement α} (h : Idle a a') (h' : Idle a' a'') : Idle a a'' :=
  ⟨h.steps.trans h'.steps, h.still.trans h'.still, h'.ids_eq.trans h.ids_eq⟩

theorem of_live (hs : Steps a a') (h : Still a a') (hl : a'.live = a.live) : Idle a a' where
  steps := hs
  still := h
  ids_eq := by
    rw [blockIds, blockIds, hl]
    apply List.filter_congr
    intro i _
    have hb := congrArg Option.isSome (h.body_eq i)
    simpa using hb

theorem cleanUp (a : Arrangement α) : Idle a a.cleanUp where
  steps := .single .cleanUp
  still := still_cleanUp a
  ids_eq := List.filter_eq_self.mpr fun _ hi => (List.mem_filter.mp hi).2

theorem log (a : Arrangement α) {e : Entry α}
    (he : ∀ ev, e.event? = some ev → ev.isMerge = false ∧ ev.isSplit = false) :
    Idle a { a with journal := a.journal.push e } :=
  of_live (.single (.log e he)) ⟨rfl, rfl, fun _ => rfl, fun _ => rfl, fun _ => rfl⟩ rfl

theorem collectBoundary (a : Arrangement α) (side : Side) (i : BlockId) :
    Idle a (a.collectBoundary side i) :=
  of_live (.single (.collectBoundary side i)) (still_collectBoundary a side i) rfl

theorem ensureBoundary (a : Arrangement α) (side : Side) (i : BlockId) :
    Idle a (a.ensureBoundary side i) := by
  unfold Arrangement.ensureBoundary
  split
  · exact refl a
  · exact collectBoundary a side i

theorem writePositions (a : Arrangement α) : Idle a a.writePositions :=
  of_live (.single .writePositions) (still_writePositions a) rfl

theorem writeMultipliers (a : Arrangement α) (i : BlockId) :
    Idle a (a.writeMultipliers (a.multipliersOf i)) :=
  of_live (.single (.writeMultipliers i)) (still_writeMultipliers a _) rfl

end Idle

end Arrangement

end Spacing
