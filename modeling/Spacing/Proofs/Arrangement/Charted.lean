import Spacing.Proofs.Arrangement.Initial
import Spacing.Proofs.Arrangement.Loop
/-!
Charted boundaries: whatever a block knows of its boundary, what of it still leads to other blocks is
what its members would list if they were asked again, and in the same order. So merges do not depend on
when boundaries were collected.
-/

namespace Spacing.Arrangement

variable {α : Type} [Scalar α] {a a' : Arrangement α} {b i t r l : BlockId} {B s : Block α} {c : ConId}
  {shift : α} {side : Side} {cs : List ConId} {L R : List VarId}

def listed (a : Arrangement α) (side : Side) (members : List VarId) : List ConId :=
  members.flatMap fun v => (a.problem.variableAt v).towards side

def Charted (a : Arrangement α) : Prop :=
  ∀ b B, a.block? b = some B → ∀ side cs, B.boundary side = some cs →
    a.crossing side b cs = a.crossing side b (a.listed side B.members)

theorem Intact.lt_of_mem_listed (ha : a.Intact) {members : List VarId}
    (hc : c ∈ a.listed side members) : c < a.problem.constraints.size := by
  obtain ⟨v, -, hc⟩ := List.mem_flatMap.mp hc
  exact ((ha.consistent.mem_towards side).mp hc).1

theorem collected_eq (a : Arrangement α) (side : Side) (b : BlockId) (members : List VarId) :
    (members.flatMap fun v => a.crossing side b ((a.problem.variableAt v).towards side)) =
      a.crossing side b (a.listed side members) := by
  rw [crossing, listed, List.filter_flatMap]
  rfl

theorem crossing_crossing (h : ∀ c ∈ cs, a'.blockOf (a'.problem.edges.endOn side c) ≠ t →
    a.blockOf (a.problem.edges.endOn side c) ≠ i) :
    a'.crossing side t (a.crossing side i cs) = a'.crossing side t cs := by
  rw [crossing, crossing, crossing, List.filter_filter]
  apply List.filter_congr
  intro c hc
  have hc := h c hc
  simp only [← Problem.endOn_edges] at hc
  by_cases hd : a'.blockOf ((a'.problem.constraintAt c).endOn side) = t <;> simp_all

theorem crossing_congr (h : ∀ c ∈ cs, a'.blockOf (a'.problem.edges.endOn side c) = i ↔
    a.blockOf (a.problem.edges.endOn side c) = i) :
    a'.crossing side i cs = a.crossing side i cs := by
  apply List.filter_congr
  intro c hc
  simpa [Problem.endOn_edges] using h c hc

theorem listed_given (h : a'.problem.given = a.problem.given) (side : Side) (members : List VarId) :
    a'.listed side members = a.listed side members := by
  cases side
  · simp only [listed, Variable.towards, Problem.ins_eq h]
  · simp only [listed, Variable.towards, Problem.outs_eq h]

theorem Charted.congr (h : a.Charted)
    (hp : ∀ side v, (a'.problem.variableAt v).towards side = (a.problem.variableAt v).towards side)
    (he : a'.problem.edges = a.problem.edges) (hv : ∀ v, a'.blockOf v = a.blockOf v)
    (hb : ∀ b B', a'.block? b = some B' → ∃ B, a.block? b = some B ∧ B'.members = B.members ∧
      ∀ side cs, B'.boundary side = some cs → B.boundary side = some cs ∨
        a.crossing side b cs = a.crossing side b (a.listed side B.members)) : a'.Charted := by
  intro b B' hB' side cs hcs
  obtain ⟨B, hB, hm, hbound⟩ := hb b B' hB'
  have hcross (cs : List ConId) : a'.crossing side b cs = a.crossing side b cs :=
    crossing_congr fun c _ => by rw [he, hv]
  rw [hcross, hcross, hm]
  simp only [listed, hp]
  exact (hbound side cs hcs).elim (h b B hB side cs) id

theorem Charted.of_problem (hd : a.Charted) {q : Problem α}
    (hp : ∀ side v, (q.variableAt v).towards side = (a.problem.variableAt v).towards side)
    (he : q.edges = a.problem.edges) (hv : ∀ v, q.blockOf v = a.blockOf v) :
    Charted { a with problem := q } :=
  hd.congr hp he hv fun _ B hB => ⟨B, hB, rfl, fun _ _ hcs => .inl hcs⟩

theorem charted_ofProblem (p : Problem α) : (ofProblem p).Charted := by
  intro b B hB side cs hcs
  obtain ⟨-, rfl⟩ := block?_ofProblem_some hB
  cases side <;> cases hcs

theorem Charted.modifyBlock (h : a.Charted) {f : Block α → Block α}
    (hm : ∀ B, (f B).members = B.members)
    (hf : ∀ B, a.block? b = some B → ∀ side cs, (f B).boundary side = some cs →
      B.boundary side = some cs ∨ a.crossing side b cs = a.crossing side b (a.listed side B.members)) :
    (a.modifyBlock b f).Charted := by
  refine h.congr (fun _ _ => rfl) rfl (fun _ => rfl) fun i B' hB' => ?_
  rw [block?_modifyBlock] at hB'
  split at hB'
  · rename_i hi
    subst hi
    obtain ⟨B, hB, rfl⟩ := Option.map_eq_some_iff.mp hB'
    exact ⟨B, hB, hm B, hf B hB⟩
  · exact ⟨B', hB', rfl, fun _ _ hcs => .inl hcs⟩

theorem Charted.settle (h : a.Charted) : (a.settle b).Charted :=
  h.modifyBlock (fun _ => rfl) fun _ _ side cs hcs => .inl (by cases side <;> exact hcs)

theorem Charted.collectBoundary (h : a.Charted) : (a.collectBoundary side b).Charted := by
  apply h.modifyBlock
  · intro B
    cases side <;> rfl
  · intro B hB side' cs hcs
    by_cases hs : side' = side
    · subst hs
      right
      have hfound : (a.blockAt b).members.flatMap (fun v =>
          a.crossing side' b ((a.problem.variableAt v).towards side')) = cs := by
        cases side' <;> exact Option.some.inj hcs
      rw [← hfound, collected_eq, blockAt_eq hB]
      exact crossing_crossing fun _ _ hd => hd
    · left
      cases side <;> cases side' <;> first | exact absurd rfl hs | exact hcs

theorem Charted.writeMultipliers (h : a.Charted) (ms : List (ConId × α)) :
    (a.writeMultipliers ms).Charted := by
  have hv := variableAt_writeMultipliers (a := a) ms
  exact h.of_problem (fun side v => congrArg (fun x => x.towards side) (hv v))
    (Problem.edges_eq (given_writeMultipliers ms)) fun v => congrArg Variable.block (hv v)

theorem Charted.writePositions (h : a.Charted) : a.writePositions.Charted := by
  have hg := given_writePositions (a := a)
  refine h.of_problem (fun side v => ?_) (Problem.edges_eq hg) block_writePositions
  cases side
  · exact Problem.ins_eq hg v
  · exact Problem.outs_eq hg v

theorem Merged.charted (h : Merged a a' c t r s B shift) (ha : a.Intact) (hd : a.Charted) :
    a'.Charted := by
  intro i B' hB' side cs hcs
  rw [listed_given h.given_eq]
  rcases h.block?_cases hB' with ⟨rfl, rfl⟩ | ⟨hit, hir, hB⟩
  · obtain ⟨xs, ys, hx, hy, rfl⟩ := boundary_join hcs
    -- Whatever leads out of the two together leads out of either.
    have hout {zs : List ConId} (hz : ∀ c ∈ zs, c < a.problem.constraints.size) {j : BlockId}
        (hj : j = i ∨ j = r) : a'.crossing side i (a.crossing side j zs) = a'.crossing side i zs := by
      apply crossing_crossing
      intro d hd' hne hf
      rw [h.edges_eq] at hne
      apply hne
      apply (h.blockOf_eq_iff ha (ha.consistent.endOn_lt (hz d hd') side)).mpr
      rcases hj with rfl | rfl
      · exact .inl hf
      · exact .inr hf
    have hsame {j : BlockId} {C : Block α} {zs : List ConId} (hC : a.block? j = some C)
        (hzs : C.boundary side = some zs) (hj : j = i ∨ j = r) :
        a'.crossing side i zs = a'.crossing side i (a.listed side C.members) := by
      rw [← hout (fun c hc => ((ha.covers j C hC side zs hzs).near c hc).1) hj, hd j C hC side zs hzs,
        hout (fun c hc => ha.lt_of_mem_listed hc) hj]
    have hlisted : a.listed side (s.join B shift).members =
        a.listed side s.members ++ a.listed side B.members := List.flatMap_append
    have hsplit (xs ys : List ConId) :
        a'.crossing side i (xs ++ ys) = a'.crossing side i xs ++ a'.crossing side i ys :=
      List.filter_append xs ys
    rw [hlisted, hsplit, hsplit, hsame h.survivor hx (.inl rfl), hsame h.absorbed hy (.inr rfl)]
  · have hsame {zs : List ConId} (hz : ∀ c ∈ zs, c < a.problem.constraints.size) :
        a'.crossing side i zs = a.crossing side i zs := by
      apply crossing_congr
      intro d hd'
      have hlt := ha.consistent.endOn_lt (hz d hd') side
      rw [h.edges_eq]
      by_cases hr : a.blockOf (a.problem.edges.endOn side d) = r
      · rw [h.blockOf_of_eq ha hlt hr, hr]
        exact iff_of_false (Ne.symm hit) (Ne.symm hir)
      · rw [h.blockOf_of_ne ha hr]
    rw [hsame fun c hc => ((ha.covers i B' hB side cs hcs).near c hc).1,
      hsame fun c hc => ha.lt_of_mem_listed hc, hd i B' hB side cs hcs]

theorem Halved.charted (h : Halved a a' c l r B L R) (ha : a.Intact) (hc : c ∈ a.problem.active)
    (hd : a.Charted) : a'.Charted := by
  intro i B' hB' side cs hcs
  rw [listed_given h.given_eq]
  rcases h.block?_cases hB' with ⟨-, rfl⟩ | ⟨-, rfl⟩ | ⟨ho, hB⟩
  · cases side <;> cases hcs
  · cases side <;> cases hcs
  · have hsame {zs : List ConId} (hz : ∀ c ∈ zs, c < a.problem.constraints.size) :
        a'.crossing side i zs = a.crossing side i zs := by
      apply crossing_congr
      intro d hd'
      rw [h.edges_eq]
      exact h.blockOf_eq_other_iff ha hc (ha.consistent.endOn_lt (hz d hd') side)
        (block?_eq_some_lt hB) ho
    rw [hsame fun c hc => ((ha.covers i B' hB side cs hcs).near c hc).1,
      hsame fun c hc => ha.lt_of_mem_listed hc, hd i B' hB side cs hcs]

theorem Charted.setGap (hd : a.Charted) (hc : c < a.problem.constraints.size) (gap : α) :
    Charted { a with problem := a.problem.setGap c gap } :=
  hd.of_problem (fun _ _ => rfl) (edges_setGap hc gap) fun _ => rfl

theorem Charted.step (hd : a.Charted) (ha : a.Intact) (h : Step a a') : a'.Charted := by
  cases h with
  | merge h =>
    obtain ⟨_, _, _, _, hm⟩ := merged_of_merge h
    exact hm.charted ha hd
  | split hc h =>
    obtain ⟨_, _, _, hh⟩ := halved_of_split ha hc h
    exact hh.charted ha hc hd
  | settle b => exact hd.settle
  | collectBoundary side b => exact hd.collectBoundary
  | writeMultipliers b => exact hd.writeMultipliers _
  | writePositions => exact hd.writePositions
  | cleanUp => exact hd
  | log e he => exact hd
  | @setDesired v hv desired =>
    refine hd.of_problem (fun side w => ?_) rfl fun w => ?_
    · rw [Problem.variableAt_setDesired hv]
      split <;> rfl
    · rw [Problem.blockOf, Problem.variableAt_setDesired hv]
      split <;> rfl
  | @setGap c hlt hc gap => exact hd.setGap hlt gap
  | @release _ c _ _ hc gap h =>
    have hlt := Problem.lt_size_of_mem_active hc
    have hc' : c ∈ (a.problem.setGap c gap).active := (active_setGap gap).symm ▸ hc
    obtain ⟨_, _, _, hh⟩ := halved_of_split (ha.setGap hlt gap) hc' h
    exact hh.charted (ha.setGap hlt gap) hc' (hd.setGap hlt gap)

theorem Charted.steps (hd : a.Charted) (ha : a.Intact) (h : Steps a a') : a'.Charted := by
  induction h with
  | refl => exact hd
  | tail h' h ih => exact ih.step (ha.steps h') h

theorem Charted.nextMerge_eq (hd : a.Charted) (hB : a.block? b = some B) (hk : a.Known side b) :
    a.nextMerge side b = (a.mostUrgent (a.crossing side b (a.listed side B.members))).filter
      fun c => a.needsMerge c := by
  obtain ⟨cs, hcs⟩ := Option.isSome_iff_exists.mp hk
  rw [nextMerge, hcs, Option.getD_some, hd b B hB side cs (blockAt_eq hB ▸ hcs)]

end Spacing.Arrangement
