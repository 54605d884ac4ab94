import Spacing.Proofs.Part.Basic

namespace Spacing.Arrangement

variable {α : Type} [Scalar α] {e : Renaming} {a a' b b' : Arrangement α} {q : Problem α}
  {c : ConId} {t r : BlockId} {s s' x x' : Block α} {shift : α} {u v w : VarId} {side : Side}

theorem filterMap_roots (ha : a.Intact) {P : BlockId → Bool} {head : BlockId → Option VarId}
    (hhead : ∀ i ∈ a.blockIds, P i → head i = (a.blockAt i).members.head?) :
    (a.blockIds.filter P).filterMap head = a.roots.filter fun w => P (a.blockOf w) := by
  rw [List.filterMap_filter, roots, List.filter_filterMap]
  apply List.filterMap_congr
  intro i hi
  obtain ⟨B, hB⟩ := Option.isSome_iff_exists.mp ((mem_blockIds ha).mp hi)
  cases hm : B.members with
  | nil => exact absurd hm (ha.nonempty i B hB)
  | cons w ws =>
    have hw : a.blockOf w = i := ha.blockOf_eq hB (hm ▸ List.mem_cons_self)
    have hi' := hhead i hi
    rw [blockAt_eq hB, hm, List.head?_cons] at hi'
    rw [blockAt_eq hB, hm, List.head?_cons, Option.filter_some, hw]
    split
    · exact hi' ‹_›
    · rfl

omit [Scalar α] in
theorem body_join (hs : s.body = s'.body) (hx : x.body = x'.body) (shift : α) [Scalar α] :
    (s.join x shift).body = (s'.join x' shift).body := by
  simp only [Block.body, Block.mk.injEq, and_true] at hs hx
  simp only [Block.body, Block.join, hs, hx]

omit [Scalar α] in
theorem join_renamed (f : VarId → VarId) (s x : Block α) (shift : α) [Scalar α] :
    ((s.renamed f).join (x.renamed f) shift).body = ((s.join x shift).body).renamed f := by
  simp [Block.body, Block.join, Block.renamed]

namespace Merged

variable (h : Merged a a' c t r s x shift) (ha : a.Intact)
include h ha

theorem home_eq (hv : v < a.problem.vars.size) :
    a'.home v = if a.blockOf v = t ∨ a.blockOf v = r then (s.join x shift).body else a.home v := by
  split
  · rename_i hb
    exact Arrangement.home_eq ((h.blockOf_eq_iff ha hv).mpr hb) h.block?_survivor
  · rename_i hb
    rw [not_or] at hb
    rw [home, home, h.blockOf_of_ne ha hb.2, blockAt, h.block?_of_ne hb.1 hb.2, blockAt]

theorem roots_eq : a'.roots = a.roots.filter fun w => a.blockOf w ≠ r := by
  have hids : a'.blockIds = a.blockIds.filter fun i => i ≠ r := by
    rw [blockIds, h.live_eq, blockIds, List.filter_filter]
    apply List.filter_congr
    intro i _
    rw [h.block?_eq]
    split_ifs with ht hr
    · simp [ht, h.survivor, h.ne]
    · simp [hr]
    · simp [hr]
  rw [roots, hids]
  apply filterMap_roots ha
  intro i hi hr
  have hr : i ≠ r := of_decide_eq_true hr
  by_cases ht : i = t
  · subst ht
    rw [blockAt_eq h.block?_survivor, blockAt_eq h.survivor]
    exact List.head?_append_of_ne_nil _ (ha.nonempty i s h.survivor)
  · rw [blockAt, h.block?_of_ne ht hr, blockAt]

end Merged

theorem merged_of_lt (hne : a.leftBlock c ≠ a.rightBlock c) {l r : Block α}
    (hl : a.block? (a.leftBlock c) = some l) (hr : a.block? (a.rightBlock c) = some r)
    (hlt : l.members.length < r.members.length) : ∃ a', a.merge c = .ok (a', a.rightBlock c) ∧
      Merged a a' c (a.rightBlock c) (a.leftBlock c) r l
        ((a.problem.variableAt (a.problem.edges.right c)).offset - (a.problem.constraintAt c).gap -
          (a.problem.variableAt (a.problem.edges.left c)).offset) := by
  simp only [merge, hne, if_false, hl, hr, hlt, if_true]
  exact ⟨_, rfl, hr, hl, Ne.symm hne, .inr ⟨rfl, rfl, rfl⟩, rfl⟩

theorem merged_of_le (hne : a.leftBlock c ≠ a.rightBlock c) {l r : Block α}
    (hl : a.block? (a.leftBlock c) = some l) (hr : a.block? (a.rightBlock c) = some r)
    (hle : ¬ l.members.length < r.members.length) : ∃ a', a.merge c = .ok (a', a.leftBlock c) ∧
      Merged a a' c (a.leftBlock c) (a.rightBlock c) l r
        ((a.problem.variableAt (a.problem.edges.left c)).offset + (a.problem.constraintAt c).gap -
          (a.problem.variableAt (a.problem.edges.right c)).offset) := by
  simp only [merge, hne, if_false, hl, hr, hle]
  exact ⟨_, rfl, hl, hr, hne, .inl ⟨rfl, rfl, rfl⟩, rfl⟩

theorem blockOf_left_of_merge (ha : a.Intact) (h : a.merge c = .ok (a', t)) :
    a'.blockOf (a.problem.edges.left c) = t := by
  obtain ⟨r, s, x, shift, hm⟩ := merged_of_merge h
  exact (hm.blockOf_eq_iff_ends ha (ha.consistent.leftEnd_lt hm.lt_size)).mpr (.inl rfl)

structure Elsewhere (e : Renaming) (q : Problem α) (b a : Arrangement α) (i : BlockId) : Prop where
  mirrors : Mirrors e q a b
  ne : ∀ v < q.vars.size, a.blockOf (e.var v) ≠ i

namespace Mirrors

variable (h : Mirrors e q a b)
include h

theorem leftBlock_eq (hc : c < q.constraints.size) :
    a.leftBlock (e.con c) = a.blockOf (e.var (b.problem.edges.left c)) :=
  congrArg a.blockOf (h.left_eq hc)

theorem rightBlock_eq (hc : c < q.constraints.size) :
    a.rightBlock (e.con c) = a.blockOf (e.var (b.problem.edges.right c)) :=
  congrArg a.blockOf (h.right_eq hc)

theorem filter_roots (P P' : BlockId → Bool)
    (hP : ∀ w < q.vars.size, P (a.blockOf (e.var w)) = P' (b.blockOf w)) :
    (a.roots.filter fun w => P (a.blockOf w)).filter (e.Reaches q.vars.size) =
      (b.roots.filter fun w => P' (b.blockOf w)).map e.var := by
  rw [List.filter_comm, h.roots_eq, List.filter_map]
  apply congrArg (List.map e.var)
  apply List.filter_congr
  intro w hw
  exact hP w (Problem.size_vars_eq h.given_eq ▸ (h.intact'.mem_roots.mp hw).1)

theorem merged (hu : u < q.vars.size) (hw : w < q.vars.size)
    (hm : Merged a a' (e.con c) (a.blockOf (e.var u)) (a.blockOf (e.var w)) s x shift)
    (hm' : Merged b b' c (b.blockOf u) (b.blockOf w) s' x' shift) : Mirrors e q a' b' := by
  have hs : s.body = (s'.renamed e.var).body := by
    rw [← Arrangement.home_eq rfl hm.survivor, h.home_eq u hu, Arrangement.home_eq rfl hm'.survivor]
    rfl
  have hx : x.body = (x'.renamed e.var).body := by
    rw [← Arrangement.home_eq rfl hm.absorbed, h.home_eq w hw, Arrangement.home_eq rfl hm'.absorbed]
    rfl
  have hjoin : (s.join x shift).body = (s'.join x' shift).body.renamed e.var :=
    (body_join hs hx shift).trans (join_renamed e.var s' x' shift)
  constructor
  case intact => exact hm.intact h.intact
  case intact' => exact hm'.intact h.intact'
  case charted => exact hm.charted h.intact h.charted
  case charted' => exact hm'.charted h.intact' h.charted'
  case part => exact h.part.given hm.given_eq rfl
  case given_eq => exact hm'.given_eq.trans h.given_eq
  case offset_eq =>
    intro v hv
    have hmem : e.var v ∈ x.members ↔ v ∈ x'.members := by
      rw [h.intact.mem_iff _ x hm.absorbed, h.intact'.mem_iff _ x' hm'.absorbed, h.blockOf_iff hv hw]
      simp [h.var_lt hv, h.var_lt' hv]
    rw [hm.offset_eq h.intact, hm'.offset_eq h.intact', h.offset_eq v hv]
    simp only [hmem]
  case active_iff =>
    intro d hd
    rw [hm.active_eq, hm'.active_eq, Set.mem_insert_iff, Set.mem_insert_iff, h.active_iff d hd,
      Renaming.con_inj]
  case home_eq =>
    intro v hv
    simp only [hm.home_eq h.intact (h.var_lt hv), hm'.home_eq h.intact' (h.var_lt' hv),
      h.blockOf_iff hv hu, h.blockOf_iff hv hw, hjoin, h.home_eq v hv]
    split <;> rfl
  case roots_eq =>
    rw [hm.roots_eq h.intact, hm'.roots_eq h.intact']
    apply h.filter_roots (fun i => i ≠ a.blockOf (e.var w)) (fun i => i ≠ b.blockOf w)
    intro v hv
    simp only [ne_eq, h.blockOf_iff hv hw]

theorem merge (hc : c < q.constraints.size) (hne : b.leftBlock c ≠ b.rightBlock c) :
    ∃ a' t b' t', a.merge (e.con c) = .ok (a', t) ∧ b.merge c = .ok (b', t') ∧ Mirrors e q a' b' := by
  have hu := h.left_lt hc
  have hw := h.right_lt hc
  obtain ⟨l, hl⟩ := h.intact'.exists_block (h.var_lt' hu)
  obtain ⟨r, hr⟩ := h.intact'.exists_block (h.var_lt' hw)
  obtain ⟨l', hl'⟩ := h.intact.exists_block (h.var_lt hu)
  obtain ⟨r', hr'⟩ := h.intact.exists_block (h.var_lt hw)
  have hlength : l'.members.length < r'.members.length ↔ l.members.length < r.members.length := by
    rw [h.members_eq hu hl' hl, h.members_eq hw hr' hr, List.length_map, List.length_map]
  have hne' : a.leftBlock (e.con c) ≠ a.rightBlock (e.con c) := by
    rw [h.leftBlock_eq hc, h.rightBlock_eq hc]
    exact (h.blockOf_iff hu hw).not.mpr hne
  rw [← h.leftBlock_eq hc] at hl'
  rw [← h.rightBlock_eq hc] at hr'
  by_cases hlt : l.members.length < r.members.length
  · obtain ⟨b', hb', hm'⟩ := merged_of_lt hne hl hr hlt
    obtain ⟨a', ha', hm⟩ := merged_of_lt hne' hl' hr' (hlength.mpr hlt)
    rw [h.leftBlock_eq hc, h.rightBlock_eq hc, h.left_eq hc, h.right_eq hc, h.offset_eq _ hu,
      h.offset_eq _ hw, h.gap_eq hc] at hm
    exact ⟨a', _, b', _, ha', hb', h.merged hw hu hm hm'⟩
  · obtain ⟨b', hb', hm'⟩ := merged_of_le hne hl hr hlt
    obtain ⟨a', ha', hm⟩ := merged_of_le hne' hl' hr' (hlength.not.mpr hlt)
    rw [h.leftBlock_eq hc, h.rightBlock_eq hc, h.left_eq hc, h.right_eq hc, h.offset_eq _ hu,
      h.offset_eq _ hw, h.gap_eq hc] at hm
    exact ⟨a', _, b', _, ha', hb', h.merged hu hw hm hm'⟩

theorem mergeLoop (hv : v < q.vars.size) (side : Side) : ∃ a' i b' j,
    a.mergeLoop side (a.blockOf (e.var v)) = .ok (a', i) ∧
      b.mergeLoop side (b.blockOf v) = .ok (b', j) ∧ Mirrors e q a' b' := by
  -- Every merge leaves one block less.
  induction hn : b.standing using Nat.strong_induction_on generalizing a b v with
  | _ n ih =>
    let i := a.blockOf (e.var v)
    let j := b.blockOf v
    let a₁ := a.ensureBoundary side i
    let b₁ := b.ensureBoundary side j
    have hidle : Idle a a₁ := .ensureBoundary a side i
    have hidle' : Idle b b₁ := .ensureBoundary b side j
    have h₁ : Mirrors e q a₁ b₁ := hidle'.right (hidle.left h)
    have hi : a₁.blockOf (e.var v) = i := hidle.still.blockOf_eq _
    have hj : b₁.blockOf v = j := hidle'.still.blockOf_eq _
    have hk : a₁.Known side i := known_ensureBoundary (h.intact.standing _ (h.var_lt hv))
    have hk' : b₁.Known side j := known_ensureBoundary (h.intact'.standing _ (h.var_lt' hv))
    have hstanding : (b₁.block? j).isSome := by
      rw [← hj]
      exact h₁.intact'.standing _ (h₁.var_lt' hv)
    have hnext := h₁.nextMerge_eq hv (hi.symm ▸ hk) (hj.symm ▸ hk')
    rw [hi, hj] at hnext
    cases hc : b₁.nextMerge side j with
    | none =>
      rw [hc] at hnext
      exact ⟨a₁, i, b₁, j, mergeLoop_of_none hnext, mergeLoop_of_none hc, h₁⟩
    | some c =>
      rw [hc] at hnext
      have hcross := (h₁.intact'.nextMerge_crosses hstanding hk' hc).1
      have hlt : c < q.constraints.size := Problem.size_constraints_eq h₁.given_eq ▸ hcross.lt_size
      let far := a₁.blockOf ((a₁.problem.constraintAt (e.con c)).endOn side)
      let far' := b₁.blockOf ((b₁.problem.constraintAt c).endOn side)
      let a₂ := a₁.ensureBoundary side far
      let b₂ := b₁.ensureBoundary side far'
      have h₂ : Mirrors e q a₂ b₂ :=
        (Idle.ensureBoundary b₁ side far').right ((Idle.ensureBoundary a₁ side far).left h₁)
      have hproblem : b₂.problem = b₁.problem := problem_ensureBoundary b₁ side far'
      have hne : b₂.leftBlock c ≠ b₂.rightBlock c := by
        rw [leftBlock, rightBlock, blockOf, blockOf, hproblem]
        exact hcross.ends_ne
      obtain ⟨a', t, b', t', hm, hm', h'⟩ := h₂.merge hlt hne
      have ht : a'.blockOf (e.var (b₂.problem.edges.left c)) = t := by
        rw [← h₂.left_eq hlt]
        exact blockOf_left_of_merge h₂.intact hm
      have ht' : b'.blockOf (b₂.problem.edges.left c) = t' := blockOf_left_of_merge h₂.intact' hm'
      have hless := standing_merge hm'
      rw [standing_ensureBoundary, standing_ensureBoundary] at hless
      have hrest := ih b'.standing (by omega) h' (h₂.left_lt hlt) rfl
      rw [ht, ht'] at hrest
      rwa [mergeLoop_of_merge hnext hm, mergeLoop_of_merge hc hm']

theorem mergeTowards (hv : v < q.vars.size) (side : Side) : ∃ a' i b' j,
    a.mergeTowards side (a.blockOf (e.var v)) = .ok (a', i) ∧
      b.mergeTowards side (b.blockOf v) = .ok (b', j) ∧ Mirrors e q a' b' := by
  have h' := (Idle.collectBoundary b side (b.blockOf v)).right
    ((Idle.collectBoundary a side (a.blockOf (e.var v))).left h)
  exact h'.mergeLoop hv side

theorem blockOf_ne_end (hlt : c < a.problem.constraints.size)
    (hc : ∀ d < q.constraints.size, e.con d ≠ c) (hv : v < q.vars.size) (side : Side) :
    a.blockOf (e.var v) ≠ a.blockOf (a.problem.edges.endOn side c) := by
  intro hb
  have hend := h.intact.consistent.endOn_lt hlt side
  obtain ⟨u, hu, heq⟩ := h.reaches_of_blockOf hv hend hb.symm
  obtain ⟨d, hd, hdc⟩ := h.part.exists_con h.intact.consistent h.consistent hlt side hu heq.symm
  exact hc d hd hdc

theorem filter_roots_apart (P : BlockId → Bool) (hP : ∀ v < q.vars.size, P (a.blockOf (e.var v))) :
    (a.roots.filter fun w => P (a.blockOf w)).filter (e.Reaches q.vars.size) =
      a.roots.filter (e.Reaches q.vars.size) := by
  rw [h.filter_roots P (fun _ => true) hP, List.filter_true, h.roots_eq]

theorem merged_apart (hc : ∀ d < q.constraints.size, e.con d ≠ c)
    (hm : Merged a a' c t r s x shift) : Elsewhere e q b a' t := by
  have hends (v : VarId) (hv : v < q.vars.size) :
      a.blockOf (e.var v) ≠ t ∧ a.blockOf (e.var v) ≠ r := by
    have hl := h.blockOf_ne_end hm.lt_size hc hv .left
    have hr := h.blockOf_ne_end hm.lt_size hc hv .right
    rcases hm.ends with ⟨ht, hr', -⟩ | ⟨ht, hr', -⟩
    · exact ⟨ht ▸ hl, hr' ▸ hr⟩
    · exact ⟨ht ▸ hr, hr' ▸ hl⟩
  have hout (v : VarId) (hv : v < q.vars.size) : e.var v ∉ x.members :=
    fun hmem => (hends v hv).2 (h.intact.blockOf_eq hm.absorbed hmem)
  constructor
  case mirrors =>
    apply h.of_eq_left (hm.intact h.intact) (hm.charted h.intact h.charted) hm.given_eq
    · intro v hv
      rw [hm.offset_eq h.intact, if_neg (hout v hv)]
    · intro d hd
      rw [hm.active_eq, Set.mem_insert_iff]
      exact or_iff_right (hc d hd)
    · intro v hv
      rw [hm.home_eq h.intact (h.var_lt hv), if_neg (not_or.mpr (hends v hv))]
    · rw [hm.roots_eq h.intact]
      exact h.filter_roots_apart (fun i => i ≠ r) fun v hv => decide_eq_true (hends v hv).2
  case ne =>
    intro v hv
    rw [hm.blockOf_of_ne h.intact (hends v hv).2]
    exact (hends v hv).1

end Mirrors

theorem loopInvariant_elsewhere (e : Renaming) (q : Problem α) (b : Arrangement α) (side : Side) :
    LoopInvariant side (Elsewhere e q b) where
  collect a i j _ h := ⟨(Idle.collectBoundary a side j).left h.mirrors, h.ne⟩
  merge a i c a' t ha hb hk h hn hcross hm := by
    obtain ⟨_, _, _, _, hm⟩ := merged_of_merge hm
    apply h.mirrors.merged_apart _ hm
    rintro d hd rfl
    have hnear := hcross.near
    rw [h.mirrors.endOn_eq hd] at hnear
    exact h.ne _ (h.mirrors.endOn_lt hd _) hnear

end Spacing.Arrangement
