import Spacing.Proofs.Arrangement.Loop
import Spacing.Proofs.Arrangement.Still

namespace Spacing.Arrangement

variable {α : Type} [Scalar α] {a a' a'' : Arrangement α} {b i t r : BlockId} {s B : Block α}
  {c : ConId} {v : VarId} {shift : α} {side : Side} {bs : List BlockId}

def Informed (a : Arrangement α) : Prop :=
  ∀ b B, a.block? b = some B → ∀ side cs, B.boundary side = some cs → ∀ c, a.Crosses side b c → c ∈ cs

theorem Intact.informed (ha : a.Intact) : a.Informed :=
  fun b B hB side cs hcs => (ha.covers b B hB side cs hcs).all

/-- The blocks `bs` have become the block `t`. The others are as they were, but for what they know of
their boundaries. -/
structure Fused (a a' : Arrangement α) (bs : List BlockId) (t : BlockId) : Prop where
  nodup : bs.Nodup
  mem : t ∈ bs
  standing : ∀ i ∈ bs, (a.block? i).isSome
  union : ∃ B, a'.block? t = some B ∧ B.members.Perm (bs.flatMap fun i => (a.blockAt i).members)
  retired : ∀ i ∈ bs, i ≠ t → a'.block? i = none
  body_eq : ∀ i, i ∉ bs → (a'.block? i).map Block.body = (a.block? i).map Block.body
  variableAt_eq : ∀ v < a.problem.vars.size, a.blockOf v ∉ bs →
    a'.problem.variableAt v = a.problem.variableAt v
  given_eq : a'.problem.given = a.problem.given

namespace Fused

theorem refl (hb : (a.block? b).isSome) : Fused a a [b] b where
  nodup := List.nodup_singleton b
  mem := List.mem_singleton_self b
  standing i hi := by
    obtain rfl := List.mem_singleton.mp hi
    exact hb
  union := by
    obtain ⟨B, hB⟩ := Option.isSome_iff_exists.mp hb
    refine ⟨B, hB, ?_⟩
    rw [List.flatMap_singleton, blockAt_eq hB]
  retired _ hi hib := absurd (List.mem_singleton.mp hi) hib
  body_eq _ _ := rfl
  variableAt_eq _ _ _ := rfl
  given_eq := rfl

variable (h : Fused a a' bs t)
include h

theorem still (hs : Still a' a'') (hv : ∀ v, a''.problem.variableAt v = a'.problem.variableAt v) :
    Fused a a'' bs t where
  nodup := h.nodup
  mem := h.mem
  standing := h.standing
  union := by
    obtain ⟨B, hB, hperm⟩ := h.union
    have hbody := hs.body_eq t
    rw [hB, Option.map_some] at hbody
    obtain ⟨B', hB', hbody⟩ := Option.map_eq_some_iff.mp hbody
    have hmembers : B'.members = B.members := (congrArg Block.members hbody :)
    exact ⟨B', hB', hmembers ▸ hperm⟩
  retired i hi hit := by
    have hbody := hs.body_eq i
    rw [h.retired i hi hit] at hbody
    exact Option.map_eq_none_iff.mp hbody
  body_eq i hi := (hs.body_eq i).trans (h.body_eq i hi)
  variableAt_eq v hlt hv' := (hv v).trans (h.variableAt_eq v hlt hv')
  given_eq := hs.given_eq.trans h.given_eq

theorem blockAt_body (hi : i ∉ bs) : (a'.blockAt i).body = (a.blockAt i).body := by
  rw [body_blockAt, body_blockAt, h.body_eq i hi]

theorem blockOf_eq (hv : v < a.problem.vars.size) (hb : a.blockOf v ∉ bs) :
    a'.blockOf v = a.blockOf v :=
  congrArg Variable.block (h.variableAt_eq v hv hb)

theorem blockOf_iff (ha : a.Intact) (ha' : a'.Intact) (hv : v < a.problem.vars.size) :
    a'.blockOf v = t ↔ a.blockOf v ∈ bs := by
  constructor
  · intro hvt
    by_contra hb
    rw [h.blockOf_eq hv hb] at hvt
    exact hb (hvt ▸ h.mem)
  · intro hb
    obtain ⟨B, hB, hperm⟩ := h.union
    apply ha'.blockOf_eq hB
    apply hperm.mem_iff.mpr
    obtain ⟨A, hA⟩ := ha.exists_block hv
    refine List.mem_flatMap.mpr ⟨a.blockOf v, hb, ?_⟩
    rw [blockAt_eq hA]
    exact ha.mem_of_blockOf hA hv rfl

theorem position_eq (hv : v < a.problem.vars.size) (hb : a.blockOf v ∉ bs) :
    a'.position v = a.position v := by
  have hplace : (a'.blockAt (a.blockOf v)).position = (a.blockAt (a.blockOf v)).position :=
    (congrArg Block.position (h.blockAt_body hb) :)
  rw [Arrangement.position, h.blockOf_eq hv hb, h.variableAt_eq v hv hb, hplace]
  rfl

end Fused

theorem Merged.ends_of_crosses (h : Merged a a' c t r s B shift) (hc : a.Crosses side b c) :
    (t = b ∧ r = a.blockOf (a.problem.edges.endOn side c)) ∨
      (t = a.blockOf (a.problem.edges.endOn side c) ∧ r = b) := by
  rcases hc.blocks with ⟨-, hnear, hfar⟩ | ⟨-, hnear, hfar⟩
  · rw [← hnear, ← hfar]
    exact h.ends.symm.imp (fun hr => ⟨hr.1, hr.2.1⟩) fun hl => ⟨hl.1, hl.2.1⟩
  · rw [← hnear, ← hfar]
    exact h.ends.imp (fun hl => ⟨hl.1, hl.2.1⟩) fun hr => ⟨hr.1, hr.2.1⟩

theorem Merged.fused (hm : Merged a' a'' c t r s B shift) (h : Fused a a' bs b) (ha' : a'.Intact)
    (hc : a'.Crosses side b c) :
    Fused a a'' (bs ++ [a'.blockOf (a'.problem.edges.endOn side c)]) t := by
  have hpair := hm.ends_of_crosses hc
  have hne := hc.far
  have hsome := ha'.standing _ (ha'.consistent.endOn_lt hc.lt_size side)
  generalize a'.blockOf (a'.problem.edges.endOn side c) = far at hpair hne hsome ⊢
  -- What has been merged into another block holds nothing, so the far block is not one of those.
  have hnew : far ∉ bs := by
    intro hfar
    rw [h.retired far hfar hne] at hsome
    cases hsome
  have hfar : (a'.blockAt far).members = (a.blockAt far).members :=
    (congrArg Block.members (h.blockAt_body hnew) :)
  have htr : t ∈ bs ++ [far] ∧ r ∈ bs ++ [far] := by
    have hb := h.mem
    rcases hpair with ⟨rfl, rfl⟩ | ⟨rfl, rfl⟩ <;> simp [hb]
  constructor
  case nodup =>
    rw [← List.concat_eq_append]
    exact h.nodup.concat hnew
  case mem => exact htr.1
  case standing =>
    intro i hi
    rcases List.mem_append.mp hi with hi | hi
    · exact h.standing i hi
    · have hbody := congrArg Option.isSome (h.body_eq far hnew)
      rw [Option.isSome_map, Option.isSome_map] at hbody
      rw [List.mem_singleton.mp hi, ← hbody]
      exact hsome
  case union =>
    refine ⟨_, hm.block?_survivor, ?_⟩
    obtain ⟨C, hC, hperm⟩ := h.union
    rw [List.flatMap_append, List.flatMap_singleton, ← hfar]
    rcases hpair with ⟨rfl, rfl⟩ | ⟨rfl, rfl⟩
    · obtain rfl : C = s := Option.some.inj (hC.symm.trans hm.survivor)
      rw [blockAt_eq hm.absorbed]
      exact hperm.append_right B.members
    · obtain rfl : C = B := Option.some.inj (hC.symm.trans hm.absorbed)
      rw [blockAt_eq hm.survivor]
      exact List.perm_append_comm.trans (hperm.append_right s.members)
  case retired =>
    intro i hi hit
    by_cases hir : i = r
    · rw [hm.block?_eq, if_neg hit, if_pos hir]
    · rw [hm.block?_of_ne hit hir]
      have hib : i ≠ b ∧ i ≠ far := by
        rcases hpair with ⟨rfl, rfl⟩ | ⟨rfl, rfl⟩
        · exact ⟨hit, hir⟩
        · exact ⟨hir, hit⟩
      refine h.retired i ((List.mem_append.mp hi).resolve_right ?_) hib.1
      exact fun hi => hib.2 (List.mem_singleton.mp hi)
  case body_eq =>
    intro i hi
    have hit : i ≠ t := fun he => hi (he ▸ htr.1)
    have hir : i ≠ r := fun he => hi (he ▸ htr.2)
    rw [hm.block?_of_ne hit hir]
    exact h.body_eq i fun hib => hi (List.mem_append_left _ hib)
  case variableAt_eq =>
    intro v hv hout
    have hb : a.blockOf v ∉ bs := fun hb => hout (List.mem_append_left _ hb)
    have hmem : v ∉ B.members := by
      intro hvB
      apply hout
      rw [← h.blockOf_eq hv hb, ha'.blockOf_eq hm.absorbed hvB]
      exact htr.2
    rw [hm.variableAt_eq ha', if_neg hmem]
    exact h.variableAt_eq v hv hb
  case given_eq => exact hm.given_eq.trans h.given_eq

theorem loopInvariant_fused (a : Arrangement α) (side : Side) (b : BlockId) :
    LoopInvariant side fun a' t => ∃ bs, b ∈ bs ∧ Fused a a' bs t where
  collect := by
    rintro a' t i - ⟨bs, hb, h⟩
    exact ⟨bs, hb, h.still (still_collectBoundary a' side i) fun _ => rfl⟩
  merge := by
    rintro a' t c a'' t' ha' - - ⟨bs, hb, h⟩ - hc hm
    obtain ⟨r, s, B, shift, hmerged⟩ := merged_of_merge hm
    exact ⟨_, List.mem_append_left _ hb, hmerged.fused h ha' hc⟩

end Spacing.Arrangement
