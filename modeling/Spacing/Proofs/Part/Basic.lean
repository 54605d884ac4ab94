import Mathlib.Order.Monotone.Defs
import Spacing.Proofs.Arrangement.Charted
import Spacing.Proofs.Arrangement.Still
import Spacing.Proofs.Frame.Basic
/-!
Parts of a problem: some of its variables, with all their constraints. An arrangement of the problem
mirrors one of the part if the blocks with variables of the part are the blocks of the part, in the same
order, whatever their handles are and whatever else there is.
-/

namespace Spacing

open Relation

structure Renaming where
  var : VarId → VarId
  con : ConId → ConId
  var_mono : StrictMono var
  con_mono : StrictMono con

namespace Renaming

variable {e : Renaming} {n : Nat} {u v w : VarId} {c d : ConId}

def Reaches (e : Renaming) (n : Nat) (w : VarId) : Prop :=
  ∃ v, v < n ∧ e.var v = w

instance : Decidable (e.Reaches n w) :=
  inferInstanceAs (Decidable (∃ v, v < n ∧ e.var v = w))

theorem reaches_var : e.Reaches n (e.var v) ↔ v < n := by
  constructor
  · rintro ⟨u, hu, he⟩
    exact e.var_mono.injective he ▸ hu
  · exact fun hv => ⟨v, hv, rfl⟩

theorem var_inj : e.var u = e.var v ↔ u = v :=
  e.var_mono.injective.eq_iff

theorem con_inj : e.con c = e.con d ↔ c = d :=
  e.con_mono.injective.eq_iff

end Renaming

variable {α : Type}

def Block.renamed (f : VarId → VarId) (b : Block α) : Block α :=
  { b with members := b.members.map f }

variable [Scalar α] {e : Renaming}

theorem firstLeast_map {β γ : Type} {key : γ → α} {key' : β → α} {f : β → γ} {xs : List β}
    (h : ∀ x ∈ xs, key (f x) = key' x) :
    firstLeast key (xs.map f) = (firstLeast key' xs).map f := by
  rw [← firstLeast_congr h]
  cases xs with
  | nil => rfl
  | cons x xs =>
    simp only [firstLeast, List.map_cons, List.foldl_map, Option.map_some, Option.some.injEq]
    clear h
    induction xs generalizing x with
    | nil => rfl
    | cons y xs ih =>
      simp only [List.foldl_cons]
      split
      · exact ih y
      · exact ih x

namespace Problem

structure Contains (e : Renaming) (p q : Problem α) : Prop where
  var_lt : ∀ v < q.vars.size, e.var v < p.vars.size
  con_lt : ∀ c < q.constraints.size, e.con c < p.constraints.size
  desired_eq : ∀ v < q.vars.size, (p.variableAt (e.var v)).desired = (q.variableAt v).desired
  weight_eq : ∀ v < q.vars.size, (p.variableAt (e.var v)).weight = (q.variableAt v).weight
  left_eq : ∀ c < q.constraints.size, p.edges.left (e.con c) = e.var (q.edges.left c)
  right_eq : ∀ c < q.constraints.size, p.edges.right (e.con c) = e.var (q.edges.right c)
  gap_eq : ∀ c < q.constraints.size, (p.constraintAt (e.con c)).gap = (q.constraintAt c).gap
  equality_eq : ∀ c < q.constraints.size,
    (p.constraintAt (e.con c)).equality = (q.constraintAt c).equality

theorem Contains.endOn_eq {p q : Problem α} {c : ConId} (h : p.Contains e q)
    (hc : c < q.constraints.size) (side : Side) :
    p.edges.endOn side (e.con c) = e.var (q.edges.endOn side c) := by
  cases side
  · exact h.left_eq c hc
  · exact h.right_eq c hc

/-- The constraints of `q` are in the same order also at each variable, and there are no other
constraints of `p` at the variables of `q`. -/
structure Part (e : Renaming) (p q : Problem α) : Prop extends Contains e p q where
  ins_eq : ∀ v < q.vars.size, (p.variableAt (e.var v)).ins = (q.variableAt v).ins.map e.con
  outs_eq : ∀ v < q.vars.size, (p.variableAt (e.var v)).outs = (q.variableAt v).outs.map e.con

namespace Part

variable {p p' q q' : Problem α} {c : ConId} {v : VarId}

theorem given (h : p.Part e q) (hp : p'.given = p.given) (hq : q'.given = q.given) : p'.Part e q' where
  var_lt v hv := size_vars_eq hp ▸ h.var_lt v (size_vars_eq hq ▸ hv)
  con_lt c hc := size_constraints_eq hp ▸ h.con_lt c (size_constraints_eq hq ▸ hc)
  desired_eq v hv := by
    rw [Problem.desired_eq hp, h.desired_eq v (size_vars_eq hq ▸ hv), Problem.desired_eq hq]
  weight_eq v hv := by
    rw [Problem.weight_eq hp, h.weight_eq v (size_vars_eq hq ▸ hv), Problem.weight_eq hq]
  ins_eq v hv := by rw [Problem.ins_eq hp, h.ins_eq v (size_vars_eq hq ▸ hv), Problem.ins_eq hq]
  outs_eq v hv := by rw [Problem.outs_eq hp, h.outs_eq v (size_vars_eq hq ▸ hv), Problem.outs_eq hq]
  left_eq c hc := by rw [edges_eq hp, h.left_eq c (size_constraints_eq hq ▸ hc), edges_eq hq]
  right_eq c hc := by rw [edges_eq hp, h.right_eq c (size_constraints_eq hq ▸ hc), edges_eq hq]
  gap_eq c hc := by
    rw [Problem.gap_eq hp, h.gap_eq c (size_constraints_eq hq ▸ hc), Problem.gap_eq hq]
  equality_eq c hc := by
    rw [Problem.equality_eq hp, h.equality_eq c (size_constraints_eq hq ▸ hc), Problem.equality_eq hq]

variable (h : p.Part e q)
include h

theorem towards_eq (hv : v < q.vars.size) (side : Side) :
    (p.variableAt (e.var v)).towards side = ((q.variableAt v).towards side).map e.con := by
  cases side
  · exact h.ins_eq v hv
  · exact h.outs_eq v hv

theorem exists_con (hp : p.Consistent) (hq : q.Consistent) (hc : c < p.constraints.size) (side : Side)
    (hv : v < q.vars.size) (hend : p.edges.endOn side c = e.var v) :
    ∃ d < q.constraints.size, e.con d = c := by
  have hmem : c ∈ (p.variableAt (e.var v)).towards side.other := by
    apply (hp.mem_towards side.other).mpr
    cases side <;> exact ⟨hc, hend⟩
  rw [h.towards_eq hv, List.mem_map] at hmem
  obtain ⟨d, hd, rfl⟩ := hmem
  exact ⟨d, ((hq.mem_towards _).mp hd).1, rfl⟩

end Part

end Problem

namespace Arrangement

variable {a a' b : Arrangement α} {q : Problem α} {c : ConId} {u v w : VarId} {side : Side}
  {cs : List ConId}

def home (a : Arrangement α) (v : VarId) : Block α :=
  (a.blockAt (a.blockOf v)).body

def roots (a : Arrangement α) : List VarId :=
  a.blockIds.filterMap fun i => (a.blockAt i).members.head?

theorem home_eq {i : BlockId} {B : Block α} (hi : a.blockOf v = i) (hB : a.block? i = some B) :
    a.home v = B.body := by
  rw [home, hi, blockAt_eq hB]

theorem position_eq_home (v : VarId) :
    a.position v = (a.home v).position + (a.problem.variableAt v).offset := rfl

theorem Intact.mem_home (ha : a.Intact) (hv : v < a.problem.vars.size) :
    w ∈ (a.home v).members ↔ w < a.problem.vars.size ∧ a.blockOf w = a.blockOf v := by
  obtain ⟨B, hB⟩ := ha.exists_block hv
  rw [home_eq rfl hB]
  exact ha.mem_iff _ B hB w

theorem Intact.mem_roots (ha : a.Intact) : w ∈ a.roots ↔
    w < a.problem.vars.size ∧ (a.home w).members.head? = some w := by
  simp only [roots, List.mem_filterMap, mem_blockIds ha]
  constructor
  · rintro ⟨i, hi, hw⟩
    obtain ⟨B, hB⟩ := Option.isSome_iff_exists.mp hi
    rw [blockAt_eq hB] at hw
    have hmem := List.mem_of_mem_head? hw
    exact ⟨ha.lt_of_mem hB hmem, by rwa [home_eq (ha.blockOf_eq hB hmem) hB]⟩
  · rintro ⟨hlt, hw⟩
    exact ⟨a.blockOf w, ha.standing w hlt, hw⟩

theorem Intact.map_blockOf_roots (ha : a.Intact) : a.roots.map a.blockOf = a.blockIds := by
  have hroot (i : BlockId) (hi : i ∈ a.blockIds) :
      (a.blockAt i).members.head?.map a.blockOf = some i := by
    obtain ⟨B, hB⟩ := Option.isSome_iff_exists.mp ((mem_blockIds ha).mp hi)
    rw [blockAt_eq hB]
    cases hm : B.members with
    | nil => exact absurd hm (ha.nonempty i B hB)
    | cons v vs => simpa using ha.blockOf_eq hB (hm ▸ List.mem_cons_self)
  rw [roots, List.map_filterMap, List.filterMap_congr hroot, List.filterMap_some]

/-- On the part `q` of its problem, `a` is as `b`. -/
structure Mirrors (e : Renaming) (q : Problem α) (a b : Arrangement α) : Prop where
  intact : a.Intact
  intact' : b.Intact
  charted : a.Charted
  charted' : b.Charted
  part : a.problem.Part e q
  given_eq : b.problem.given = q.given
  offset_eq : ∀ v < q.vars.size,
    (a.problem.variableAt (e.var v)).offset = (b.problem.variableAt v).offset
  active_iff : ∀ c < q.constraints.size, e.con c ∈ a.problem.active ↔ c ∈ b.problem.active
  home_eq : ∀ v < q.vars.size, a.home (e.var v) = (b.home v).renamed e.var
  roots_eq : a.roots.filter (e.Reaches q.vars.size) = b.roots.map e.var

namespace Mirrors

variable (h : Mirrors e q a b)
include h

theorem consistent : q.Consistent :=
  h.intact'.consistent.of_given h.given_eq.symm

theorem part' : a.problem.Part e b.problem :=
  h.part.given rfl h.given_eq

theorem var_lt (hv : v < q.vars.size) : e.var v < a.problem.vars.size :=
  h.part.var_lt v hv

theorem var_lt' (hv : v < q.vars.size) : v < b.problem.vars.size :=
  Problem.size_vars_eq h.given_eq ▸ hv

theorem endOn_eq (hc : c < q.constraints.size) (side : Side) :
    a.problem.edges.endOn side (e.con c) = e.var (b.problem.edges.endOn side c) := by
  rw [h.part.endOn_eq hc, Problem.edges_eq h.given_eq]

theorem endOn_lt (hc : c < q.constraints.size) (side : Side) :
    b.problem.edges.endOn side c < q.vars.size := by
  rw [Problem.edges_eq h.given_eq]
  exact h.consistent.endOn_lt hc side

theorem left_eq (hc : c < q.constraints.size) :
    a.problem.edges.left (e.con c) = e.var (b.problem.edges.left c) :=
  h.endOn_eq hc .left

theorem right_eq (hc : c < q.constraints.size) :
    a.problem.edges.right (e.con c) = e.var (b.problem.edges.right c) :=
  h.endOn_eq hc .right

theorem left_lt (hc : c < q.constraints.size) : b.problem.edges.left c < q.vars.size :=
  h.endOn_lt hc .left

theorem right_lt (hc : c < q.constraints.size) : b.problem.edges.right c < q.vars.size :=
  h.endOn_lt hc .right

theorem var_mem_home (hv : v < q.vars.size) :
    e.var u ∈ (a.home (e.var v)).members ↔ u ∈ (b.home v).members := by
  rw [h.home_eq v hv]
  exact List.mem_map_of_injective e.var_mono.injective

theorem blockOf_iff (hu : u < q.vars.size) (hv : v < q.vars.size) :
    a.blockOf (e.var u) = a.blockOf (e.var v) ↔ b.blockOf u = b.blockOf v := by
  have hmem := h.var_mem_home (u := u) hv
  rw [h.intact.mem_home (h.var_lt hv), h.intact'.mem_home (h.var_lt' hv)] at hmem
  simpa [h.var_lt hu, h.var_lt' hu] using hmem

theorem members_eq {A B : Block α} (hv : v < q.vars.size)
    (hA : a.block? (a.blockOf (e.var v)) = some A) (hB : b.block? (b.blockOf v) = some B) :
    A.members = B.members.map e.var := by
  have hbody := h.home_eq v hv
  rw [Arrangement.home_eq rfl hA, Arrangement.home_eq rfl hB] at hbody
  exact (congrArg Block.members hbody :)

theorem reaches_of_blockOf (hv : v < q.vars.size) (hw : w < a.problem.vars.size)
    (hwv : a.blockOf w = a.blockOf (e.var v)) : e.Reaches q.vars.size w := by
  have hmem := (h.intact.mem_home (h.var_lt hv)).mpr ⟨hw, hwv⟩
  rw [h.home_eq v hv] at hmem
  obtain ⟨u, hu, rfl⟩ := List.mem_map.mp hmem
  have hlt := ((h.intact'.mem_home (h.var_lt' hv)).mp hu).1
  exact ⟨u, Problem.size_vars_eq h.given_eq ▸ hlt, rfl⟩

theorem position_eq (hv : v < q.vars.size) : a.position (e.var v) = b.position v := by
  rw [position_eq_home, position_eq_home, h.home_eq v hv, h.offset_eq v hv]
  rfl

theorem gap_eq (hc : c < q.constraints.size) :
    (a.problem.constraintAt (e.con c)).gap = (b.problem.constraintAt c).gap :=
  (h.part.gap_eq c hc).trans (Problem.gap_eq h.given_eq c).symm

theorem equality_eq (hc : c < q.constraints.size) :
    (a.problem.constraintAt (e.con c)).equality = (b.problem.constraintAt c).equality :=
  (h.part.equality_eq c hc).trans (Problem.equality_eq h.given_eq c).symm

theorem slack_eq (hc : c < q.constraints.size) : a.slack (e.con c) = b.slack c := by
  have hl : (a.problem.constraintAt (e.con c)).left = e.var (b.problem.constraintAt c).left :=
    h.left_eq hc
  have hr : (a.problem.constraintAt (e.con c)).right = e.var (b.problem.constraintAt c).right :=
    h.right_eq hc
  have hlt : (b.problem.constraintAt c).left < q.vars.size := h.left_lt hc
  have hlt' : (b.problem.constraintAt c).right < q.vars.size := h.right_lt hc
  simp only [slack, hl, hr, h.gap_eq hc, h.position_eq hlt, h.position_eq hlt']

theorem crossing_eq (hv : v < q.vars.size) (hcs : ∀ c ∈ cs, c < q.constraints.size) :
    a.crossing side (a.blockOf (e.var v)) (cs.map e.con) =
      (b.crossing side (b.blockOf v) cs).map e.con := by
  rw [crossing, List.filter_map, crossing]
  apply congrArg (List.map e.con)
  apply List.filter_congr
  intro c hc
  have hc := hcs c hc
  have hiff := h.blockOf_iff (h.endOn_lt hc side) hv
  simp only [Function.comp_apply, Problem.endOn_edges, h.endOn_eq hc]
  simp [hiff]

theorem mostUrgent_eq (hcs : ∀ c ∈ cs, c < q.constraints.size) :
    a.mostUrgent (cs.map e.con) = (b.mostUrgent cs).map e.con := by
  have hfind : (cs.map e.con).find? (fun c => (a.problem.constraintAt c).equality) =
      (cs.find? fun c => (b.problem.constraintAt c).equality).map e.con := by
    rw [List.find?_map, ← List.head?_filter, ← List.head?_filter]
    apply congrArg fun xs : List ConId => xs.head?.map e.con
    exact List.filter_congr fun c hc => h.equality_eq (hcs c hc)
  rw [mostUrgent, hfind, mostUrgent]
  cases cs.find? fun c => (b.problem.constraintAt c).equality with
  | none => exact firstLeast_map fun c hc => h.slack_eq (hcs c hc)
  | some c => rfl

theorem needsMerge_eq (hc : c < q.constraints.size) : a.needsMerge (e.con c) = b.needsMerge c := by
  rw [needsMerge, needsMerge, h.equality_eq hc, h.slack_eq hc]

theorem listed_eq {members : List VarId} (hm : ∀ v ∈ members, v < q.vars.size) :
    a.listed side (members.map e.var) = (b.listed side members).map e.con := by
  rw [listed, listed, List.flatMap_map, List.map_flatMap]
  apply List.flatMap_congr
  intro v hv
  have htowards : (b.problem.variableAt v).towards side = (q.variableAt v).towards side := by
    cases side
    · exact Problem.ins_eq h.given_eq v
    · exact Problem.outs_eq h.given_eq v
  rw [h.part.towards_eq (hm v hv), htowards]

theorem nextMerge_eq (hv : v < q.vars.size) (hk : a.Known side (a.blockOf (e.var v)))
    (hk' : b.Known side (b.blockOf v)) :
    a.nextMerge side (a.blockOf (e.var v)) = (b.nextMerge side (b.blockOf v)).map e.con := by
  obtain ⟨A, hA⟩ := h.intact.exists_block (h.var_lt hv)
  obtain ⟨B, hB⟩ := h.intact'.exists_block (h.var_lt' hv)
  have hm (v : VarId) (hv : v ∈ B.members) : v < q.vars.size :=
    Problem.size_vars_eq h.given_eq ▸ h.intact'.lt_of_mem hB hv
  have hlt (c : ConId) (hc : c ∈ b.crossing side (b.blockOf v) (b.listed side B.members)) :
      c < q.constraints.size :=
    Problem.size_constraints_eq h.given_eq ▸
      h.intact'.lt_of_mem_listed (List.mem_filter.mp hc).1
  rw [h.charted.nextMerge_eq hA hk, h.charted'.nextMerge_eq hB hk', h.members_eq hv hA hB,
    h.listed_eq hm, h.crossing_eq hv fun c hc => Problem.size_constraints_eq h.given_eq ▸
      h.intact'.lt_of_mem_listed hc, h.mostUrgent_eq hlt]
  cases hx : b.mostUrgent (b.crossing side (b.blockOf v) (b.listed side B.members)) with
  | none => rfl
  | some c =>
    have hneeds := h.needsMerge_eq (hlt c (mem_of_mostUrgent hx))
    simp only [Option.map_some, Option.filter_some, hneeds]
    split <;> rfl

theorem of_eq_left (ha' : a'.Intact) (hd : a'.Charted) (hg : a'.problem.given = a.problem.given)
    (hoffset : ∀ v < q.vars.size,
      (a'.problem.variableAt (e.var v)).offset = (a.problem.variableAt (e.var v)).offset)
    (hactive : ∀ c < q.constraints.size, e.con c ∈ a'.problem.active ↔ e.con c ∈ a.problem.active)
    (hhome : ∀ v < q.vars.size, a'.home (e.var v) = a.home (e.var v))
    (hroots : a'.roots.filter (e.Reaches q.vars.size) = a.roots.filter (e.Reaches q.vars.size)) :
    Mirrors e q a' b where
  intact := ha'
  intact' := h.intact'
  charted := hd
  charted' := h.charted'
  part := h.part.given hg rfl
  given_eq := h.given_eq
  offset_eq v hv := (hoffset v hv).trans (h.offset_eq v hv)
  active_iff c hc := (hactive c hc).trans (h.active_iff c hc)
  home_eq v hv := (hhome v hv).trans (h.home_eq v hv)
  roots_eq := hroots.trans h.roots_eq

end Mirrors

namespace Idle

variable (h : Idle a a')
include h

theorem home_eq (v : VarId) : a'.home v = a.home v := by
  rw [home, home, h.still.blockOf_eq, h.still.blockAt_body]

theorem roots_eq : a'.roots = a.roots := by
  simp only [roots, h.ids_eq, h.still.members_eq]

theorem left (hm : Mirrors e q a b) : Mirrors e q a' b := by
  apply hm.of_eq_left (hm.intact.steps h.steps) (hm.charted.steps hm.intact h.steps) h.still.given_eq
  · exact fun v _ => h.still.offset_eq _
  · exact fun c _ => by rw [h.still.active_eq]
  · exact fun v _ => h.home_eq _
  · rw [h.roots_eq]

theorem right (hm : Mirrors e q b a) : Mirrors e q b a' where
  intact := hm.intact
  intact' := hm.intact'.steps h.steps
  charted := hm.charted
  charted' := hm.charted'.steps hm.intact' h.steps
  part := hm.part
  given_eq := h.still.given_eq.trans hm.given_eq
  offset_eq v hv := (hm.offset_eq v hv).trans (h.still.offset_eq _).symm
  active_iff c hc := by
    rw [h.still.active_eq]
    exact hm.active_iff c hc
  home_eq v hv := (hm.home_eq v hv).trans (congrArg _ (h.home_eq v).symm)
  roots_eq := h.roots_eq ▸ hm.roots_eq

end Idle

end Arrangement

end Spacing
