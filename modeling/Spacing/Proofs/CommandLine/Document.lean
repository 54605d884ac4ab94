import Mathlib.Data.List.Nodup
import Spacing.CommandLine.Report
import Spacing.Proofs.Problem.Cycle
import Spacing.Proofs.Solver.Answer
import Spacing.Proofs.Solver.Given

namespace Spacing

open Relation

variable {α : Type} [Scalar α]

theorem foldlM_eq_ok {ε β γ : Type} {g : β → γ → Except ε β} {f : β → γ → β} {P : γ → Prop}
    (hg : ∀ x y z, g x y = .ok z ↔ P y ∧ z = f x y) {ys : List γ} {x z : β} :
    ys.foldlM g x = .ok z ↔ (∀ y ∈ ys, P y) ∧ z = ys.foldl f x := by
  induction ys generalizing x with
  | nil => simp [pure, Except.pure, eq_comm]
  | cons y ys ih =>
    rw [List.foldlM_cons, bind_eq_ok, List.foldl_cons, List.forall_mem_cons]
    constructor
    · rintro ⟨w, hw, h⟩
      obtain ⟨hy, rfl⟩ := (hg x y w).mp hw
      obtain ⟨hys, hz⟩ := ih.mp h
      exact ⟨⟨hy, hys⟩, hz⟩
    · rintro ⟨⟨hy, hys⟩, hz⟩
      exact ⟨f x y, (hg x y _).mpr ⟨hy, rfl⟩, ih.mpr ⟨hys, hz⟩⟩

theorem lookup_eq_some {β γ : Type} [BEq β] [LawfulBEq β] {xs : List (β × γ)} {x : β} {y : γ}
    (hn : (xs.map Prod.fst).Nodup) (h : (x, y) ∈ xs) : xs.lookup x = some y := by
  obtain ⟨front, back, rfl⟩ := List.append_of_mem h
  rw [List.lookup_eq_some_iff]
  refine ⟨front, back, rfl, fun z hz => ?_⟩
  rw [List.map_append, List.nodup_append] at hn
  have hne := hn.2.2 z.1 (List.mem_map_of_mem hz) x (by simp)
  simpa using Ne.symm hne

namespace Problem

variable {p q : Problem α} {u v left right : VarId} {c : ConId}

def variableEntries (p : Problem α) : List (VariableEntry α) :=
  p.variableIds.map fun v =>
    ⟨(p.variableAt v).id, (p.variableAt v).desired, (p.variableAt v).weight⟩

def constraintEntries (p : Problem α) : List (ConstraintEntry α) :=
  p.constraintIds.map fun c =>
    ⟨p.leftId c, p.rightId c, (p.constraintAt c).gap, (p.constraintAt c).equality⟩

def ids (p : Problem α) : List Nat :=
  p.variableEntries.map VariableEntry.id

theorem ids_eq_map (p : Problem α) : p.ids = p.variableIds.map fun v => (p.variableAt v).id := by
  rw [ids, variableEntries, List.map_map]
  rfl

theorem mem_ids {i : Nat} : i ∈ p.ids ↔ ∃ v < p.vars.size, (p.variableAt v).id = i := by
  simp [ids_eq_map, variableIds]

theorem id_injective (hn : p.ids.Nodup) (hu : u < p.vars.size) (hv : v < p.vars.size)
    (h : (p.variableAt u).id = (p.variableAt v).id) : u = v := by
  rw [ids_eq_map] at hn
  exact List.inj_on_of_nodup_map hn (List.mem_range.mpr hu) (List.mem_range.mpr hv) h

theorem id_idxOf {i : Nat} (hi : i ∈ p.ids) :
    p.ids.idxOf i < p.vars.size ∧ (p.variableAt (p.ids.idxOf i)).id = i := by
  have hlt := List.idxOf_lt_length_of_mem hi
  have hget : p.ids[p.ids.idxOf i] = i := List.getElem_idxOf hlt
  have hsize : p.ids.length = p.vars.size := by simp [ids_eq_map, variableIds]
  simp only [ids_eq_map, variableIds, List.getElem_map, List.getElem_range] at hget
  rw [ids_eq_map] at hlt hsize ⊢
  exact ⟨hsize ▸ hlt, hget⟩

theorem id_eq (h : p.given = q.given) (v : VarId) : (p.variableAt v).id = (q.variableAt v).id :=
  (congrArg Variable.id (variable_given_eq h v) :)

theorem variableEntries_given (h : p.given = q.given) : p.variableEntries = q.variableEntries := by
  simp only [variableEntries, variableIds, size_vars_eq h, id_eq h, desired_eq h, weight_eq h]

theorem constraintEntries_given (h : p.given = q.given) :
    p.constraintEntries = q.constraintEntries := by
  simp only [constraintEntries, constraintIds, leftId, rightId, size_constraints_eq h, id_eq h,
    left_eq h, right_eq h, gap_eq h, equality_eq h]

theorem variableEntries_insertVariable (id : Nat) (desired weight : α) :
    (p.insertVariable id desired weight).variableEntries =
      p.variableEntries ++ [⟨id, desired, weight⟩] := by
  have hsize : (p.insertVariable id desired weight).vars.size = p.vars.size + 1 := by
    simp [insertVariable]
  simp only [variableEntries, variableIds, hsize, List.range_succ, List.map_append,
    variableAt_insertVariable]
  congr 1
  · apply List.map_congr_left
    intro v hv
    rw [if_neg (Nat.ne_of_lt (List.mem_range.mp hv))]
  · simp

theorem variableEntries_insertConstraint (hl : left < p.vars.size) (hr : right < p.vars.size) (gap : α)
    (equality : Bool) :
    (p.insertConstraint left right gap equality).variableEntries = p.variableEntries := by
  have hsize : (p.insertConstraint left right gap equality).vars.size = p.vars.size := by
    simp [insertConstraint]
  simp only [variableEntries, variableIds, hsize, variableAt_insertConstraint _ _ hl hr]

theorem constraintEntries_insertConstraint (hl : left < p.vars.size) (hr : right < p.vars.size)
    (gap : α) (equality : Bool) :
    (p.insertConstraint left right gap equality).constraintEntries = p.constraintEntries ++
      [⟨(p.variableAt left).id, (p.variableAt right).id, gap, equality⟩] := by
  simp only [constraintEntries, constraintIds, leftId, rightId, size_insertConstraint, List.range_succ,
    List.map_append, constraintAt_insertConstraint, variableAt_insertConstraint _ _ hl hr]
  congr 1
  · apply List.map_congr_left
    intro c hc
    rw [if_neg (Nat.ne_of_lt (List.mem_range.mp hc))]
  · simp

theorem acyclic_iff_entries (hp : p.Consistent) (hn : p.ids.Nodup) : p.Acyclic ↔
    ∀ i, ¬ TransGen (fun i j => ∃ k ∈ p.constraintEntries, k.left = i ∧ k.right = j) i i := by
  have hentry {i j : Nat} (h : ∃ k ∈ p.constraintEntries, k.left = i ∧ k.right = j) :
      ∃ c < p.constraints.size, p.leftId c = i ∧ p.rightId c = j := by
    obtain ⟨k, hk, rfl, rfl⟩ := h
    obtain ⟨c, hc, rfl⟩ := List.mem_map.mp hk
    exact ⟨c, List.mem_range.mp hc, rfl, rfl⟩
  constructor
  · intro ha i hi
    have hlift {i j : Nat} (h : TransGen (fun i j => ∃ k ∈ p.constraintEntries, k.left = i ∧
        k.right = j) i j) : ∀ u < p.vars.size, (p.variableAt u).id = i →
          ∃ v < p.vars.size, (p.variableAt v).id = j ∧ TransGen p.Precedes u v := by
      intro u hu hid
      induction h with
      | single h =>
        obtain ⟨c, hc, hl, hr⟩ := hentry h
        have he : p.edges.left c = u := id_injective hn (hp.leftEnd_lt hc) hu (hl.trans hid.symm)
        exact ⟨p.edges.right c, hp.rightEnd_lt hc, hr, .single ⟨c, hc, he, rfl⟩⟩
      | tail _ h ih =>
        obtain ⟨v, hv, hid', huv⟩ := ih
        obtain ⟨c, hc, hl, hr⟩ := hentry h
        have he : p.edges.left c = v := id_injective hn (hp.leftEnd_lt hc) hv (hl.trans hid'.symm)
        exact ⟨p.edges.right c, hp.rightEnd_lt hc, hr, huv.tail ⟨c, hc, he, rfl⟩⟩
    obtain ⟨j, h, -⟩ := TransGen.head'_iff.mp hi
    obtain ⟨c, hc, hl, -⟩ := hentry h
    obtain ⟨v, hv, hid, hcycle⟩ := hlift hi _ (hp.leftEnd_lt hc) hl
    rw [id_injective hn hv (hp.leftEnd_lt hc) (hid.trans hl.symm)] at hcycle
    exact ha _ hcycle
  · intro ha v hv
    apply ha (p.variableAt v).id
    apply hv.lift fun v => (p.variableAt v).id
    rintro _ _ ⟨c, hc, rfl, rfl⟩
    exact ⟨_, List.mem_map_of_mem (List.mem_range.mpr hc), rfl, rfl⟩

end Problem

namespace SolveDocument

variable {d : SolveDocument α} {p q : Problem α} {x : VariableEntry α} {k : ConstraintEntry α}

def Weighable (x : VariableEntry α) : Prop :=
  (Scalar.isFinite x.weight = true ∧ Scalar.zero < x.weight) ∧ Scalar.isFinite x.desired = true

def Joins (d : SolveDocument α) (k : ConstraintEntry α) : Prop :=
  (k.left ∈ d.ids ∧ k.right ∈ d.ids) ∧ Scalar.isFinite k.gap = true

def Precedes (d : SolveDocument α) (i j : Nat) : Prop :=
  ∃ k ∈ d.constraints, k.left = i ∧ k.right = j

structure Valid (d : SolveDocument α) : Prop where
  weighable : ∀ x ∈ d.vars, Weighable x
  nodup : d.ids.Nodup
  joins : ∀ k ∈ d.constraints, d.Joins k
  acyclic : ∀ i, ¬ TransGen d.Precedes i i

/-! What the two loops make of a document that passes their checks. -/

def insert (p : Problem α) (x : VariableEntry α) : Problem α :=
  p.insertVariable x.id x.desired x.weight

def link (d : SolveDocument α) (p : Problem α) (k : ConstraintEntry α) : Problem α :=
  p.insertConstraint (d.ids.idxOf k.left) (d.ids.idxOf k.right) k.gap k.equality

def draft (d : SolveDocument α) : Problem α :=
  d.constraints.foldl d.link (d.vars.foldl insert Problem.empty)

theorem addVariable_eq_ok :
    addVariable p x = .ok q ↔ (Weighable x ∧ x.id ∉ p.ids) ∧ q = insert p x := by
  have hids : (p.vars.any fun y => y.id == x.id) = true ↔ x.id ∈ p.ids := by
    rw [Problem.mem_ids, Array.any_eq_true]
    constructor
    · rintro ⟨v, hv, h⟩
      refine ⟨v, hv, ?_⟩
      simpa [Problem.variableAt, hv] using h
    · rintro ⟨v, hv, h⟩
      refine ⟨v, hv, ?_⟩
      simpa [Problem.variableAt, hv] using h
  simp only [addVariable, Weighable, ← hids, Bool.not_eq_true', Bool.and_eq_false_iff,
    decide_eq_false_iff_not]
  split_ifs with hweight hdesired hrepeated
  · simp
    grind
  · simp [hdesired]
  · simp [hrepeated]
  · simp only [Except.ok.injEq, insert]
    grind

theorem addVariables_eq_ok {xs : List (VariableEntry α)} (hn : p.ids.Nodup) :
    xs.foldlM addVariable p = .ok q ↔
      (∀ x ∈ xs, Weighable x) ∧ (p.ids ++ xs.map VariableEntry.id).Nodup ∧ q = xs.foldl insert p := by
  induction xs generalizing p with
  | nil => simp [pure, Except.pure, hn, eq_comm]
  | cons x xs ih =>
    have hids : (insert p x).ids = p.ids ++ [x.id] := by
      simp [insert, Problem.ids, Problem.variableEntries_insertVariable]
    rw [List.foldlM_cons, bind_eq_ok, List.forall_mem_cons, List.foldl_cons, List.map_cons,
      ← List.singleton_append, ← List.append_assoc, ← hids]
    constructor
    · rintro ⟨r, hr, h⟩
      obtain ⟨⟨hx, hnew⟩, rfl⟩ := addVariable_eq_ok.mp hr
      have hn' : (insert p x).ids.Nodup := by
        rw [hids, ← List.concat_eq_append]
        exact hn.concat hnew
      obtain ⟨hxs, hall, hq⟩ := (ih hn').mp h
      exact ⟨⟨hx, hxs⟩, hall, hq⟩
    · rintro ⟨⟨hx, hxs⟩, hall, hq⟩
      have hn' : (insert p x).ids.Nodup := (List.nodup_append.mp hall).1
      have hnew : x.id ∉ p.ids := by
        rw [hids, List.nodup_append] at hn'
        exact fun hmem => hn'.2.2 _ hmem _ List.mem_cons_self rfl
      exact ⟨_, addVariable_eq_ok.mpr ⟨⟨hx, hnew⟩, rfl⟩, (ih hn').mpr ⟨hxs, hall, hq⟩⟩

omit [Scalar α] in
theorem lookUp_eq_ok {index id : Nat} {v : VarId} :
    d.lookUp index id = .ok v ↔ id ∈ d.ids ∧ v = d.ids.idxOf id := by
  unfold lookUp
  split
  · rename_i h
    rw [List.idxOf?_eq_none_iff] at h
    simp [h]
  · rename_i w h
    obtain ⟨hmem, rfl⟩ : id ∈ d.ids ∧ d.ids.idxOf id = w := by
      rw [List.idxOf?, List.findIdx?_eq_some_iff_findIdx_eq] at h
      have hlt : d.ids.idxOf id < d.ids.length := by
        rw [List.idxOf, h.2]
        exact h.1
      exact ⟨List.idxOf_lt_length_iff.mp hlt, h.2⟩
    simp [hmem, eq_comm]

theorem addConstraint_eq_ok {index : Nat} :
    d.addConstraint p (k, index) = .ok q ↔ d.Joins k ∧ q = d.link p k := by
  simp only [addConstraint, bind_eq_ok, lookUp_eq_ok, Joins, link]
  constructor
  · rintro ⟨l, ⟨hl, rfl⟩, r, ⟨hr, rfl⟩, h⟩
    split at h
    · cases h
    · cases h
      simp_all
  · rintro ⟨⟨⟨hl, hr⟩, hgap⟩, rfl⟩
    refine ⟨_, ⟨hl, rfl⟩, _, ⟨hr, rfl⟩, ?_⟩
    simp [hgap, pure, Except.pure]

theorem addConstraints_eq_ok : d.constraints.zipIdx.foldlM d.addConstraint p = .ok q ↔
    (∀ k ∈ d.constraints, d.Joins k) ∧ q = d.constraints.foldl d.link p := by
  have hfst : d.constraints = d.constraints.zipIdx.map Prod.fst := (List.zipIdx_map_fst ..).symm
  rw [foldlM_eq_ok (P := fun k => d.Joins k.1) (f := fun p k => d.link p k.1)
    fun _ _ _ => addConstraint_eq_ok]
  conv_rhs => rw [hfst, List.foldl_map, List.forall_mem_map]

theorem problem_eq_ok : d.problem = .ok p ↔ (∀ x ∈ d.vars, Weighable x) ∧ d.ids.Nodup ∧
    (∀ k ∈ d.constraints, d.Joins k) ∧ d.draft.isCyclic = false ∧ p = d.draft := by
  have hnone : (Problem.empty : Problem α).ids = [] := rfl
  simp only [problem, bind_eq_ok, addConstraints_eq_ok,
    addVariables_eq_ok (p := Problem.empty) List.nodup_nil, hnone, List.nil_append]
  constructor
  · rintro ⟨_, ⟨hvars, hn, rfl⟩, _, ⟨hjoins, rfl⟩, h⟩
    split at h
    · cases h
    · rename_i hcyclic
      cases h
      exact ⟨hvars, hn, hjoins, Bool.eq_false_iff.mpr hcyclic, rfl⟩
  · rintro ⟨hvars, hn, hjoins, hcyclic, rfl⟩
    refine ⟨_, ⟨hvars, hn, rfl⟩, d.draft, ⟨hjoins, rfl⟩, ?_⟩
    rw [hcyclic]
    rfl

/-! The problem of a document that is valid. -/

theorem edit_of_addVariable (h : addVariable p x = .ok q) :
    p.edit (.addVariable x.id x.desired x.weight) = .ok q := by
  obtain ⟨⟨hx, -⟩, rfl⟩ := addVariable_eq_ok.mp h
  exact if_pos hx.1.2

theorem inserted (hp : p.Built) {xs : List (VariableEntry α)} (hx : ∀ x ∈ xs, Weighable x) :
    (xs.foldl insert p).Built ∧ (xs.foldl insert p).variableEntries = p.variableEntries ++ xs ∧
      (xs.foldl insert p).constraintEntries.length = p.constraintEntries.length := by
  induction xs generalizing p with
  | nil => exact ⟨hp, (List.append_nil _).symm, rfl⟩
  | cons x xs ih =>
    obtain ⟨hx, hxs⟩ := List.forall_mem_cons.mp hx
    have hedit : p.edit (.addVariable x.id x.desired x.weight) = .ok (insert p x) := if_pos hx.1.2
    obtain ⟨hbuilt, hvars, hconstraints⟩ := ih (hp.edit hedit) hxs
    refine ⟨hbuilt, hvars.trans ?_, hconstraints.trans ?_⟩
    · rw [insert, Problem.variableEntries_insertVariable, List.append_assoc]
      rfl
    · simp [Problem.constraintEntries, Problem.constraintIds, insert, Problem.insertVariable]

theorem linked (hp : p.Built) (hd : p.variableEntries = d.vars) {ks : List (ConstraintEntry α)}
    (hk : ∀ k ∈ ks, d.Joins k) :
    (ks.foldl d.link p).Built ∧ (ks.foldl d.link p).variableEntries = d.vars ∧
      (ks.foldl d.link p).constraintEntries = p.constraintEntries ++ ks := by
  induction ks generalizing p with
  | nil => exact ⟨hp, hd, (List.append_nil _).symm⟩
  | cons k ks ih =>
    obtain ⟨⟨hends, -⟩, hks⟩ := List.forall_mem_cons.mp hk
    have hids : p.ids = d.ids := congrArg (List.map VariableEntry.id) hd
    rw [← hids] at hends
    obtain ⟨hl, hleft⟩ := Problem.id_idxOf hends.1
    obtain ⟨hr, hright⟩ := Problem.id_idxOf hends.2
    rw [hids] at hl hleft hr hright
    have hedit : p.edit (.addConstraint (d.ids.idxOf k.left) (d.ids.idxOf k.right) k.gap k.equality) =
        .ok (d.link p k) := by
      simp [Problem.edit, Problem.requireVariable, hl, hr, bind, Except.bind, pure, Except.pure, link]
    have hd' : (d.link p k).variableEntries = d.vars :=
      (Problem.variableEntries_insertConstraint hl hr _ _).trans hd
    obtain ⟨hbuilt, hvars, hconstraints⟩ := ih (hp.edit hedit) hd' hks
    refine ⟨hbuilt, hvars, hconstraints.trans ?_⟩
    rw [link, Problem.constraintEntries_insertConstraint hl hr, hleft, hright, List.append_assoc]
    rfl

theorem draft_spec (hx : ∀ x ∈ d.vars, Weighable x) (hk : ∀ k ∈ d.constraints, d.Joins k) :
    d.draft.Built ∧ d.draft.variableEntries = d.vars ∧ d.draft.constraintEntries = d.constraints := by
  obtain ⟨hp, hvars, hnone⟩ := inserted .empty hx
  obtain ⟨hbuilt, hvars', hconstraints⟩ := linked hp hvars hk
  rw [List.eq_nil_of_length_eq_zero hnone] at hconstraints
  exact ⟨hbuilt, hvars', hconstraints⟩

theorem isCyclic_draft (hx : ∀ x ∈ d.vars, Weighable x) (hn : d.ids.Nodup)
    (hk : ∀ k ∈ d.constraints, d.Joins k) :
    d.draft.isCyclic = false ↔ ∀ i, ¬ TransGen d.Precedes i i := by
  obtain ⟨hp, hvars, hconstraints⟩ := draft_spec hx hk
  have hids : d.draft.ids = d.ids := congrArg (List.map VariableEntry.id) hvars
  rw [Problem.isCyclic_eq_false_iff hp.consistent,
    Problem.acyclic_iff_entries hp.consistent (hids ▸ hn), hconstraints]
  rfl

theorem exists_problem_iff : (∃ p, d.problem = .ok p) ↔ d.Valid := by
  constructor
  · rintro ⟨p, h⟩
    obtain ⟨hx, hn, hk, hcyclic, -⟩ := problem_eq_ok.mp h
    exact ⟨hx, hn, hk, (isCyclic_draft hx hn hk).mp hcyclic⟩
  · intro h
    refine ⟨d.draft, problem_eq_ok.mpr ⟨h.weighable, h.nodup, h.joins, ?_, rfl⟩⟩
    exact (isCyclic_draft h.weighable h.nodup h.joins).mpr h.acyclic

structure Of (d : SolveDocument α) (p : Problem α) : Prop where
  built : p.Built
  variableEntries_eq : p.variableEntries = d.vars
  constraintEntries_eq : p.constraintEntries = d.constraints

theorem of_problem (h : d.problem = .ok p) : d.Of p := by
  obtain ⟨hx, -, hk, -, rfl⟩ := problem_eq_ok.mp h
  obtain ⟨hp, hvars, hconstraints⟩ := draft_spec hx hk
  exact ⟨hp, hvars, hconstraints⟩

/-! The report. -/

theorem report_eq_ok {rounds : Nat} {a : Arguments} {r : SolveReport α}
    (h : (d.report rounds a).result = .ok r) : ∃ p mode s, d.problem = .ok p ∧
      p.solve rounds mode = .ok (s, .ok ()) ∧
      r.positions = s.problem.vars.toList.map fun x => (x.id, x.position) := by
  unfold report at h
  dsimp only at h
  split at h
  · cases h
  · rename_i p hp
    unfold Problem.report at h
    dsimp only at h
    split at h
    · cases h
    · rename_i s reply hs
      cases reply with
      | error failure => cases h
      | ok =>
        cases h
        exact ⟨p, _, s, hp, hs, rfl⟩

/-- Each listed variable has a place, and what the places of a listed constraint's ends leave between them
beyond its gap is as the constraint says, up to the tolerance. -/
structure Placed (d : SolveDocument α) (positions : List (Nat × α)) : Prop where
  ids : positions.map Prod.fst = d.ids
  slack : ∀ k ∈ d.constraints, ∃ x y, positions.lookup k.left = some x ∧
    positions.lookup k.right = some y ∧ ¬ y - x - k.gap < -Scalar.epsilon ∧
    (k.equality = true → ¬ Scalar.epsilon < y - x - k.gap)

theorem Of.placed (h : d.Of p) (hn : d.ids.Nodup) (hq : q.given = p.given)
    (hv : ∀ c < q.constraints.size, ¬ q.Violates c) :
    d.Placed (q.vars.toList.map fun x => (x.id, x.position)) := by
  have hvars := (Problem.variableEntries_given hq).trans h.variableEntries_eq
  have hconstraints := (Problem.constraintEntries_given hq).trans h.constraintEntries_eq
  have hc := h.built.consistent.of_given hq
  have hplaces : (q.vars.toList.map fun x => (x.id, x.position)) =
      q.variableIds.map fun v => ((q.variableAt v).id, (q.variableAt v).position) := by
    apply List.ext_getElem
    · simp [Problem.variableIds]
    · intro i h₁ h₂
      simp [Problem.variableIds, Problem.variableAt, show i < q.vars.size by simpa using h₁]
  have hids : (q.variableIds.map fun v => ((q.variableAt v).id, (q.variableAt v).position)).map
      Prod.fst = d.ids := by
    rw [List.map_map]
    exact (Problem.ids_eq_map q).symm.trans (congrArg (List.map VariableEntry.id) hvars)
  rw [hplaces]
  refine ⟨hids, fun k hk => ?_⟩
  have hplace (v : VarId) (hv : v < q.vars.size) : (q.variableIds.map fun v =>
      ((q.variableAt v).id, (q.variableAt v).position)).lookup (q.variableAt v).id =
        some (q.variableAt v).position :=
    lookup_eq_some (hids ▸ hn) (List.mem_map_of_mem (List.mem_range.mpr hv))
  rw [← hconstraints] at hk
  obtain ⟨c, hlt, rfl⟩ := List.mem_map.mp hk
  have hlt : c < q.constraints.size := List.mem_range.mp hlt
  have hnot := not_or.mp (hv c hlt)
  exact ⟨_, _, hplace _ (hc.left_lt c hlt), hplace _ (hc.right_lt c hlt), hnot.1,
    fun he hgt => hnot.2 ⟨he, hgt⟩⟩

theorem placed_of_report {rounds : Nat} {a : Arguments} {r : SolveReport α}
    (h : (d.report rounds a).result = .ok r) : d.Placed r.positions := by
  obtain ⟨p, mode, s, hp, hs, hr⟩ := report_eq_ok h
  have hof := of_problem hp
  have hsound := Solver.sound_new hof.built.consistent mode (Options.standard (α := α))
  have hanswer := (Solver.solve_answers (E := fun _ => True) trivial rounds hsound).of_ok hs
  have hgiven := (Solver.solve_pursues (E := fun _ => True) trivial rounds hsound).of_ok hs
  rw [hr]
  exact hof.placed (exists_problem_iff.mp ⟨p, hp⟩).nodup
    (hgiven.given_eq.trans Arrangement.given_ofProblem) hanswer.2.2

/-- A document becomes a problem just if it is valid, and then the problem lists what the document lists.
No variable is added whose weight is not positive. On exact numbers, a report gives each listed id one
position, in the order of the document, and these keep to every listed constraint. -/
theorem document_answered (d : SolveDocument α) (e : SolveDocument Rat) (rounds : Nat) (a : Arguments) :
    ((∃ p, d.problem = .ok p) ↔ d.Valid) ∧
    (∀ p, d.problem = .ok p → p.variableEntries = d.vars ∧ p.constraintEntries = d.constraints) ∧
    (∀ (p : Problem α) x q, addVariable p x = .ok q → p.edit (.addVariable x.id x.desired x.weight) = .ok q) ∧
    ∀ r, (e.report rounds a).result = .ok r → r.positions.map Prod.fst = e.ids ∧
      ∀ k ∈ e.constraints, ∃ x y, r.positions.lookup k.left = some x ∧
        r.positions.lookup k.right = some y ∧ -Scalar.epsilon ≤ y - x - k.gap ∧
        (k.equality = true → y - x - k.gap ≤ Scalar.epsilon) := by
  refine ⟨exists_problem_iff, fun p h => ?_, fun _ _ _ => edit_of_addVariable, fun r h => ?_⟩
  · exact ⟨(of_problem h).variableEntries_eq, (of_problem h).constraintEntries_eq⟩
  · have hplaced := placed_of_report h
    refine ⟨hplaced.ids, fun k hk => ?_⟩
    obtain ⟨x, y, hx, hy, hlower, hupper⟩ := hplaced.slack k hk
    exact ⟨x, y, hx, hy, Rat.not_lt.mp hlower, fun hequality => Rat.not_lt.mp (hupper hequality)⟩

def chain : SolveDocument Rat where
  mode := none
  vars := [⟨7, 0, 1⟩, ⟨3, 0, 2⟩, ⟨5, 9, 1⟩]
  constraints := [⟨7, 3, 3, false⟩, ⟨3, 5, 1, true⟩]

theorem document_answered_chain : chain.Valid ∧ ∃ r,
    (chain.report 5 ⟨.solve, none, none, none, false, false, none⟩).result = .ok r ∧
    r.positions.map Prod.fst = [7, 3, 5] ∧ ∃ x y, r.positions.lookup 3 = some x ∧
      r.positions.lookup 5 = some y ∧ y - x - 1 ≤ Scalar.epsilon := by
  have hproblem : Yields chain.problem fun _ => True := by decide +kernel
  have hreport : Yields (chain.report 5 ⟨.solve, none, none, none, false, false, none⟩).result
      fun _ => True := by decide +kernel
  obtain ⟨p, hp, -⟩ := hproblem
  obtain ⟨r, hr, -⟩ := hreport
  obtain ⟨hvalid, -, -, hanswer⟩ :=
    document_answered chain chain 5 ⟨.solve, none, none, none, false, false, none⟩
  obtain ⟨hids, hslack⟩ := hanswer r hr
  obtain ⟨x, y, hx, hy, -, hle⟩ := hslack ⟨3, 5, 1, true⟩ (by decide)
  exact ⟨hvalid.mp ⟨p, hp⟩, r, hr, hids, x, y, hx, hy, hle rfl⟩

end SolveDocument

end Spacing
