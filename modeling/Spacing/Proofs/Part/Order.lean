import Spacing.Proofs.Part.Tree
import Spacing.Proofs.Problem.Order

namespace Spacing

section

variable {β : Type} [DecidableEq β] {P : β → Bool} {x : β}

theorem filter_erase_of_pos (hx : P x) (xs : List β) :
    (xs.erase x).filter P = (xs.filter P).erase x := by
  induction xs with
  | nil => rfl
  | cons y ys ih =>
    by_cases hy : y = x
    · subst hy
      rw [List.erase_cons_head, List.filter_cons_of_pos hx, List.erase_cons_head]
    · rw [List.erase_cons_tail (by simpa using hy), List.filter_cons, List.filter_cons, ih]
      split
      · rw [List.erase_cons_tail (by simpa using hy)]
      · rfl

theorem filter_erase_of_neg (hx : ¬ P x) (xs : List β) : (xs.erase x).filter P = xs.filter P := by
  induction xs with
  | nil => rfl
  | cons y ys ih =>
    by_cases hy : y = x
    · subst hy
      rw [List.erase_cons_head, List.filter_cons_of_neg hx]
    · rw [List.erase_cons_tail (by simpa using hy), List.filter_cons, List.filter_cons, ih]

end

namespace Renaming

def frame (e : Renaming) (f : Nat × List Nat) : Nat × List Nat :=
  (e.var f.1, f.2.map e.var)

theorem exists_frame {e : Renaming} {n v : Nat} {ws : List Nat} {frames frames' : List (Nat × List Nat)}
    (hv : e.Reaches n v)
    (h : ((v, ws) :: frames).filter (fun f => e.Reaches n f.1) = frames'.map e.frame) :
    ∃ v' ws' rest, frames' = (v', ws') :: rest ∧ e.var v' = v ∧ ws'.map e.var = ws ∧
      frames.filter (fun f => e.Reaches n f.1) = rest.map e.frame := by
  rw [List.filter_cons_of_pos (by simpa using hv)] at h
  obtain ⟨f, rest, rfl, hf, hrest⟩ := List.map_eq_cons_iff.mp h.symm
  obtain ⟨hv', hws⟩ := Prod.mk.inj hf
  exact ⟨f.1, f.2, rest, rfl, hv', hws, hrest.symm⟩

theorem filter_reaches {e : Renaming} {m n : Nat} (h : ∀ v < n, e.var v < m) :
    (List.range m).filter (e.Reaches n) = (List.range n).map e.var := by
  rw [← List.filter_true (List.range n)]
  apply filter_range
  intro w
  simp only [decide_eq_true_eq, true_and]
  constructor
  · exact fun hw => hw.2
  · rintro ⟨v, hv, rfl⟩
    exact ⟨h v hv, v, hv, rfl⟩

end Renaming

namespace Digraph

variable {g g' : Digraph} {e : Renaming} {unseen unseen' order order' : List Nat}
  {frames frames' : List (Nat × List Nat)} {w root : Nat}

structure Part (e : Renaming) (g g' : Digraph) : Prop where
  size_le : ∀ v < g'.size, e.var v < g.size
  next_eq : ∀ v < g'.size, g.next (e.var v) = (g'.next v).map e.var
  reaches_iff : ∀ v w, g.Arc v w → (e.Reaches g'.size w ↔ e.Reaches g'.size v)

structure Agree (e : Renaming) (n : Nat) (state state' : List Nat × List Nat) : Prop where
  unseen : state.1.filter (e.Reaches n) = state'.1.map e.var
  order : state.2.filter (e.Reaches n) = state'.2.map e.var

theorem Agree.mem_iff {n : Nat} {state state' : List Nat × List Nat} (h : Agree e n state state')
    (hw : e.Reaches n (e.var w)) : e.var w ∈ state.1 ↔ w ∈ state'.1 := by
  rw [← List.mem_map_of_injective (f := e.var) (l := state'.1) e.var_mono.injective, ← h.unseen,
    List.mem_filter]
  exact (and_iff_left (decide_eq_true hw)).symm

namespace Part

variable (h : g.Part e g')
include h

theorem walk (hf : ∀ f ∈ frames, ∀ w ∈ f.2, g.Arc f.1 w)
    (hs : Agree e g'.size (unseen, order) (unseen', order'))
    (hframes : frames.filter (fun f => e.Reaches g'.size f.1) = frames'.map e.frame) :
    Agree e g'.size (g.walk unseen frames order) (g'.walk unseen' frames' order') := by
  -- The walk over the larger graph takes steps of its own, outside the part. At these the walk over the
  -- part stands still, so the induction is on the former.
  induction unseen, frames, order using Digraph.walk.induct (g := g)
    generalizing unseen' frames' order' with
  | case1 unseen order =>
    obtain rfl : frames' = [] := by simpa using hframes.symm
    rw [Digraph.walk, Digraph.walk]
    exact hs
  | case2 unseen order v frames ih =>
    rw [Digraph.walk]
    simp only [List.mem_cons, forall_eq_or_imp] at hf
    by_cases hv : e.Reaches g'.size v
    · obtain ⟨v', ws, rest, rfl, rfl, hws, hrest⟩ := Renaming.exists_frame hv hframes
      obtain rfl := List.map_eq_nil_iff.mp hws
      rw [Digraph.walk]
      apply ih hf.2 _ hrest
      refine ⟨hs.unseen, ?_⟩
      rw [List.filter_cons_of_pos (by simpa using hv), hs.order, List.map_cons]
    · rw [List.filter_cons_of_neg (by simpa using hv)] at hframes
      apply ih hf.2 _ hframes
      refine ⟨hs.unseen, ?_⟩
      rw [List.filter_cons_of_neg (by simpa using hv), hs.order]
  | case3 unseen order v r rs frames hr ih =>
    rw [Digraph.walk, if_pos hr]
    simp only [List.mem_cons, forall_eq_or_imp] at hf
    have hreach := h.reaches_iff v r hf.1.1
    have hf' : ∀ f ∈ (r, g.next r) :: (v, rs) :: frames, ∀ w ∈ f.2, g.Arc f.1 w := by
      simp only [List.mem_cons, forall_eq_or_imp]
      exact ⟨fun _ hw => hw, hf.1.2, hf.2⟩
    by_cases hv : e.Reaches g'.size v
    · obtain ⟨v', ws, rest, rfl, rfl, hws, hrest⟩ := Renaming.exists_frame hv hframes
      obtain ⟨r', rs', rfl, rfl, rfl⟩ := List.map_eq_cons_iff.mp hws
      have hr' := hreach.mpr hv
      rw [Digraph.walk, if_pos ((hs.mem_iff hr').mp hr)]
      apply ih hf'
      · refine ⟨?_, hs.order⟩
        rw [filter_erase_of_pos (by simpa using hr'), hs.unseen, List.map_erase e.var_mono.injective]
      · rw [List.filter_cons_of_pos (by simpa using hr'), List.filter_cons_of_pos (by simpa using hv),
          hrest, h.next_eq r' (Renaming.reaches_var.mp hr')]
        rfl
    · have hr' := hreach.not.mpr hv
      rw [List.filter_cons_of_neg (by simpa using hv)] at hframes
      apply ih hf'
      · refine ⟨?_, hs.order⟩
        rw [filter_erase_of_neg (by simpa using hr'), hs.unseen]
      · rw [List.filter_cons_of_neg (by simpa using hr'), List.filter_cons_of_neg (by simpa using hv),
          hframes]
  | case4 unseen order v r rs frames hr ih =>
    rw [Digraph.walk, if_neg hr]
    simp only [List.mem_cons, forall_eq_or_imp] at hf
    have hf' : ∀ f ∈ (v, rs) :: frames, ∀ w ∈ f.2, g.Arc f.1 w := by
      simp only [List.mem_cons, forall_eq_or_imp]
      exact ⟨hf.1.2, hf.2⟩
    by_cases hv : e.Reaches g'.size v
    · obtain ⟨v', ws, rest, rfl, rfl, hws, hrest⟩ := Renaming.exists_frame hv hframes
      obtain ⟨r', rs', rfl, rfl, rfl⟩ := List.map_eq_cons_iff.mp hws
      have hr' := (h.reaches_iff _ _ hf.1.1).mpr hv
      rw [Digraph.walk, if_neg ((hs.mem_iff hr').not.mp hr)]
      apply ih hf' hs
      rw [List.filter_cons_of_pos (by simpa using hv), hrest]
      rfl
    · rw [List.filter_cons_of_neg (by simpa using hv)] at hframes
      apply ih hf' hs
      rw [List.filter_cons_of_neg (by simpa using hv), hframes]

variable {state state' : List Nat × List Nat} (hs : Agree e g'.size state state')
include hs

theorem walkFrom (hroot : root < g'.size) :
    Agree e g'.size (g.walkFrom state (e.var root)) (g'.walkFrom state' root) := by
  have hreach : e.Reaches g'.size (e.var root) := Renaming.reaches_var.mpr hroot
  have hmem := hs.mem_iff hreach
  by_cases hr : e.var root ∈ state.1
  · rw [Digraph.walkFrom, if_pos hr, Digraph.walkFrom, if_pos (hmem.mp hr)]
    apply h.walk
    · simp [Arc]
    · refine ⟨?_, hs.order⟩
      rw [filter_erase_of_pos (by simpa using hreach), hs.unseen, List.map_erase e.var_mono.injective]
    · rw [List.filter_cons_of_pos (by simpa using hreach), h.next_eq root hroot]
      rfl
  · rw [Digraph.walkFrom, if_neg hr, Digraph.walkFrom, if_neg (hmem.not.mp hr)]
    exact hs

theorem walkFrom_apart (hroot : ¬ e.Reaches g'.size root) :
    Agree e g'.size (g.walkFrom state root) state' := by
  rw [Digraph.walkFrom]
  split
  · have hwalk : Agree e g'.size (g.walk (state.1.erase root) [(root, g.next root)] state.2)
        (g'.walk state'.1 [] state'.2) := by
      apply h.walk
      · simp [Arc]
      · refine ⟨?_, hs.order⟩
        rw [filter_erase_of_neg (by simpa using hroot), hs.unseen]
      · rw [List.filter_cons_of_neg (by simpa using hroot)]
        rfl
    rwa [Digraph.walk] at hwalk
  · exact hs

theorem foldl {roots roots' : List Nat}
    (hroots : roots.filter (e.Reaches g'.size) = roots'.map e.var) :
    Agree e g'.size (roots.foldl g.walkFrom state) (roots'.foldl g'.walkFrom state') := by
  induction roots generalizing roots' state state' with
  | nil =>
    obtain rfl : roots' = [] := by simpa using hroots.symm
    exact hs
  | cons root roots ih =>
    by_cases hroot : e.Reaches g'.size root
    · rw [List.filter_cons_of_pos (by simpa using hroot)] at hroots
      obtain ⟨root', rest, rfl, rfl, hrest⟩ := List.map_eq_cons_iff.mp hroots.symm
      exact ih (h.walkFrom hs (Renaming.reaches_var.mp hroot)) hrest.symm
    · rw [List.filter_cons_of_neg (by simpa using hroot)] at hroots
      exact ih (h.walkFrom_apart hs hroot) hroots

omit hs in
theorem order_filter {sources sources' : List Nat}
    (hsources : sources.filter (e.Reaches g'.size) = sources'.map e.var) :
    (g.order sources).filter (e.Reaches g'.size) = (g'.order sources').map e.var := by
  have hrange := Renaming.filter_reaches h.size_le
  apply (h.foldl _ _).order
  · exact ⟨hrange, rfl⟩
  · rw [List.filter_append, hsources, hrange, List.map_append]

end Part

end Digraph

namespace Problem.Part

variable {α : Type} [Scalar α] {p q : Problem α} {e : Renaming} (h : p.Part e q)
include h

theorem acyclic (ha : p.Acyclic) : q.Acyclic := by
  intro v hv
  apply ha (e.var v)
  apply hv.lift e.var
  rintro _ _ ⟨c, hc, rfl, rfl⟩
  exact ⟨e.con c, h.con_lt c hc, h.left_eq c hc, h.right_eq c hc⟩

theorem graph (hp : p.Consistent) (hq : q.Consistent) : p.graph.Part e q.graph := by
  constructor
  case size_le =>
    rw [size_graph, size_graph]
    exact h.var_lt
  case next_eq =>
    intro v hv
    rw [size_graph] at hv
    rw [next_graph, h.outs_eq v hv, next_graph, List.map_map, List.map_map]
    apply List.map_congr_left
    intro c hc
    exact h.right_eq c ((hq.mem_outs v c).mp hc).1
  case reaches_iff =>
    intro v w harc
    obtain ⟨c, hc, rfl, rfl⟩ := (arc_graph hp).mp harc
    rw [size_graph]
    constructor
    · rintro ⟨v, hv, hend⟩
      obtain ⟨d, hd, rfl⟩ := h.exists_con hp hq hc .right hv hend.symm
      exact ⟨_, hq.leftEnd_lt hd, (h.left_eq d hd).symm⟩
    · rintro ⟨v, hv, hend⟩
      obtain ⟨d, hd, rfl⟩ := h.exists_con hp hq hc .left hv hend.symm
      exact ⟨_, hq.rightEnd_lt hd, (h.right_eq d hd).symm⟩

theorem order_filter (hp : p.Consistent) (hq : q.Consistent) :
    p.order.filter (e.Reaches q.vars.size) = q.order.map e.var := by
  have hsources : (p.variableIds.filter fun v => (p.variableAt v).ins.isEmpty).filter
      (e.Reaches q.vars.size) =
        (q.variableIds.filter fun v => (q.variableAt v).ins.isEmpty).map e.var := by
    rw [List.filter_filter]
    apply Renaming.filter_range
    intro w
    constructor
    · rintro ⟨-, hw⟩
      obtain ⟨⟨v, hv, rfl⟩, hins⟩ : e.Reaches q.vars.size w ∧ (p.variableAt w).ins.isEmpty := by
        simpa using hw
      rw [h.ins_eq v hv, List.isEmpty_map] at hins
      exact ⟨v, hv, hins, rfl⟩
    · rintro ⟨v, hv, hins, rfl⟩
      refine ⟨h.var_lt v hv, ?_⟩
      rw [h.ins_eq v hv, List.isEmpty_map, hins]
      simpa [Renaming.reaches_var] using hv
  rw [← size_graph q] at hsources
  have horder := (h.graph hp hq).order_filter hsources
  rwa [size_graph] at horder

end Problem.Part

end Spacing
