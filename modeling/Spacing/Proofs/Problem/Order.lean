import Spacing.Problem.Order
import Spacing.Proofs.Graph.Order
import Spacing.Proofs.Problem.Consistent

namespace Spacing

open Relation

theorem idxOf_lt_idxOf {pre post : List VarId} {u v : VarId} (hn : (pre ++ u :: post).Nodup)
    (hv : v ∈ post) : (pre ++ u :: post).idxOf u < (pre ++ u :: post).idxOf v := by
  obtain ⟨-, hpost, hdisjoint⟩ := List.nodup_append.mp hn
  have hu : u ∉ pre := fun h => hdisjoint u h u List.mem_cons_self rfl
  have hvpre : v ∉ pre := fun h => hdisjoint v h v (List.mem_cons_of_mem _ hv) rfl
  have huv : u ≠ v := fun h => (List.nodup_cons.mp hpost).1 (h ▸ hv)
  rw [List.idxOf_append_of_notMem hu, List.idxOf_append_of_notMem hvpre, List.idxOf_cons_self,
    List.idxOf_cons_ne _ huv]
  omega

namespace Problem

variable {α : Type} [Scalar α] {p q : Problem α} {c : ConId} {u v : VarId}

def Precedes (p : Problem α) (u v : VarId) : Prop :=
  ∃ c < p.constraints.size, p.edges.left c = u ∧ p.edges.right c = v

def Acyclic (p : Problem α) : Prop :=
  ∀ v, ¬ TransGen p.Precedes v v

theorem acyclic_of_lt {β : Type} [Preorder β] (f : VarId → β)
    (h : ∀ c < p.constraints.size, f (p.edges.left c) < f (p.edges.right c)) : p.Acyclic := by
  intro v hv
  have hlt : TransGen (· < ·) (f v) (f v) := by
    apply hv.lift f
    rintro _ _ ⟨c, hc, rfl, rfl⟩
    exact h c hc
  rw [transGen_eq_self] at hlt
  exact lt_irrefl _ hlt

theorem acyclic_of_left_lt_right
    (h : ∀ c < p.constraints.size, p.edges.left c < p.edges.right c) : p.Acyclic :=
  acyclic_of_lt id h

theorem Acyclic.not_back (ha : p.Acyclic) (hc : c < p.constraints.size) :
    ¬ ReflTransGen p.Precedes (p.edges.right c) (p.edges.left c) :=
  fun hback => ha _ (TransGen.head' ⟨c, hc, rfl, rfl⟩ hback)

theorem next_graph (p : Problem α) (v : VarId) :
    p.graph.next v = (p.variableAt v).outs.map p.edges.right := by
  simp only [graph, Digraph.next, variableAt, Array.getD_eq_getD_getElem?, Array.getElem?_map]
  cases p.vars[v]? <;> rfl

theorem size_graph (p : Problem α) : p.graph.size = p.vars.size := by
  simp [graph, Digraph.size]

theorem arc_graph (hp : p.Consistent) : p.graph.Arc u v ↔ p.Precedes u v := by
  rw [Digraph.Arc, next_graph, List.mem_map]
  constructor
  · rintro ⟨c, hc, hv⟩
    obtain ⟨hlt, hu⟩ := (hp.mem_outs u c).mp hc
    exact ⟨c, hlt, hu, hv⟩
  · rintro ⟨c, hlt, hu, hv⟩
    exact ⟨c, (hp.mem_outs u c).mpr ⟨hlt, hu⟩, hv⟩

theorem bounded_graph (hp : p.Consistent) : p.graph.Bounded := by
  intro u v h
  obtain ⟨c, hlt, -, rfl⟩ := (arc_graph hp).mp h
  rw [size_graph]
  exact hp.rightEnd_lt hlt

theorem order_perm (p : Problem α) : p.order.Perm p.variableIds := by
  have h := p.graph.order_perm (p.variableIds.filter fun v => (p.variableAt v).ins.isEmpty)
  rwa [size_graph] at h

theorem mem_order : v ∈ p.order ↔ v < p.vars.size := by
  rw [p.order_perm.mem_iff]
  exact List.mem_range

theorem nodup_order (p : Problem α) : p.order.Nodup := by
  rw [p.order_perm.nodup_iff]
  exact List.nodup_range

theorem idxOf_left_lt (hp : p.Consistent) (hc : c < p.constraints.size)
    (hback : ¬ ReflTransGen p.Precedes (p.edges.right c) (p.edges.left c)) :
    p.order.idxOf (p.edges.left c) < p.order.idxOf (p.edges.right c) := by
  have hn := p.nodup_order
  have hsettled : p.graph.Settled p.order := Digraph.settled_order (bounded_graph hp) _
  obtain ⟨pre, post, hsplit⟩ := List.append_of_mem (mem_order.mpr (hp.leftEnd_lt hc))
  rw [hsplit] at hn hsettled ⊢
  apply idxOf_lt_idxOf hn
  refine (hsettled.of_arc ((arc_graph hp).mpr ⟨c, hc, rfl, rfl⟩)).resolve_right fun h => hback ?_
  exact h.lift id fun _ _ => (arc_graph hp).mp

section Order

variable {done rest : List VarId}

theorem lt_of_order (ho : done ++ v :: rest = p.order) : v < p.vars.size := by
  rw [← mem_order, ← ho]
  exact List.mem_append_right _ List.mem_cons_self

theorem notMem_of_order (ho : done ++ v :: rest = p.order) : v ∉ done := by
  have hn := p.nodup_order
  rw [← ho] at hn
  exact fun hd => (List.nodup_append.mp hn).2.2 v hd v List.mem_cons_self rfl

variable (hp : p.Consistent) (ha : p.Acyclic) (ho : done ++ v :: rest = p.order)
include hp ha ho

theorem left_mem_of_order (hc : c < p.constraints.size) (hv : p.edges.right c = v) :
    p.edges.left c ∈ done := by
  have hlt := idxOf_left_lt hp hc (ha.not_back hc)
  rw [hv, ← ho, List.idxOf_append_of_notMem (notMem_of_order ho), List.idxOf_cons_self, Nat.add_zero] at hlt
  exact ((List.prefix_append done _).mem_iff_idxOf_lt_length _).mpr hlt

omit ho in
theorem left_mem_of_mem_order (ho : done ++ rest = p.order) (hc : c < p.constraints.size)
    (hr : p.edges.right c ∈ done) : p.edges.left c ∈ done := by
  obtain ⟨front, back, hd⟩ := List.append_of_mem hr
  have ho' : front ++ p.edges.right c :: (back ++ rest) = p.order := by
    rw [← ho, hd]
    simp
  rw [hd]
  exact List.mem_append_left _ (left_mem_of_order hp ha ho' hc rfl)

theorem left_mem_of_mem_concat (hc : c < p.constraints.size) (hr : p.edges.right c ∈ done ++ [v]) :
    p.edges.left c ∈ done := by
  rcases List.mem_append.mp hr with hr | hr
  · exact left_mem_of_mem_order hp ha ho hc hr
  · exact left_mem_of_order hp ha ho hc (List.mem_singleton.mp hr)

theorem mem_of_precedes (h : TransGen p.Precedes u v) : u ∈ done := by
  induction h using TransGen.head_induction_on with
  | single hs =>
    obtain ⟨c, hc, rfl, hr⟩ := hs
    exact left_mem_of_order hp ha ho hc hr
  | head hs _ ih =>
    obtain ⟨c, hc, rfl, rfl⟩ := hs
    exact left_mem_of_mem_order hp ha ho hc ih

end Order

theorem order_given (h : p.given = q.given) : p.order = q.order := by
  have hgraph : p.graph = q.graph := by
    have hnext : p.graph.successors = q.graph.successors := by
      apply Array.ext
      · simpa [Digraph.size] using (size_graph p).trans ((size_vars_eq h).trans (size_graph q).symm)
      · intro i h₁ h₂
        have hi := (next_graph p i).trans
          ((congrArg₂ (fun xs g => xs.map (Edges.right g)) (outs_eq h i) (edges_eq h)).trans
            (next_graph q i).symm)
        simpa [Digraph.next, h₁, h₂] using hi
    cases hp : p.graph
    cases hq : q.graph
    rw [hp, hq] at hnext
    exact congrArg Digraph.mk hnext
  have hsources : (p.variableIds.filter fun v => (p.variableAt v).ins.isEmpty) =
      q.variableIds.filter fun v => (q.variableAt v).ins.isEmpty := by
    simp only [variableIds, size_vars_eq h, ins_eq h]
  rw [order, order, hgraph, hsources]

end Problem

end Spacing
