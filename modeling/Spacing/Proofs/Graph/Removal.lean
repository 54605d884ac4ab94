import Mathlib.Data.List.Perm.Lattice
import Mathlib.Data.List.Count
import Mathlib.Data.Set.Card
import Mathlib.Order.WellFoundedSet
import Spacing.Proofs.Graph.Order

namespace Spacing

open Relation

section Cycles

variable {β : Type} {r : β → β → Prop} {v : β} {vs : List β}

def BehindCycle (r : β → β → Prop) (v : β) : Prop :=
  ∃ u, TransGen r u u ∧ ReflTransGen r u v

theorem BehindCycle.exists_before (h : BehindCycle r v) : ∃ u, r u v := by
  obtain ⟨u, hcycle, hpath⟩ := h
  obtain ⟨w, -, hw⟩ := TransGen.tail'_iff.mp (hcycle.trans_left hpath)
  exact ⟨w, hw⟩

theorem behindCycle_of_before (h : ∀ v ∈ vs, ∃ u ∈ vs, r u v) (hv : v ∈ vs) : BehindCycle r v := by
  by_contra hnone
  -- Among the places that lead to `v` there would be a first one, and yet one before it.
  let before (u w : β) : Prop := TransGen r u w ∧ ReflTransGen r w v
  have hirrefl : Std.Irrefl before := ⟨fun u hu => hnone ⟨u, hu⟩⟩
  have htrans : IsTrans β before := ⟨fun _ _ _ huw hwx => ⟨huw.1.trans hwx.1, hwx.2⟩⟩
  have hstrict : IsStrictOrder β before := {}
  have hwf : { u | u ∈ vs ∧ ReflTransGen r u v }.WellFoundedOn before := by
    apply Set.Finite.wellFoundedOn
    exact (List.finite_toSet vs).subset fun u hu => hu.1
  obtain ⟨⟨m, hm, hmv⟩, -, hmin⟩ := WellFounded.has_min hwf Set.univ ⟨⟨v, hv, .refl⟩, trivial⟩
  obtain ⟨u, hu, hum⟩ := h m hm
  exact hmin ⟨u, hu, .head hum hmv⟩ trivial ⟨.single hum, hmv⟩

end Cycles

namespace Digraph

variable {g : Digraph} {counters indegrees : Array Nat} {ready rest targets : List Nat}
  {removed v w : Nat}

def arcsInto (g : Digraph) (rest : List Nat) (v : Nat) : Nat :=
  (rest.flatMap g.next).count v

theorem arcsInto_pos : 0 < g.arcsInto rest v ↔ ∃ u ∈ rest, g.Arc u v := by
  rw [arcsInto, List.count_pos_iff, List.mem_flatMap]
  rfl

theorem arcsInto_erase (hv : v ∈ rest) (w : Nat) :
    g.arcsInto rest w = g.arcsInto (rest.erase v) w + (g.next v).count w := by
  have hperm := (List.perm_cons_erase hv).flatMap_right g.next
  rw [arcsInto, hperm.count_eq, List.flatMap_cons, List.count_append, Nat.add_comm]
  rfl

theorem getD_countDown {k r : Nat} (hr : counters.getD r 0 = k + 1) (w : Nat) :
    (counters.setIfInBounds r k).getD w 0 = if w = r then k else counters.getD w 0 := by
  have hlt : r < counters.size := by
    by_contra h
    simp [Array.getD, h] at hr
  simp only [Array.getD_eq_getD_getElem?, Array.getElem?_setIfInBounds]
  by_cases h : r = w
  · subst h
    simp [hlt]
  · simp [h, Ne.symm h]

theorem release_spec {left : Nat → Nat} (hc : ∀ w, counters.getD w 0 = left w + targets.count w)
    (hz : ∀ w ∈ ready, counters.getD w 0 = 0) (hn : ready.Nodup) :
    ∃ counters' ready', release counters ready targets = some (counters', ready') ∧
      (∀ w, counters'.getD w 0 = left w) ∧ ready'.Nodup ∧
      ∀ w, w ∈ ready' ↔ w ∈ ready ∨ w ∈ targets ∧ left w = 0 := by
  induction targets generalizing counters ready with
  | nil => exact ⟨counters, ready, rfl, by simpa using hc, hn, by simp⟩
  | cons r rs ih =>
    let k := left r + rs.count r
    have hr : counters.getD r 0 = k + 1 := by
      rw [hc, List.count_cons_self, Nat.add_assoc]
    have hnr : r ∉ ready := by
      intro h
      have := hz r h
      omega
    let counters' := counters.setIfInBounds r k
    let ready' := if k = 0 then r :: ready else ready
    have hmem' (w : Nat) : w ∈ ready' ↔ w ∈ ready ∨ k = 0 ∧ w = r := by
      by_cases hk : k = 0
      · simp [ready', hk, or_comm]
      · simp [ready', hk]
    have hn' : ready'.Nodup := by
      by_cases hk : k = 0
      · simp [ready', hk, hnr, hn]
      · simpa [ready', hk] using hn
    have hc' (w : Nat) : counters'.getD w 0 = left w + rs.count w := by
      rw [getD_countDown hr]
      by_cases h : w = r
      · rw [if_pos h, h]
      · rw [if_neg h, hc, List.count_cons_of_ne (Ne.symm h)]
    have hz' : ∀ w ∈ ready', counters'.getD w 0 = 0 := by
      intro w hw
      rw [getD_countDown hr]
      rcases (hmem' w).mp hw with hready | ⟨hk, rfl⟩
      · have hne : w ≠ r := by
          rintro rfl
          exact hnr hready
        rw [if_neg hne, hz w hready]
      · rw [if_pos rfl, hk]
    have hstep : release counters ready (r :: rs) = release counters' ready' rs := by
      rw [release, hr]
    obtain ⟨counters'', ready'', heq, hcounts, hnodup, hmem⟩ := ih hc' hz' hn'
    refine ⟨counters'', ready'', hstep.trans heq, hcounts, hnodup, fun w => ?_⟩
    rw [hmem, hmem', List.mem_cons]
    by_cases h : w = r
    · -- The target is counted off for the last time here, or it is another target further on.
      subst h
      have hleft : left w = 0 → k = 0 ∨ w ∈ rs := by
        intro hleft
        by_cases hw : w ∈ rs
        · exact .inr hw
        · have := List.count_eq_zero_of_not_mem hw
          left
          omega
      have hk : k = 0 → left w = 0 := by omega
      tauto
    · simp [h]

/-- What holds while sources are removed: `rest` has not been removed, the counters count its arcs, and
the vertices that none of them enters are ready. -/
structure Removing (g : Digraph) (rest : List Nat) (counters : Array Nat) (ready : List Nat)
    (removed : Nat) : Prop where
  nodup : rest.Nodup
  length : removed + rest.length = g.size
  counts : ∀ v, counters.getD v 0 = g.arcsInto rest v
  ready_nodup : ready.Nodup
  mem_ready : ∀ v, v ∈ ready ↔ v ∈ rest ∧ g.arcsInto rest v = 0
  closed : ∀ u ∈ rest, ∀ v, g.Arc u v → v ∈ rest
  cycles : ∀ v, TransGen g.Arc v v → v ∈ rest

namespace Removing

theorem start (hb : g.Bounded) (hi : ∀ v, indegrees.getD v 0 = g.arcsInto (List.range g.size) v) :
    g.Removing (List.range g.size) indegrees
      ((List.range g.size).filter fun v => indegrees.getD v 0 == 0) 0 where
  nodup := List.nodup_range
  length := by simp
  counts := hi
  ready_nodup := List.nodup_range.filter _
  mem_ready v := by
    rw [List.mem_filter, hi, beq_iff_eq]
  closed u _ v h := List.mem_range.mpr (hb u v h)
  cycles v h := by
    obtain ⟨u, -, harc⟩ := TransGen.tail'_iff.mp h
    exact List.mem_range.mpr (hb u v harc)

theorem next (h : g.Removing rest counters (v :: ready) removed) :
    ∃ counters' ready', release counters ready (g.next v) = some (counters', ready') ∧
      g.Removing (rest.erase v) counters' ready' (removed + 1) := by
  obtain ⟨hv, hzero⟩ := (h.mem_ready v).mp List.mem_cons_self
  obtain ⟨hnot, hn⟩ := List.nodup_cons.mp h.ready_nodup
  -- No arc from `rest` enters a vertex that is ready, so no cycle passes through it.
  have hsource : ∀ u ∈ rest, ¬ g.Arc u v := by
    intro u hu harc
    have := arcsInto_pos.mpr ⟨u, hu, harc⟩
    omega
  have hc (w : Nat) : counters.getD w 0 = g.arcsInto (rest.erase v) w + (g.next v).count w := by
    rw [h.counts, arcsInto_erase hv]
  have hz : ∀ w ∈ ready, counters.getD w 0 = 0 := by
    intro w hw
    rw [h.counts]
    exact ((h.mem_ready w).mp (List.mem_cons_of_mem v hw)).2
  obtain ⟨counters', ready', heq, hcounts, hnodup, hmem⟩ := release_spec hc hz hn
  refine ⟨counters', ready', heq, ?_⟩
  constructor
  case nodup => exact h.nodup.erase v
  case length =>
    have hlength := h.length
    have := List.length_pos_of_mem hv
    rw [List.length_erase_of_mem hv]
    omega
  case counts => exact hcounts
  case ready_nodup => exact hnodup
  case mem_ready =>
    intro w
    have harcs := arcsInto_erase (g := g) hv w
    rw [hmem, h.nodup.mem_erase_iff]
    constructor
    · rintro (hw | ⟨hw, hleft⟩)
      · obtain ⟨hrest, hw0⟩ := (h.mem_ready w).mp (List.mem_cons_of_mem v hw)
        refine ⟨⟨?_, hrest⟩, by omega⟩
        rintro rfl
        exact hnot hw
      · refine ⟨⟨?_, h.closed v hv w hw⟩, hleft⟩
        rintro rfl
        exact hsource w hv hw
    · rintro ⟨⟨hne, hrest⟩, hleft⟩
      by_cases hw : w ∈ g.next v
      · exact .inr ⟨hw, hleft⟩
      · have hcount := List.count_eq_zero_of_not_mem hw
        have hready := (h.mem_ready w).mpr ⟨hrest, by omega⟩
        exact .inl ((List.mem_cons.mp hready).resolve_left hne)
  case closed =>
    intro u hu w harc
    have hrest := List.mem_of_mem_erase hu
    rw [h.nodup.mem_erase_iff]
    refine ⟨?_, h.closed u hrest w harc⟩
    rintro rfl
    exact hsource u hrest harc
  case cycles =>
    intro w hw
    rw [h.nodup.mem_erase_iff]
    refine ⟨?_, h.cycles w hw⟩
    rintro rfl
    obtain ⟨u, hwu, harc⟩ := TransGen.tail'_iff.mp hw
    exact hsource u (h.cycles u (TransGen.head' harc hwu)) harc

theorem finish (h : g.Removing rest counters ready removed) : ∃ left counters' n,
    g.removeReady counters ready removed = some n ∧ g.Removing left counters' [] n := by
  induction hk : rest.length generalizing rest counters ready removed with
  | zero =>
    cases ready with
    | nil => exact ⟨rest, counters, removed, by rw [removeReady], h⟩
    | cons v ready =>
      have hv := ((h.mem_ready v).mp List.mem_cons_self).1
      rw [List.length_eq_zero_iff.mp hk] at hv
      exact absurd hv List.not_mem_nil
  | succ k ih =>
    cases ready with
    | nil => exact ⟨rest, counters, removed, by rw [removeReady], h⟩
    | cons v ready =>
      have hv := ((h.mem_ready v).mp List.mem_cons_self).1
      obtain ⟨counters', ready', heq, hnext⟩ := h.next
      have hlength : (rest.erase v).length = k := by
        rw [List.length_erase_of_mem hv, hk]
        rfl
      obtain ⟨left, counters'', n, hn, hleft⟩ := ih hnext hlength
      refine ⟨left, counters'', n, ?_, hleft⟩
      rw [removeReady]
      split
      · rename_i he
        rw [heq] at he
        cases he
      · rename_i he
        rw [heq] at he
        cases he
        exact hn

theorem mem_of_behindCycle (h : g.Removing rest counters ready removed)
    (hv : BehindCycle g.Arc v) : v ∈ rest := by
  obtain ⟨u, hcycle, hpath⟩ := hv
  induction hpath with
  | refl => exact h.cycles u hcycle
  | tail _ harc ih => exact h.closed _ ih _ harc

theorem mem_iff (h : g.Removing rest counters [] removed) : v ∈ rest ↔ BehindCycle g.Arc v := by
  -- When nothing is ready, an arc from `rest` enters each of its vertices.
  refine ⟨fun hv => behindCycle_of_before (fun w hw => ?_) hv, h.mem_of_behindCycle⟩
  apply arcsInto_pos.mp
  apply Nat.pos_of_ne_zero
  intro hzero
  exact List.not_mem_nil ((h.mem_ready w).mpr ⟨hw, hzero⟩)

theorem eq_nil_iff (h : g.Removing rest counters [] removed) : rest = [] ↔ g.Acyclic := by
  rw [List.eq_nil_iff_forall_not_mem]
  constructor
  · exact fun hnone v hv => hnone v (h.cycles v hv)
  · intro ha v hv
    obtain ⟨u, hcycle, -⟩ := h.mem_iff.mp hv
    exact ha u hcycle

end Removing

variable (hb : g.Bounded) (hi : ∀ v, indegrees.getD v 0 = g.arcsInto (List.range g.size) v)
include hb hi

theorem eliminate_eq : g.eliminate indegrees =
    some { v | v < g.size ∧ ¬ BehindCycle g.Arc v }.ncard := by
  obtain ⟨left, counters, n, hn, h⟩ := (Removing.start hb hi).finish
  have hsub : left.toFinset ⊆ Finset.range g.size := by
    intro v hv
    obtain ⟨u, harc⟩ := (h.mem_iff.mp (List.mem_toFinset.mp hv)).exists_before
    exact Finset.mem_range.mpr (hb u v harc)
  have hset : { v | v < g.size ∧ ¬ BehindCycle g.Arc v } =
      (Finset.range g.size \ left.toFinset : Finset Nat) := by
    ext v
    simp [h.mem_iff]
  rw [hset, Set.ncard_coe_finset, Finset.card_sdiff_of_subset hsub, Finset.card_range,
    List.toFinset_card_of_nodup h.nodup, ← h.length, Nat.add_sub_cancel]
  exact hn

theorem isCyclic_eq_false_iff : g.isCyclic indegrees = false ↔ g.Acyclic := by
  obtain ⟨left, counters, n, hn, h⟩ := (Removing.start hb hi).finish
  have heq : g.eliminate indegrees = some n := hn
  have hlength := h.length
  rw [← h.eq_nil_iff, isCyclic, heq, bne_eq_false_iff_eq, Option.some.injEq, ← List.length_eq_zero_iff]
  omega

theorem isCyclic_iff : g.isCyclic indegrees = true ↔ ∃ v, TransGen g.Arc v v := by
  rw [← Bool.not_eq_false, isCyclic_eq_false_iff hb hi, Acyclic, not_forall_not]

end Digraph

end Spacing
