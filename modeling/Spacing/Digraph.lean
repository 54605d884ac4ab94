/-!
Directed graphs on the vertices `0, 1, …`, given by successor lists in which an arc may repeat.
`eliminate` counts the vertices that fall away when sources are removed one after another, and
`order` lists the vertices so that on an acyclic graph every arc leads forward.
-/

namespace Spacing

structure Digraph where
  successors : Array (List Nat)

namespace Digraph

def size (g : Digraph) : Nat :=
  g.successors.size

def next (g : Digraph) (v : Nat) : List Nat :=
  g.successors.getD v []

/-- Counts one arc less into each target, and adds a target that no counted arc enters any more to
the ready vertices. There is no result if an arc was never counted. -/
def release (counters : Array Nat) (ready : List Nat) : List Nat → Option (Array Nat × List Nat)
  | [] => some (counters, ready)
  | r :: rs =>
    match counters.getD r 0 with
    | 0 => none
    | k + 1 => release (counters.setIfInBounds r k) (if k = 0 then r :: ready else ready) rs

theorem countP_countDown {counters : Array Nat} {r k : Nat} (h : counters.getD r 0 = k + 1) :
    (counters.setIfInBounds r k).toList.countP (0 < ·) + (if k = 0 then 1 else 0) =
      counters.toList.countP (0 < ·) := by
  obtain ⟨hr, hget⟩ : ∃ hr : r < counters.toList.length, counters.toList[r] = k + 1 := by
    simp only [Array.getD] at h
    split at h
    · exact ⟨‹_›, h⟩
    · cases h
  have hpos : 0 < counters.toList.countP (0 < ·) :=
    List.countP_pos_iff.mpr ⟨counters.toList[r], List.getElem_mem hr, by simp [hget]⟩
  rw [Array.toList_setIfInBounds, List.countP_set hr, hget, if_pos (by simp)]
  by_cases hk : k = 0
  · subst hk
    exact Nat.sub_add_cancel hpos
  · rw [if_neg hk, if_pos (by simpa using Nat.pos_of_ne_zero hk)]
    exact Nat.sub_add_cancel hpos

theorem countP_add_length_release {counters : Array Nat} {ready targets : List Nat}
    {out : Array Nat × List Nat} (h : release counters ready targets = some out) :
    out.1.toList.countP (0 < ·) + out.2.length = counters.toList.countP (0 < ·) + ready.length := by
  induction targets generalizing counters ready with
  | nil =>
    cases h
    rfl
  | cons r rs ih =>
    simp only [release] at h
    split at h
    · cases h
    · rename_i k hk
      rw [ih h, ← countP_countDown hk]
      split
      · simp only [List.length_cons]
        omega
      · rfl

def removeReady (g : Digraph) (counters : Array Nat) (ready : List Nat) (removed : Nat) :
    Option Nat :=
  match ready with
  | [] => some removed
  | v :: ready =>
    match h : release counters ready (g.next v) with
    | none => none
    | some (counters, ready) => g.removeReady counters ready (removed + 1)
termination_by counters.toList.countP (0 < ·) + ready.length
decreasing_by
  have := countP_add_length_release h
  simp only [List.length_cons] at this ⊢
  omega

def eliminate (g : Digraph) (indegrees : Array Nat) : Option Nat :=
  g.removeReady indegrees ((List.range g.size).filter fun v => indegrees.getD v 0 == 0) 0

def isCyclic (g : Digraph) (indegrees : Array Nat) : Bool :=
  g.eliminate indegrees != some g.size

/-- Depth-first walk over the vertices of `unseen`. A frame is a vertex with those of its
successors that are still to be looked at; a vertex is put in front of `order` when it has none
left, so behind it are the vertices it leads to. -/
def walk (g : Digraph) (unseen : List Nat) (frames : List (Nat × List Nat)) (order : List Nat) :
    List Nat × List Nat :=
  match frames with
  | [] => (unseen, order)
  | (v, []) :: frames => g.walk unseen frames (v :: order)
  | (v, r :: rs) :: frames =>
    if r ∈ unseen then
      g.walk (unseen.erase r) ((r, g.next r) :: (v, rs) :: frames) order
    else
      g.walk unseen ((v, rs) :: frames) order
termination_by
  (unseen.flatMap fun v => v :: g.next v).length + (frames.flatMap fun f => f.1 :: f.2).length
decreasing_by
  · simp
  · rename_i h
    have hperm := ((List.perm_cons_erase h).flatMap_right fun v => v :: g.next v).length_eq
    simp only [List.flatMap_cons, List.length_append, List.length_cons] at hperm ⊢
    omega
  · simp

def walkFrom (g : Digraph) (state : List Nat × List Nat) (root : Nat) : List Nat × List Nat :=
  if root ∈ state.1 then
    g.walk (state.1.erase root) [(root, g.next root)] state.2
  else
    state

/-- Every vertex once. The walk starts at each of `sources` first, then at what is left, which can
only be reached on a cycle if `sources` are all the vertices that no arc enters. -/
def order (g : Digraph) (sources : List Nat) : List Nat :=
  ((sources ++ List.range g.size).foldl g.walkFrom (List.range g.size, [])).2

end Digraph

end Spacing
