import Spacing.Arrangement.Merge
import Spacing.Arrangement.Tree

namespace Spacing.Arrangement

variable {α : Type} [Scalar α]

def detach (a : Arrangement α) (old : BlockId) (start : VarId) (position : α) :
    Arrangement α × BlockId :=
  let b := a.blocks.size
  let members := start :: (a.problem.tree old start).map Branch.child
  let problem := members.foldl (fun p v => p.modifyVariable v fun x => { x with block := b })
    a.problem
  ({ a with
      problem
      blocks := a.blocks.push (some (Block.place problem members position))
      live := a.live ++ [b] }, b)

/-- Makes `c` inactive and splits its block into the part with the left end and the part with the
right end, which are returned in this order. -/
def split (a : Arrangement α) (c : ConId) : Except Abort (Arrangement α × BlockId × BlockId) :=
  let k := a.problem.constraintAt c
  let old := a.leftBlock c
  if a.rightBlock c ≠ old then .error (.endsApart c) else
  match a.block? old with
  | none => .error (.noBlock old)
  | some b =>
    let a := { a with problem := a.problem.modifyConstraint c fun k => { k with active := false } }
    let (a, left) := a.detach old k.left b.position
    let (a, right) := a.detach old k.right b.position
    let a := { a with blocks := a.blocks.setIfInBounds old none }
    .ok (a.record (.split c k.multiplier left right), left, right)

theorem standing_split {a a' : Arrangement α} {c : ConId} {l r : BlockId}
    (h : a.split c = .ok (a', l, r)) : a'.standing = a.standing + 1 := by
  simp only [split] at h
  split at h
  · simp at h
  · split at h
    · simp at h
    · rename_i b hb
      simp only [Except.ok.injEq, Prod.mk.injEq] at h
      rw [← h.1]
      have key (x y : Block α) :
          (((a.blocks.push (some x)).push (some y)).setIfInBounds (a.leftBlock c) none).countP
            Option.isSome = a.blocks.countP Option.isSome + 1 := by
        have := Slots.countP_set_none
          (Slots.getD_push_of_some (o := some y) (Slots.getD_push_of_some (o := some x) hb))
        simp only [Array.countP_push, Option.isSome_some, ↓reduceIte] at this
        omega
      exact key _ _

/-- Splits the block of `u` and `v` on the constraint that the path between them can best do
without. The result names that constraint, or none if the path has none that can be released. -/
def splitBetween (a : Arrangement α) (u v : VarId) :
    Except Abort (Arrangement α × Option ConId) := do
  match a.leastOnPath u v with
  | (a, none) => return (a, none)
  | (a, some c) =>
    let (a, _) ← a.split c
    return (a, some c)

theorem standing_leastOnPath (a : Arrangement α) (u v : VarId) :
    (a.leastOnPath u v).1.standing = a.standing := rfl

theorem standing_splitBetween {a a' : Arrangement α} {u v : VarId} {freed : Option ConId}
    (h : a.splitBetween u v = .ok (a', freed)) :
    a'.standing = a.standing + if freed.isSome then 1 else 0 := by
  have hp := a.standing_leastOnPath u v
  rw [splitBetween] at h
  split at h
  · rename_i a₁ ha
    rw [ha] at hp
    obtain ⟨rfl, rfl⟩ : a₁ = a' ∧ none = freed := by
      simpa [pure, Except.pure] using h
    simpa using hp
  · rename_i a₁ c ha
    rw [ha] at hp
    cases hs : a₁.split c with
    | error e => simp [hs, bind, Except.bind] at h
    | ok r =>
      obtain ⟨a₂, l, r⟩ := r
      obtain ⟨rfl, rfl⟩ : a₂ = a' ∧ some c = freed := by
        simpa [hs, bind, Except.bind, pure, Except.pure] using h
      rw [standing_split hs]
      simpa using hp

/-- Splits on `c`, then lets the left part go where it wants to be and merge to the left, and after it
whatever block holds the right end likewise to the right. -/
def rebalance (a : Arrangement α) (c : ConId) : Except Abort (Arrangement α) := do
  let (a, left, _) ← a.split c
  let (a, _) ← (a.settle left).mergeTowards .left left
  let right := a.rightBlock c
  let (a, _) ← (a.settle right).mergeTowards .right right
  return a

end Spacing.Arrangement
