import Spacing.Arrangement.Basic
/-!
The active constraints of a block join its members into a tree. Walks over it find the members on
either side of a constraint and the constraint's Lagrange multiplier.
-/

namespace Spacing

variable {α : Type}

structure Crossing where
  via : ConId
  forward : Bool
deriving Repr, DecidableEq

structure Branch extends Crossing where
  parent : VarId
  child : VarId
deriving Repr, DecidableEq

namespace Problem

variable [Scalar α]

def crossings (p : Problem α) (v : VarId) : List Crossing :=
  let x := p.variableAt v
  x.outs.map (⟨·, true⟩) ++ x.ins.map (⟨·, false⟩)

def farEnd (p : Problem α) (x : Crossing) : VarId :=
  let k := p.constraintAt x.via
  if x.forward then k.right else k.left

/-- Takes, one after another, the active crossings that reach a variable of `unseen`. What is left of
`unseen` is returned with them. -/
def branch (p : Problem α) (v : VarId) (unseen : List VarId) :
    List Crossing → List Branch × List VarId
  | [] => ([], unseen)
  | x :: xs =>
    let u := p.farEnd x
    if (p.constraintAt x.via).active ∧ u ∈ unseen then
      let (found, rest) := p.branch v (unseen.erase u) xs
      (⟨x, v, u⟩ :: found, rest)
    else
      p.branch v unseen xs

theorem branch_length (p : Problem α) (v : VarId) (unseen : List VarId) (xs : List Crossing) :
    (p.branch v unseen xs).1.length + (p.branch v unseen xs).2.length = unseen.length := by
  induction xs generalizing unseen with
  | nil => simp [branch]
  | cons x xs ih =>
    simp only [branch]
    split
    · rename_i h
      have h1 := ih (unseen.erase (p.farEnd x))
      have h2 := List.length_erase_of_mem h.2
      have h3 := List.length_pos_of_mem h.2
      simp only [List.length_cons]
      omega
    · exact ih unseen

def walk (p : Problem α) (unseen stack : List VarId) : List Branch :=
  match stack with
  | [] => []
  | v :: stack =>
    let found := p.branch v unseen (p.crossings v)
    found.1 ++ p.walk found.2 ((found.1.map Branch.child).reverse ++ stack)
termination_by unseen.length + stack.length
decreasing_by
  have := p.branch_length v unseen (p.crossings v)
  simp only [List.length_append, List.length_reverse, List.length_map, List.length_cons]
  omega

def tree (p : Problem α) (b : BlockId) (root : VarId) : List Branch :=
  p.walk ((p.variableIds.filter fun v => p.blockOf v = b).erase root) [root]

end Problem

/-- Goes through branches, last found first, and gives each constraint what its child and all beyond
the child want, where `want` is what each variable alone wants. It counts as positive if the child is
on the right. -/
def multipliers [Scalar α] (want : Array α) : List Branch → List (ConId × α)
  | [] => []
  | b :: bs =>
    let x := want.getD b.child Scalar.zero
    (b.via, if b.forward then x else -x) :: multipliers (want.modify b.parent (· + x)) bs

def pathTo (v : VarId) : List Branch → List Branch
  | [] => []
  | b :: bs => if b.child = v then b :: pathTo b.parent bs else pathTo v bs

namespace Arrangement

variable [Scalar α]

def derivatives (a : Arrangement α) (b : BlockId) : Array α :=
  let position := (a.blockAt b).position
  a.problem.vars.map fun x => Scalar.two * x.weight * (position + x.offset - x.desired)

def multipliersOf (a : Arrangement α) (b : BlockId) : List (ConId × α) :=
  match (a.blockAt b).members.head? with
  | none => []
  | some root => multipliers (a.derivatives b) (a.problem.tree b root).reverse

def isReleasable (a : Arrangement α) (c : ConId) : Bool :=
  !(a.problem.constraintAt c).equality

def isNegative (a : Arrangement α) (c : ConId) : Bool :=
  decide ((a.problem.constraintAt c).multiplier < -Scalar.epsilon)

def writeMultipliers (a : Arrangement α) (ms : List (ConId × α)) : Arrangement α :=
  { a with problem := ms.foldl (fun p m =>
      p.modifyConstraint m.1 fun k => { k with multiplier := m.2 }) a.problem }

def leastMultiplier (a : Arrangement α) (b : BlockId) : Arrangement α × Option ConId :=
  let ms := a.multipliersOf b
  let least := firstLeast Prod.snd (ms.filter fun m => a.isReleasable m.1)
  (a.writeMultipliers ms, least.map Prod.fst)

def path (a : Arrangement α) (u v : VarId) : List Branch :=
  pathTo v (a.problem.tree (a.blockOf u) u).reverse

/-- Writes the multipliers of the block of `u` and finds, among the releasable constraints that the
path from `u` to `v` crosses from left to right, the one of least multiplier. -/
def leastOnPath (a : Arrangement α) (u v : VarId) : Arrangement α × Option ConId :=
  let (a, _) := a.leastMultiplier (a.blockOf u)
  let candidates := (a.path u v).filter fun b => b.forward && a.isReleasable b.via
  let least := firstLeast (fun b => (a.problem.constraintAt b.via).multiplier) candidates
  (a, least.map fun b => b.via)

end Arrangement

end Spacing
