import Spacing.Arrangement.Split
import Spacing.Solver.Basic

namespace Spacing

variable {α : Type} [Scalar α]

inductive Step (α : Type)
  | finished (s : Solver α) (reply : Reply α)
  | resumed (s : Solver α) (splits : Nat)

namespace Solver

def pick (s : Solver α) (c : ConId) : Solver α :=
  { s with inactive := swapRemove s.inactive (s.inactive.idxOf c) }.record
    (.picked c (s.arrangement.slack c))

def mergeAcross (s : Solver α) (c : ConId) : Except Abort (Solver α) := do
  let (a, _) ← s.arrangement.merge c
  return { s with arrangement := a }

def cycle (s : Solver α) (c : ConId) (splits : Nat) : Failure α :=
  .cycle c (s.problem.leftId c) (s.problem.rightId c) splits

def isImplied (s : Solver α) (c : ConId) : Bool :=
  (s.problem.constraintAt c).equality && Scalar.within Scalar.epsilon (s.arrangement.slack c)

/-- Resolves a constraint inside a block, which is split on the path between the ends first. If nothing
there can be released, a batch run leaves the constraint to the final check. -/
def resolveInside (s : Solver α) (c : ConId) (splits : Nat) : Except Abort (Step α) := do
  let k := s.problem.constraintAt c
  let implied := s.isImplied c
  let (a, freed) ← s.arrangement.splitBetween k.left k.right
  let s := { s with arrangement := a }
  match freed with
  | some freed => return .resumed (← (s.watch freed).mergeAcross c) (splits + 1)
  | none =>
    if implied ∨ s.mode = .batch then return .resumed s (splits + 1)
    else return .finished s (.error (s.cycle c (splits + 1)))

def resolvePicked (s : Solver α) (c : ConId) (splits : Nat) : Except Abort (Step α) := do
  if s.arrangement.leftBlock c ≠ s.arrangement.rightBlock c then
    return .resumed (← s.mergeAcross c) splits
  else if s.options.maxSplits ≤ splits then
    return .finished s (.error (s.cycle c (splits + 1)))
  else
    s.resolveInside c splits

def resolveStep (s : Solver α) (splits : Nat) : Except Abort (Step α) :=
  match s.nextViolated with
  | none => .ok (.finished s.cleanUp (.ok ()))
  | some c => (s.pick c).resolvePicked c splits

theorem standing_mergeAcross {s t : Solver α} {c : ConId} (h : s.mergeAcross c = .ok t) :
    t.arrangement.standing + 1 = s.arrangement.standing ∧ t.options = s.options := by
  cases hm : s.arrangement.merge c with
  | error e => simp [mergeAcross, hm, bind, Except.bind] at h
  | ok r =>
    obtain rfl : { s with arrangement := r.1 } = t := by
      simpa [mergeAcross, hm, bind, Except.bind, pure, Except.pure] using h
    exact ⟨Arrangement.standing_merge hm, rfl⟩

theorem resumed_of_resolveInside {s t : Solver α} {c : ConId} {n m : Nat}
    (h : s.resolveInside c n = .ok (.resumed t m)) :
    m = n + 1 ∧ t.arrangement.standing = s.arrangement.standing ∧ t.options = s.options := by
  unfold resolveInside at h
  cases hb : s.arrangement.splitBetween (s.problem.constraintAt c).left
      (s.problem.constraintAt c).right with
  | error e => simp [hb, bind, Except.bind] at h
  | ok r =>
    obtain ⟨a, freed⟩ := r
    have hs := Arrangement.standing_splitBetween hb
    cases freed with
    | none =>
      simp only [hb, bind, Except.bind, pure, Except.pure] at h
      split at h
      · obtain ⟨rfl, rfl⟩ : { s with arrangement := a } = t ∧ n + 1 = m := by simpa using h
        exact ⟨rfl, hs, rfl⟩
      · simp at h
    | some freed =>
      cases hm : ({ s with arrangement := a }.watch freed).mergeAcross c with
      | error e => simp [hb, hm, bind, Except.bind] at h
      | ok u =>
        obtain ⟨rfl, rfl⟩ : u = t ∧ n + 1 = m := by
          simpa [hb, hm, bind, Except.bind, pure, Except.pure] using h
        obtain ⟨hu, ho⟩ := standing_mergeAcross hm
        have hu : u.arrangement.standing + 1 = a.standing := hu
        have hs : a.standing = s.arrangement.standing + 1 := hs
        exact ⟨rfl, by omega, ho⟩

/-- What a resolution uses up: blocks, and splits that are still allowed. -/
def budget (s : Solver α) (splits : Nat) : Nat :=
  s.arrangement.standing + (s.options.maxSplits - splits)

theorem budget_of_resolveStep {s t : Solver α} {n m : Nat}
    (h : s.resolveStep n = .ok (.resumed t m)) : t.budget m < s.budget n := by
  unfold resolveStep at h
  split at h
  · simp at h
  · rename_i c _
    unfold resolvePicked at h
    simp only [bind, Except.bind, pure, Except.pure] at h
    have hs : (s.pick c).arrangement.standing = s.arrangement.standing := rfl
    have ho : (s.pick c).options = s.options := rfl
    split at h
    · cases hm : (s.pick c).mergeAcross c with
      | error e => simp [hm] at h
      | ok u =>
        obtain ⟨rfl, rfl⟩ : u = t ∧ n = m := by simpa [hm] using h
        obtain ⟨h1, h2⟩ := standing_mergeAcross hm
        rw [budget, budget, h2, ho]
        omega
    · split at h
      · simp at h
      · obtain ⟨h1, h2, h3⟩ := resumed_of_resolveInside h
        rw [budget, budget, h3, ho]
        rw [ho] at *
        omega

def resolve (s : Solver α) (splits : Nat) : Except Abort (Solver α × Reply α) :=
  match _h : s.resolveStep splits with
  | .error e => .error e
  | .ok (.finished s reply) => .ok (s, reply)
  | .ok (.resumed s splits) => s.resolve splits
termination_by s.budget splits
decreasing_by exact budget_of_resolveStep _h

end Solver

end Spacing
