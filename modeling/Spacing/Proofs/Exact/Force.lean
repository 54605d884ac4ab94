import Spacing.Proofs.Exact.Average
import Spacing.Proofs.Exact.Certificate
import Spacing.Proofs.Solver.Idempotence
import Spacing.Proofs.Solver.Parting

namespace Spacing

section Least

variable {β : Type} {f : β → Rat} {xs : List β}

structure LeastIn (f : β → Rat) (S : Set β) (least : Option β) : Prop where
  none_iff : least = none ↔ ∀ x, x ∉ S
  mem : ∀ x, least = some x → x ∈ S
  le : ∀ x, least = some x → ∀ y ∈ S, f x ≤ f y

theorem leastIn_firstLeast {γ : Type} {g : γ → Rat} {S : Set γ} {h : β → γ}
    (hS : ∀ z, z ∈ S ↔ z ∈ xs.map h) (hg : ∀ x ∈ xs, g (h x) = f x) :
    LeastIn g S ((firstLeast f xs).map h) := by
  constructor
  case none_iff =>
    constructor
    · intro hnone z hz
      obtain ⟨x, hx, rfl⟩ := List.mem_map.mp ((hS z).mp hz)
      obtain ⟨y, hy⟩ := exists_firstLeast (f := f) hx
      cases (Option.map_eq_none_iff.mp hnone).symm.trans hy
    · intro hempty
      cases hx : firstLeast f xs with
      | none => rfl
      | some x => exact absurd ((hS _).mpr (List.mem_map_of_mem (mem_of_firstLeast hx))) (hempty _)
  case mem =>
    intro z hz
    obtain ⟨x, hx, rfl⟩ := Option.map_eq_some_iff.mp hz
    exact (hS _).mpr (List.mem_map_of_mem (mem_of_firstLeast hx))
  case le =>
    intro z hz w hw
    obtain ⟨x, hx, rfl⟩ := Option.map_eq_some_iff.mp hz
    obtain ⟨y, hy, rfl⟩ := List.mem_map.mp ((hS w).mp hw)
    rw [hg x (mem_of_firstLeast hx), hg y hy]
    exact firstLeast_le hx hy

end Least

def Problem.pressure (p : Problem Rat) (cs : List ConId) : Rat :=
  ((cs.filter fun c => (p.constraintAt c).active).map fun c => (p.constraintAt c).multiplier).sum

namespace Arrangement

variable {a : Arrangement Rat} {b : BlockId} {B : Block Rat} {c : ConId} {v root : VarId}

/-- The derivative of the cost by the place of variable `v`. -/
def slope (a : Arrangement Rat) (v : VarId) : Rat :=
  2 * (a.problem.variableAt v).weight * (a.position v - (a.problem.variableAt v).desired)

theorem sum_slope (a : Arrangement Rat) (vs : List VarId) :
    (vs.map a.slope).sum = 2 * a.problem.tension a.position vs := by
  rw [Problem.tension, ← List.sum_map_mul_left]
  refine congrArg List.sum (List.map_congr_left fun v _ => ?_)
  exact mul_assoc _ _ _

structure Attributed (a : Arrangement Rat) (b : BlockId) : Prop where
  balance : ∀ v < a.problem.vars.size, a.blockOf v = b → a.slope v =
    a.problem.pressure (a.problem.variableAt v).ins - a.problem.pressure (a.problem.variableAt v).outs
  beyond : ∀ c ∈ a.treeOf b, ∃ R : List VarId, R.Nodup ∧
    (∀ v, v ∈ R ↔ a.problem.edges.Linked (a.treeOf b \ {c}) (a.problem.edges.right c) v) ∧
      (a.problem.constraintAt c).multiplier = (R.map a.slope).sum
  anywhere : ∀ root < a.problem.vars.size, a.blockOf root = b → ∀ c x,
    (c, x) ∈ a.multipliersFrom b root ↔
      c ∈ a.treeOf b ∧ x = (a.problem.constraintAt c).multiplier

theorem exists_multiplier (ha : a.Intact) (hB : a.block? b = some B) (hr : root ∈ B.members)
    (hc : c ∈ a.treeOf b) : ∃ x, (c, x) ∈ a.multipliersFrom b root := by
  obtain ⟨m, hm, rfl⟩ := List.mem_map.mp ((mem_fst_multipliersFrom ha hB hr).mpr hc)
  exact ⟨m.2, hm⟩

theorem exists_multipliersOf_eq (ha : a.Intact) (hB : a.block? b = some B) :
    ∃ root ∈ B.members, a.multipliersOf b = a.multipliersFrom b root := by
  obtain ⟨root, rest, hmem⟩ := List.exists_cons_of_ne_nil (ha.nonempty b B hB)
  exact ⟨root, hmem ▸ List.mem_cons_self, multipliersOf_eq hB (hmem ▸ List.head?_cons)⟩

section Noted

variable (ha : a.Intact) (hB : a.block? b = some B) (hn : a.Noted b)
include ha hB hn

theorem Noted.beyond (ht : a.tension b = 0) (hc : c ∈ a.treeOf b) : ∃ R : List VarId, R.Nodup ∧
    (∀ v, v ∈ R ↔ a.problem.edges.Linked (a.treeOf b \ {c}) (a.problem.edges.right c) v) ∧
    (a.problem.constraintAt c).multiplier = (R.map a.slope).sum ∧
      ∀ root ∈ B.members, ∀ x, (c, x) ∈ a.multipliersFrom b root → x = (R.map a.slope).sum := by
  -- All walks agree, and so does what was written down by one of them.
  obtain ⟨hactive, rfl⟩ := hc
  obtain ⟨a', l, r, B', L, R, -, h⟩ := exists_parted ha hactive
  obtain rfl : B' = B := Option.some.inj (h.old.symm.trans hB)
  have hwalk (root : VarId) (hr : root ∈ B'.members) (x : Rat)
      (hx : (c, x) ∈ a.multipliersFrom (a.leftBlock c) root) : x = (R.map a.slope).sum := by
    rw [sum_slope]
    exact h.multiplier_eq ha ht hr hx
  refine ⟨R, h.nodup_right, h.component_right, ?_, hwalk⟩
  obtain ⟨root, hr, hroot⟩ := exists_multipliersOf_eq ha hB
  obtain ⟨x, hx⟩ := exists_multiplier ha hB hr ⟨hactive, rfl⟩
  rw [hn (c, x) (hroot ▸ hx)]
  exact hwalk root hr x hx

theorem Noted.pressure_eq (side : Side) (hv : a.blockOf v = b) :
    ((a.multipliersOf b).map fun m =>
      m.2 * if a.problem.edges.endOn side.other m.1 = v then 1 else 0).sum =
        a.problem.pressure ((a.problem.variableAt v).towards side) := by
  obtain ⟨root, hr, hroot⟩ := exists_multipliersOf_eq ha hB
  let ends (m : ConId × Rat) : Bool := decide (a.problem.edges.endOn side.other m.1 = v)
  let mine := (a.multipliersOf b).filter ends
  have hterm : ((a.multipliersOf b).map fun m =>
      m.2 * if a.problem.edges.endOn side.other m.1 = v then 1 else 0) =
        (a.multipliersOf b).map fun m => if ends m then m.2 else 0 := by
    refine List.map_congr_left fun m _ => ?_
    simp only [ends, decide_eq_true_eq]
    split
    · exact mul_one _
    · exact mul_zero _
  have hnoted : mine.map Prod.snd =
      (mine.map Prod.fst).map fun c => (a.problem.constraintAt c).multiplier := by
    rw [List.map_map]
    exact List.map_congr_left fun m hm => (hn m (List.mem_of_mem_filter hm)).symm
  -- The active constraints at `v` are all in its block, and the others have no part in the pressure.
  have hperm : (mine.map Prod.fst).Perm (((a.problem.variableAt v).towards side).filter fun c =>
      (a.problem.constraintAt c).active) := by
    refine (List.perm_ext_iff_of_nodup ?_ ((ha.consistent.nodup_towards side v).filter _)).mpr
      fun c => ?_
    · exact (nodup_fst_multipliersOf ha.consistent b).sublist (List.filter_sublist.map _)
    · have htree := mem_fst_multipliersFrom (c := c) ha hB hr
      rw [← hroot] at htree
      rw [List.mem_filter, ha.consistent.mem_towards side]
      constructor
      · intro hc
        obtain ⟨m, hm, rfl⟩ := List.mem_map.mp hc
        obtain ⟨hm, hend⟩ := List.mem_filter.mp hm
        obtain ⟨hactive, -⟩ := htree.mp (List.mem_map_of_mem hm)
        exact ⟨⟨Problem.lt_size_of_mem_active hactive, of_decide_eq_true hend⟩, hactive⟩
      · rintro ⟨⟨-, hend⟩, hactive⟩
        have hcb : a.leftBlock c = b := by
          cases side
          · exact (ha.together c hactive).trans ((congrArg a.blockOf hend).trans hv)
          · exact (congrArg a.blockOf hend).trans hv
        obtain ⟨m, hm, rfl⟩ := List.mem_map.mp (htree.mpr ⟨hactive, hcb⟩)
        exact List.mem_map_of_mem (List.mem_filter.mpr ⟨hm, decide_eq_true hend⟩)
  rw [hterm, sum_map_ite, hnoted, Problem.pressure]
  exact (hperm.map _).sum_eq

theorem Noted.balance (ht : a.tension b = 0) (hv : v ∈ B.members) : a.slope v =
    a.problem.pressure (a.problem.variableAt v).ins -
      a.problem.pressure (a.problem.variableAt v).outs := by
  obtain ⟨root, hr, hroot⟩ := exists_multipliersOf_eq ha hB
  have hvb := ha.blockOf_eq hB hv
  let z (u : VarId) : Rat := if u = v then 1 else 0
  have hsum := sum_multipliersFrom ha hB ht hr z
  have hwork : a.problem.work a.position z B.members = (a.problem.variableAt v).weight *
      (a.position v - (a.problem.variableAt v).desired) := by
    refine (sum_map_eq_of_nodup (ha.nodup b B hB) hv fun u _ huv => ?_).trans ?_
    · exact mul_eq_zero_of_right _ (if_neg huv)
    · simp only [z, if_true, mul_one]
  have hin := hn.pressure_eq ha hB .left hvb
  have hout := hn.pressure_eq ha hB .right hvb
  change _ = a.problem.pressure (a.problem.variableAt v).ins at hin
  change _ = a.problem.pressure (a.problem.variableAt v).outs at hout
  rw [← hin, ← hout, eq_sub_iff_add_eq, slope, mul_assoc, ← hwork, ← hsum, hroot, ← List.sum_map_add]
  refine congrArg List.sum (List.map_congr_left fun m _ => ?_)
  exact (congrArg (· + _) (mul_sub ..)).trans (sub_add_cancel ..)

theorem Noted.attributed (ht : a.tension b = 0) : a.Attributed b := by
  constructor
  case balance => exact fun v hv hvb => hn.balance ha hB ht (ha.mem_of_blockOf hB hv hvb)
  case beyond =>
    intro c hc
    obtain ⟨R, hnodup, hmem, hsum, -⟩ := hn.beyond ha hB ht hc
    exact ⟨R, hnodup, hmem, hsum⟩
  case anywhere =>
    intro root hlt hrb c x
    have hr := ha.mem_of_blockOf hB hlt hrb
    have hagree (hc : c ∈ a.treeOf b) {y : Rat} (hy : (c, y) ∈ a.multipliersFrom b root) :
        y = (a.problem.constraintAt c).multiplier := by
      obtain ⟨R, -, -, hsum, hwalk⟩ := hn.beyond ha hB ht hc
      exact (hwalk root hr y hy).trans hsum.symm
    constructor
    · intro hx
      have hc : c ∈ a.treeOf b := (mem_fst_multipliersFrom ha hB hr).mp (List.mem_map_of_mem hx)
      exact ⟨hc, hagree hc hx⟩
    · rintro ⟨hc, rfl⟩
      obtain ⟨y, hy⟩ := exists_multiplier ha hB hr hc
      exact hagree hc hy ▸ hy

end Noted

theorem leastMultiplier_least (ha : a.Intact) (hB : a.block? b = some B) :
    LeastIn (fun c => ((a.leastMultiplier b).1.problem.constraintAt c).multiplier)
      { c ∈ a.treeOf b | (a.problem.constraintAt c).equality = false } (a.leastMultiplier b).2 := by
  apply leastIn_firstLeast
  · intro c
    obtain ⟨root, hr, hroot⟩ := exists_multipliersOf_eq ha hB
    have htree : c ∈ (a.multipliersOf b).map Prod.fst ↔ c ∈ a.treeOf b :=
      hroot ▸ mem_fst_multipliersFrom ha hB hr
    constructor
    · rintro ⟨hc, he⟩
      obtain ⟨m, hm, rfl⟩ := List.mem_map.mp (htree.mpr hc)
      exact List.mem_map_of_mem (List.mem_filter.mpr ⟨hm, congrArg Bool.not he⟩)
    · intro hc
      obtain ⟨m, hm, rfl⟩ := List.mem_map.mp hc
      obtain ⟨hm, hrel⟩ := List.mem_filter.mp hm
      exact ⟨htree.mp (List.mem_map_of_mem hm), by simpa [isReleasable] using hrel⟩
  · rintro ⟨c, x⟩ hm
    exact multiplier_writeMultipliers ha (List.mem_of_mem_filter hm)

end Arrangement

namespace Solver

open Arrangement

/-- Whatever operations a new solver performs, the multipliers that are then written down for a block
are its forces, if it rests, and the constraint that is found is a releasable one of least multiplier. -/
theorem attributed_run {p : Problem Rat} (hp : p.Built) (mode : Mode) (options : Options Rat)
    (rounds : Nat) (ops : List (Operation Rat)) :
    YieldsUnless (Excused p ops) ((new p mode options).run rounds ops) fun r =>
      ∀ s, r.1.Leads s → ∀ b ∈ s.arrangement.blockIds,
        let a := (s.arrangement.leastMultiplier b).1
        Still s.arrangement a ∧ (s.arrangement.Rests b → a.Attributed b) ∧
          LeastIn (fun c => (a.problem.constraintAt c).multiplier)
            { c ∈ s.arrangement.treeOf b | (s.problem.constraintAt c).equality = false }
            (s.arrangement.leastMultiplier b).2 := by
  apply (leads_run hp mode options rounds ops).mono fun _ he => he
  intro r hr s hs b hb
  have ha := hs.sound.intact
  have hbal := balanced_of_leads hp (hr.trans hs)
  obtain ⟨B, hB⟩ := Option.isSome_iff_exists.mp (List.mem_filter.mp hb).2
  have hstill := still_writeMultipliers s.arrangement (s.arrangement.multipliersOf b)
  refine ⟨hstill, fun hrest => ?_, leastMultiplier_least ha hB⟩
  apply (noted_writeMultipliers ha b).attributed (ha.writeMultipliers _) hB
  exact (hstill.tension_eq b).trans ((rests_iff ha hbal).mp hrest)

theorem attributed_run_fork : ∃ s replies,
    (new Problem.fork .batch Options.standard).run 0 [.satisfy] = .ok (s, replies) ∧
      0 ∈ s.arrangement.blockIds ∧ s.arrangement.Rests 0 ∧
      (s.arrangement.leastMultiplier 0).1.Attributed 0 ∧
      (s.arrangement.leastMultiplier 0).2 = some 1 ∧
      LeastIn (fun c => ((s.arrangement.leastMultiplier 0).1.problem.constraintAt c).multiplier)
        { c ∈ s.arrangement.treeOf 0 | (s.problem.constraintAt c).equality = false } (some 1) := by
  have hok : Yields ((new Problem.fork .batch Options.standard).run 0 [.satisfy]) fun r =>
      0 ∈ r.1.arrangement.blockIds ∧ r.1.arrangement.settle 0 = r.1.arrangement ∧
        (r.1.arrangement.leastMultiplier 0).2 = some 1 := by decide +kernel
  obtain ⟨⟨s, replies⟩, hrun, hlive, hrest, hleast⟩ := hok
  have hs : s.Leads s := (leads_of_run Problem.built_fork.consistent hrun).sound.with .refl
  obtain ⟨-, hforces, hfound⟩ := (attributed_run Problem.built_fork .batch Options.standard 0
    [.satisfy]).of_ok hrun s hs 0 hlive
  exact ⟨s, replies, hrun, hlive, hrest, hforces hrest, hleast, hleast ▸ hfound⟩

end Solver

end Spacing
