import Spacing.Proofs.Arrangement.Rebalance
import Spacing.Proofs.Exact.Motion
import Spacing.Proofs.Solver.Resolution

namespace Spacing

namespace Arrangement

variable {a a' a'' : Arrangement Rat} {b i t r l : BlockId} {s B : Block Rat} {c d : ConId}
  {u v : VarId} {shift x : Rat} {L R : List VarId} {side : Side}

structure Pulled (a : Arrangement Rat) (u : VarId) (x : Rat) : Prop where
  balanced : a.Balanced
  tension_eq : ∀ i, a.tension i = if i = a.blockOf u then x else 0

structure Resting (a : Arrangement Rat) : Prop where
  balanced : a.Balanced
  tension_eq : ∀ i, a.tension i = 0

theorem Resting.pulled (h : a.Resting) (u : VarId) : a.Pulled u 0 :=
  ⟨h.balanced, fun i => by rw [h.tension_eq, ite_self]⟩

theorem Pulled.resting (h : a.Pulled u 0) : a.Resting :=
  ⟨h.balanced, fun i => by rw [h.tension_eq, ite_self]⟩

theorem Resting.settle_eq (h : a.Resting) (ha : a.Intact) (hB : a.block? b = some B) :
    B.settle a.problem = B :=
  h.balanced.settle_eq_of_tension ha hB (h.tension_eq b)

theorem Still.pulled (h : Still a a') (hp : a.Pulled u x) : a'.Pulled u x :=
  ⟨hp.balanced.still h, fun i => by rw [h.tension_eq, h.blockOf_eq, hp.tension_eq]⟩

theorem Still.resting (h : Still a a') (hr : a.Resting) : a'.Resting :=
  ⟨hr.balanced.still h, fun i => by rw [h.tension_eq, hr.tension_eq]⟩

theorem Pulled.settle (hp : a.Pulled u x) (ha : a.Intact) : (a.settle (a.blockOf u)).Resting := by
  refine ⟨hp.balanced.settle ha, fun i => ?_⟩
  by_cases hi : i = a.blockOf u
  · rw [hi, tension_settle ha hp.balanced]
  · rw [tension_settle_of_ne ha hi, hp.tension_eq, if_neg hi]

theorem Merged.pulled_survivor (h : Merged a a' c t r s B shift) (ha : a.Intact)
    (hu : u < a.problem.vars.size) (hp : a.Pulled u x) :
    a'.tension t = if t = a'.blockOf u then x else 0 := by
  have hends := h.blockOf_eq_iff_ends ha hu
  have hne := h.ends_ne
  rw [h.tension_survivor ha hp.balanced, hp.tension_eq, hp.tension_eq]
  by_cases hl : a.blockOf u = a.leftBlock c
  · have hr : a.rightBlock c ≠ a.blockOf u := hl ▸ hne.symm
    rw [if_pos hl.symm, if_neg hr, if_pos (hends.mpr (.inl hl)).symm, add_zero]
  · by_cases hr : a.blockOf u = a.rightBlock c
    · rw [if_neg (Ne.symm hl), if_pos hr.symm, if_pos (hends.mpr (.inr hr)).symm, zero_add]
    · have hut : t ≠ a'.blockOf u := fun he => (hends.mp he.symm).elim hl hr
      rw [if_neg (Ne.symm hl), if_neg (Ne.symm hr), if_neg hut, add_zero]

theorem Merged.pulled (h : Merged a a' c t r s B shift) (ha : a.Intact) (hu : u < a.problem.vars.size)
    (hp : a.Pulled u x) : a'.Pulled u x := by
  refine ⟨h.balanced ha hp.balanced, fun i => ?_⟩
  by_cases hit : i = t
  · rw [hit]
    exact h.pulled_survivor ha hu hp
  · by_cases hir : i = r
    · have hne : r ≠ a'.blockOf u :=
        ((h.blockOf_ne_absorbed ha).resolve_right (Nat.not_le.mpr hu)).symm
      rw [hir, h.tension_absorbed, if_neg hne]
    · have hiu : i = a'.blockOf u ↔ i = a.blockOf u := by
        by_cases hur : a.blockOf u = r
        · rw [h.blockOf_of_eq ha hu hur, hur]
          exact iff_of_false hit hir
        · rw [h.blockOf_of_ne ha hur]
      rw [h.tension_of_ne ha hit hir, hp.tension_eq]
      simp only [hiu]

theorem Merged.resting (h : Merged a a' c t r s B shift) (ha : a.Intact) (hr : a.Resting) :
    a'.Resting :=
  (h.pulled ha (ha.consistent.leftEnd_lt h.lt_size) (hr.pulled _)).resting

theorem loopInvariant_pulled {p : Problem Rat} (hu : u < p.vars.size) (P : Rat → Prop) (side : Side) :
    LoopInvariant side fun a _ => a.problem.given = p.given ∧ ∃ x, P x ∧ a.Pulled u x where
  collect := fun a _ i _ ⟨hg, x, hx, hp⟩ => ⟨hg, x, hx, (still_collectBoundary a side i).pulled hp⟩
  merge := by
    rintro a b c a' t ha - - ⟨hg, x, hx, hp⟩ - - hm
    obtain ⟨r, s, B, shift, hmerged⟩ := merged_of_merge hm
    exact ⟨hmerged.given_eq.trans hg, x, hx, hmerged.pulled ha ((Problem.size_vars_eq hg).symm ▸ hu) hp⟩

theorem loopInvariant_resting (side : Side) : LoopInvariant side fun a _ => a.Resting where
  collect a _ i _ h := (still_collectBoundary a side i).resting h
  merge a b c a' t ha _ _ h _ _ hm := by
    obtain ⟨r, s, B, shift, hmerged⟩ := merged_of_merge hm
    exact hmerged.resting ha h

namespace Halved

variable (h : Halved a a' c l r B L R) (ha : a.Intact) (hc : c ∈ a.problem.active)
include h ha hc

omit ha hc in
theorem leftBlock_ne : a.leftBlock c ≠ l ∧ a.leftBlock c ≠ r := by
  have hlt := block?_eq_some_lt h.old
  rw [h.left_eq, h.right_eq]
  exact ⟨Nat.ne_of_lt hlt, Nat.ne_of_lt (Nat.lt_succ_of_lt hlt)⟩

theorem tension_of_resting (hr : a.Resting) (hil : i ≠ l) (hir : i ≠ r) : a'.tension i = 0 := by
  obtain ⟨hl, hr'⟩ := h.leftBlock_ne
  by_cases hio : i = a.leftBlock c
  · rw [hio, h.tension_old hl hr']
  · rw [h.tension_of_ne ha hc hil hir hio, hr.tension_eq]

theorem pulled_settle (hr : a.Resting) :
    (a'.settle l).Pulled (a.problem.edges.right c) (a.problem.tension a.position R) := by
  have ha' := h.intact ha hc
  have hb' := h.balanced hr.balanced
  have hright : (a'.settle l).blockOf (a.problem.edges.right c) = r :=
    h.blockOf_right ha hc h.ends_mem.2
  refine ⟨hb'.settle ha', fun i => ?_⟩
  rw [hright]
  by_cases hil : i = l
  · rw [hil, tension_settle ha' hb', if_neg h.left_ne_right]
  · rw [tension_settle_of_ne ha' hil]
    split
    · rename_i hir
      rw [hir, h.tension_right ha hc]
    · rename_i hir
      exact h.tension_of_resting ha hc hr hil hir

theorem resting_of_merged {t r' : BlockId} {s B' : Block Rat} (hr : a.Resting)
    (hL : a.problem.edges.left d ∈ L) (hR : a.problem.edges.right d ∈ R)
    (hm : Merged a' a'' d t r' s B' shift) : a''.Resting := by
  have ha' := h.intact ha hc
  have hb' := h.balanced hr.balanced
  have hl : a'.leftBlock d = l := by
    rw [leftBlock_eq, h.edges_eq]
    exact h.blockOf_left ha hc hL
  have hr' : a'.rightBlock d = r := by
    rw [rightBlock_eq, h.edges_eq]
    exact h.blockOf_right ha hc hR
  refine ⟨hm.balanced ha' hb', fun i => ?_⟩
  by_cases hit : i = t
  · rw [hit, hm.tension_survivor ha' hb', hl, hr', h.tension_add ha hc, hr.tension_eq]
  · by_cases hir : i = r'
    · rw [hir, hm.tension_absorbed]
    · rw [hm.tension_of_ne ha' hit hir]
      rcases hm.ends with ⟨ht, hr'', -⟩ | ⟨ht, hr'', -⟩
      · exact h.tension_of_resting ha hc hr (hl ▸ ht ▸ hit) (hr' ▸ hr'' ▸ hir)
      · exact h.tension_of_resting ha hc hr (hl ▸ hr'' ▸ hir) (hr' ▸ ht ▸ hit)

end Halved

theorem resting_ofProblem {p : Problem Rat} (hp : p.Consistent) (hw : p.Weighted) :
    (ofProblem p).Resting := by
  have ha := intact_ofProblem hp
  have hb := balanced_ofProblem hw
  refine ⟨hb, fun i => ?_⟩
  cases hB : (ofProblem p).block? i with
  | none => exact tension_of_none hB
  | some B =>
    have hW := hb.weight_pos ha hB
    have hmass := hb.weight_eq i B hB
    have hpull := Block.pullOf_exact (ofProblem p).problem B.position B.members
    rw [Problem.tension_congr (y := (ofProblem p).position)
      fun v hv => (position_of_mem ha hB hv).symm, ← tension_eq hB, ← hmass] at hpull
    rw [← hpull]
    obtain ⟨-, rfl⟩ := block?_ofProblem_some hB
    exact sub_eq_zero.mpr (div_mul_cancel₀ _ (ne_of_gt hW))

theorem rebalance_rests {p : Problem Rat} {I J : Arrangement Rat → BlockId → Prop} {P : Rat → Prop}
    (ha : a.Intact) (hr : a.Resting) (hg : a.problem.given = p.given) (hc : c ∈ a.problem.active)
    (hI : LoopInvariant .left I) (hJ : LoopInvariant .right J)
    (hsplit : ∀ a' l r B L R, Halved a a' c l r B L R →
      P (a.problem.tension a.position R) ∧ I (a'.settle l) l)
    (hnext : ∀ a' b x, a'.Intact → a'.problem.given = p.given → (a'.block? b).isSome →
      P x → a'.Pulled (a.problem.edges.right c) x → I a' b → a'.Known .left b →
      a'.nextMerge .left b = none → J (a'.settle (a'.rightBlock c)) (a'.rightBlock c)) :
    Yields (a.rebalance c) fun a' => a'.Intact ∧ a'.Resting ∧ a'.problem.given = p.given ∧
      ∃ b, (a'.block? b).isSome ∧ J a' b ∧ a'.Known .right b ∧ a'.nextMerge .right b = none := by
  have hu : a.problem.edges.right c < p.vars.size :=
    Problem.size_vars_eq hg ▸ ha.consistent.rightEnd_lt (Problem.lt_size_of_mem_active hc)
  have hI' := (loopInvariant_pulled hu P .left).and hI
  have hJ' := ((loopInvariant_resting .right).and (loopInvariant_given p .right)).and hJ
  refine (rebalance_yields ha hc hI' hJ' ?_ ?_).mono ?_
  · intro a' l r B L R _ hh
    obtain ⟨hP, hl⟩ := hsplit a' l r B L R hh
    exact ⟨⟨hh.given_eq.trans hg, _, hP, hh.pulled_settle ha hc hr⟩, hl⟩
  · rintro a' b ha' - hb ⟨⟨hg', x, hx, hp⟩, hl⟩ hk hn
    have hright : a'.rightBlock c = a'.blockOf (a.problem.edges.right c) := by
      rw [rightBlock_eq, Problem.edges_eq hg', ← Problem.edges_eq hg]
    refine ⟨⟨?_, hg'⟩, hnext a' b x ha' hg' hb hx hp hl hk hn⟩
    rw [hright]
    exact hp.settle ha'
  · exact fun a' ⟨ha', b, hb, ⟨⟨hr', hg'⟩, hJ⟩, hk, hn⟩ => ⟨ha', hr', hg', b, hb, hJ, hk, hn⟩

end Arrangement

open Arrangement in
theorem Solver.keeps_resting : Solver.Keeps Resting where
  log a _ _ _ h := (still_record a _).resting h
  multipliers a _ _ h := (still_writeMultipliers a _).resting h
  merge a c a' t ha h hm := by
    obtain ⟨r, s, B, shift, hmerged⟩ := merged_of_merge hm
    exact hmerged.resting ha h
  exchange a f a' l r B L R c a'' t ha h hf _ _ hh hL hR hm := by
    obtain ⟨r', s, B', shift, hmerged⟩ := merged_of_merge hm
    exact hh.resting_of_merged ha hf h hL hR hmerged
  cleanUp a _ h := (still_cleanUp a).resting h

end Spacing
