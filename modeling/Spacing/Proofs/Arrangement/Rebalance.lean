import Spacing.Proofs.Arrangement.Loop

namespace Spacing.Arrangement

variable {α : Type} [Scalar α] {a a' : Arrangement α} {b i : BlockId} {c : ConId}

theorem Intact.isSome_right (ha : a.Intact) (hc : c < a.problem.constraints.size) :
    (a.block? (a.rightBlock c)).isSome :=
  ha.standing _ (ha.consistent.rightEnd_lt hc)

theorem isSome_settle (h : (a.block? i).isSome) : ((a.settle b).block? i).isSome := by
  rw [settle, block?_modifyBlock]
  split
  · simpa using h
  · exact h

theorem rebalance_yields {I J : Arrangement α → BlockId → Prop} (ha : a.Intact)
    (hc : c ∈ a.problem.active) (hI : LoopInvariant .left I) (hJ : LoopInvariant .right J)
    (hsplit : ∀ a' l r B L R, a.split c = .ok (a', l, r) → Halved a a' c l r B L R →
      I (a'.settle l) l)
    (hnext : ∀ a' b, a'.Intact → a'.problem.constraints.size = a.problem.constraints.size →
      (a'.block? b).isSome → I a' b → a'.Known .left b → a'.nextMerge .left b = none →
      J (a'.settle (a'.rightBlock c)) (a'.rightBlock c)) :
    Yields (a.rebalance c) fun a' => a'.Intact ∧ ∃ b, (a'.block? b).isSome ∧ J a' b ∧
      a'.Known .right b ∧ a'.nextMerge .right b = none := by
  obtain ⟨a₁, l, r, B, L, R, hs, hh⟩ := exists_split ha hc
  have h₁ : Steps a a₁ := Relation.ReflTransGen.single (.split hc hs)
  have ha₁ : a₁.Intact := hh.intact ha hc
  have hl : (a₁.block? l).isSome := by
    rw [hh.block?_left]
    rfl
  unfold rebalance
  rw [hs]
  refine (mergeTowards_yields (hI.and (loopInvariant_steps a .left)) ha₁.settle (isSome_settle hl)
    ⟨hsplit a₁ l r B L R hs hh, h₁.tail (.settle l)⟩).bind ?_
  rintro ⟨a₂, t⟩ ⟨ha₂, ht, ⟨hI₂, h₂⟩, hk, hn⟩
  have hsize := (h₂.sizes_eq ha).2
  have hr : (a₂.block? (a₂.rightBlock c)).isSome :=
    ha₂.isSome_right (hsize.symm ▸ Problem.lt_size_of_mem_active hc)
  refine (mergeTowards_yields hJ ha₂.settle (isSome_settle hr)
    (hnext a₂ t ha₂ hsize ht hI₂ hk hn)).bind ?_
  rintro ⟨a₃, u⟩ ⟨ha₃, hu, hJ₃, hk, hn⟩
  exact .ok ⟨ha₃, u, hu, hJ₃, hk, hn⟩

theorem steps_rebalance (ha : a.Intact) (hc : c ∈ a.problem.active) :
    Yields (a.rebalance c) (Steps a) := by
  refine (rebalance_yields ha hc (loopInvariant_steps a .left) (loopInvariant_steps a .right)
    ?_ ?_).mono ?_
  · exact fun a' l _ _ _ _ hs _ => (Relation.ReflTransGen.single (.split hc hs)).tail (.settle l)
  · exact fun a' _ _ _ _ h _ _ => h.tail (.settle _)
  · exact fun a' ⟨_, _, _, h, _⟩ => h

end Spacing.Arrangement
