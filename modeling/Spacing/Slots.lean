namespace Spacing.Slots

variable {β : Type} {xs : Array (Option β)} {i : Nat} {x y : β}

theorem lt_size_of_getD (h : xs.getD i none = some x) : i < xs.size := by
  rcases Nat.lt_or_ge i xs.size with hi | hi
  · exact hi
  · simp [Array.getD, Nat.not_lt.2 hi] at h

theorem getElem_of_getD (h : xs.getD i none = some x) (hi : i < xs.size) : xs[i] = some x := by
  simpa [Array.getD, hi] using h

theorem countP_pos_of_getD (h : xs.getD i none = some x) : 0 < xs.countP Option.isSome :=
  have hi := lt_size_of_getD h
  Array.countP_pos_iff.2 ⟨xs[i], Array.getElem_mem hi, by simp [getElem_of_getD h hi]⟩

theorem countP_set_none (h : xs.getD i none = some x) :
    (xs.setIfInBounds i none).countP Option.isSome + 1 = xs.countP Option.isSome := by
  have hp := countP_pos_of_getD h
  have hi := lt_size_of_getD h
  rw [Array.setIfInBounds_def, dif_pos hi, Array.countP_set]
  simp [getElem_of_getD h hi]
  omega

theorem countP_set_some (h : xs.getD i none = some x) :
    (xs.setIfInBounds i (some y)).countP Option.isSome = xs.countP Option.isSome := by
  have hp := countP_pos_of_getD h
  have hi := lt_size_of_getD h
  rw [Array.setIfInBounds_def, dif_pos hi, Array.countP_set]
  simp [getElem_of_getD h hi]
  omega

theorem countP_modify (xs : Array (Option β)) (i : Nat) (f : β → β) :
    (xs.modify i (Option.map f)).countP Option.isSome = xs.countP Option.isSome := by
  have : (xs.modify i (Option.map f)).map Option.isSome = xs.map Option.isSome := by
    apply Array.ext
    · simp
    · intro j h1 h2
      by_cases h : i = j <;> simp [Array.getElem_modify, h]
  simpa [Array.countP_map, Function.comp_def] using congrArg (Array.countP id) this

theorem getD_set_of_ne (xs : Array (Option β)) (o : Option β) {i j : Nat} (h : j ≠ i) :
    (xs.setIfInBounds j o).getD i none = xs.getD i none := by
  simp [Array.getD_eq_getD_getElem?, Array.getElem?_setIfInBounds_ne h]

theorem getD_push_of_some {o : Option β} (h : xs.getD i none = some x) :
    (xs.push o).getD i none = some x := by
  have hi := lt_size_of_getD h
  simp [Array.getD_eq_getD_getElem?, Array.getElem?_push, Nat.ne_of_lt hi, hi,
    getElem_of_getD h hi]

end Spacing.Slots
