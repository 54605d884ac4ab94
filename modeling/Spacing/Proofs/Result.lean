import Spacing.Abort
/-!
Results of computations that may abort. A computation yields a property if it has a result with that
property; one that goes round may also run out of rounds.
-/

namespace Spacing

variable {ε β γ : Type} {r : Except ε β} {f : β → Except ε γ} {P P' : β → Prop} {Q : γ → Prop}

theorem bind_eq_ok {y : γ} : r >>= f = .ok y ↔ ∃ x, r = .ok x ∧ f x = .ok y := by
  cases r with
  | error e =>
    constructor
    · intro h
      cases h
    · rintro ⟨x, hx, -⟩
      cases hx
  | ok x =>
    constructor
    · intro h
      exact ⟨x, rfl, h⟩
    · rintro ⟨_, hx, h⟩
      cases hx
      exact h

theorem bind_eq_map {β' γ' : Type} {r' : Except ε β'} {h : β → β'} {k : γ → γ'} {f' : β' → Except ε γ'}
    (he : r' = r.map h) (hf : ∀ x, r = .ok x → f' (h x) = (f x).map k) :
    r' >>= f' = (r >>= f).map k := by
  subst he
  cases r with
  | error e => rfl
  | ok x => exact hf x rfl

def Yields (r : Except ε β) (P : β → Prop) : Prop :=
  ∃ x, r = .ok x ∧ P x

namespace Yields

theorem ok {x : β} (h : P x) : Yields (.ok x : Except ε β) P :=
  ⟨x, rfl, h⟩

theorem bind (h : Yields r P) (hf : ∀ x, P x → Yields (f x) Q) : Yields (r >>= f) Q := by
  obtain ⟨x, rfl, hx⟩ := h
  exact hf x hx

theorem map {g : β → γ} (h : Yields r P) (hg : ∀ x, P x → Q (g x)) : Yields (g <$> r) Q := by
  obtain ⟨x, rfl, hx⟩ := h
  exact ⟨g x, rfl, hg x hx⟩

theorem mono (h : Yields r P) (hP : ∀ x, P x → P' x) : Yields r P' := by
  obtain ⟨x, rfl, hx⟩ := h
  exact ⟨x, rfl, hP x hx⟩

theorem and (h : Yields r P) (h' : Yields r P') : Yields r fun x => P x ∧ P' x := by
  obtain ⟨x, rfl, hx⟩ := h
  obtain ⟨y, hy, hy'⟩ := h'
  cases hy
  exact ⟨x, rfl, hx, hy'⟩

theorem of_ok (h : Yields r P) {x : β} (hx : r = .ok x) : P x := by
  obtain ⟨y, rfl, hy⟩ := h
  cases hx
  exact hy

theorem foldlM {g : β → γ → Except ε β} {I : List γ → β → Prop} {xs : List γ} {x : β} (hx : I [] x)
    (hg : ∀ done y rest x, done ++ y :: rest = xs → I done x → Yields (g x y) (I (done ++ [y]))) :
    Yields (xs.foldlM g x) (I xs) := by
  suffices h : ∀ rest done x, done ++ rest = xs → I done x → Yields (rest.foldlM g x) (I xs) from
    h xs [] x rfl hx
  intro rest
  induction rest with
  | nil =>
    intro done x he hd
    rw [List.append_nil] at he
    exact .ok (he ▸ hd)
  | cons y rest ih =>
    intro done x he hd
    rw [List.foldlM_cons]
    exact (hg done y rest x he hd).bind fun z hz => ih _ z (by simpa using he) hz

end Yields

instance [DecidablePred P] (r : Except ε β) : Decidable (Yields r P) :=
  match r with
  | .ok x => decidable_of_iff (P x) ⟨.ok, fun h => h.of_ok rfl⟩
  | .error _ => .isFalse nofun

/-- There is a result with the property, or the computation aborts for one of some reasons. -/
def YieldsUnless (E : ε → Prop) (r : Except ε β) (P : β → Prop) : Prop :=
  (∃ e, r = .error e ∧ E e) ∨ Yields r P

namespace YieldsUnless

variable {E : ε → Prop}

theorem ok {x : β} (h : P x) : YieldsUnless E (.ok x) P :=
  .inr (.ok h)

theorem error {e : ε} (h : E e) : YieldsUnless E (.error e) P :=
  .inl ⟨e, rfl, h⟩

theorem bind (h : YieldsUnless E r P) (hf : ∀ x, P x → YieldsUnless E (f x) Q) :
    YieldsUnless E (r >>= f) Q := by
  rcases h with ⟨e, rfl, he⟩ | ⟨x, rfl, hx⟩
  · exact .error he
  · exact hf x hx

theorem mono {E' : ε → Prop} (h : YieldsUnless E r P) (hE : ∀ e, E e → E' e)
    (hP : ∀ x, P x → P' x) : YieldsUnless E' r P' := by
  rcases h with ⟨e, rfl, he⟩ | h
  · exact .error (hE e he)
  · exact .inr (h.mono hP)

theorem mono_ok (h : YieldsUnless E r P) (hP : ∀ x, r = .ok x → P x → P' x) : YieldsUnless E r P' := by
  rcases h with ⟨e, rfl, he⟩ | ⟨x, rfl, hx⟩
  · exact .error he
  · exact .ok (hP x rfl hx)

theorem yields (h : YieldsUnless (fun _ => False) r P) : Yields r P :=
  h.resolve_left fun ⟨_, _, he⟩ => he

theorem of_ok (h : YieldsUnless E r P) {x : β} (hx : r = .ok x) : P x := by
  rcases h with ⟨e, he, -⟩ | h
  · cases he.symm.trans hx
  · exact h.of_ok hx

end YieldsUnless

inductive Alongside (R : β → γ → Prop) : Except ε β → Except ε γ → Prop
  | error (e : ε) : Alongside R (.error e) (.error e)
  | ok {x : β} {y : γ} (h : R x y) : Alongside R (.ok x) (.ok y)

namespace Alongside

variable {β' γ' : Type} {R R' : β → γ → Prop} {S : β' → γ' → Prop} {r' : Except ε γ}

theorem bind {g : β → Except ε β'} {g' : γ → Except ε γ'} (h : Alongside R r r')
    (hg : ∀ x y, r = .ok x → r' = .ok y → R x y → Alongside S (g x) (g' y)) :
    Alongside S (r >>= g) (r' >>= g') := by
  cases h with
  | error e => exact .error e
  | ok h => exact hg _ _ rfl rfl h

theorem refl {R : β → β → Prop} (h : ∀ x, R x x) : Alongside R r r := by
  cases r with
  | error e => exact .error e
  | ok x => exact .ok (h x)

theorem bind_map {h : β → γ} {g : β → Except ε β'} {g' : γ → Except ε γ'} (he : r' = r.map h)
    (hg : ∀ x, r = .ok x → Alongside S (g x) (g' (h x))) : Alongside S (r >>= g) (r' >>= g') := by
  subst he
  cases r with
  | error e => exact .error e
  | ok x => exact hg x rfl

theorem of_map {h : β → γ} (he : r' = r.map h) (hR : ∀ x, r = .ok x → R x (h x)) : Alongside R r r' := by
  subst he
  cases r with
  | error e => exact .error e
  | ok x => exact .ok (hR x rfl)

theorem mono (h : Alongside R r r') (hR : ∀ x y, r = .ok x → r' = .ok y → R x y → R' x y) :
    Alongside R' r r' := by
  cases h with
  | error e => exact .error e
  | ok h => exact .ok (hR _ _ rfl rfl h)

theorem of_ok (h : Alongside R r r') {x : β} (hx : r = .ok x) : Yields r' (R x) := by
  cases h with
  | error e => cases hx
  | ok h =>
    cases hx
    exact .ok h

end Alongside

end Spacing
