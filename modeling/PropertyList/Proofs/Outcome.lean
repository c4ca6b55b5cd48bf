/-!
# What operations end in

An operation on a state gives a result or fails, and leaves a state in either case. What is known of
the two outcomes is put together along with the operations: what follows on a result is known from
that result and the state that was reached, and a failure passes through until it is caught.

## Main definitions

* `Ends`

## Main results

* `ends_iff`, `Ends.mono`, `Ends.bind`, `Ends.tryCatch`
-/

namespace PropertyList

variable {ε σ α β : Type} {x : EStateM ε σ α} {s s' : σ} {P : α → σ → Prop} {Q : ε → σ → Prop}

/-- Of the two outcomes of an operation, `P` holds of the result and the state if it gives a result,
and `Q` of the failure and the state if it fails. -/
def Ends (x : EStateM ε σ α) (s : σ) (P : α → σ → Prop) (Q : ε → σ → Prop) : Prop :=
  match x s with
  | .ok a s' => P a s'
  | .error e s' => Q e s'

theorem ends_of_ok {a : α} (hx : x s = .ok a s') (h : P a s') : Ends x s P Q := by
  rwa [Ends, hx]

theorem ends_of_error {e : ε} (hx : x s = .error e s') (h : Q e s') : Ends x s P Q := by
  rwa [Ends, hx]

theorem ends_pure {a : α} (h : P a s) : Ends (pure a) s P Q :=
  h

theorem ends_throw {e : ε} (h : Q e s) : Ends (throw e : EStateM ε σ α) s P Q :=
  h

theorem Ends.of_eq_ok (hx : Ends x s P Q) {a : α} (h : x s = .ok a s') : P a s' := by
  rwa [Ends, h] at hx

theorem Ends.of_eq_error (hx : Ends x s P Q) {e : ε} (h : x s = .error e s') : Q e s' := by
  rwa [Ends, h] at hx

/-- An operation ends in one of two ways. -/
theorem ends_iff : Ends x s P Q ↔
    (∃ a s', x s = .ok a s' ∧ P a s') ∨ ∃ e s', x s = .error e s' ∧ Q e s' := by
  constructor
  · intro h
    cases hx : x s with
    | ok a s' => exact .inl ⟨a, s', rfl, h.of_eq_ok hx⟩
    | error e s' => exact .inr ⟨e, s', rfl, h.of_eq_error hx⟩
  · rintro (⟨a, s', hx, h⟩ | ⟨e, s', hx, h⟩)
    · exact ends_of_ok hx h
    · exact ends_of_error hx h

theorem Ends.mono {P' : α → σ → Prop} {Q' : ε → σ → Prop} (hx : Ends x s P Q)
    (hP : ∀ a s', P a s' → P' a s') (hQ : ∀ e s', Q e s' → Q' e s') : Ends x s P' Q' := by
  obtain ⟨a, s', hrun, h⟩ | ⟨e, s', hrun, h⟩ := ends_iff.1 hx
  · exact ends_of_ok hrun (hP a s' h)
  · exact ends_of_error hrun (hQ e s' h)

/-- What follows on a result is done where the result was given. -/
theorem bind_of_ok {a : α} (hx : x s = .ok a s') (f : α → EStateM ε σ β) :
    (x >>= f) s = f a s' := by
  simp only [bind, EStateM.bind, hx]

/-- What follows on a result is passed over where there is none. -/
theorem bind_of_error {e : ε} (hx : x s = .error e s') (f : α → EStateM ε σ β) :
    (x >>= f) s = .error e s' := by
  simp only [bind, EStateM.bind, hx]

/-- A result of what follows comes from a result. -/
theorem exists_of_bind_eq_ok {f : α → EStateM ε σ β} {b : β} (h : (x >>= f) s = .ok b s') :
    ∃ a t, x s = .ok a t ∧ f a t = .ok b s' := by
  cases hx : x s with
  | ok a t => exact ⟨a, t, rfl, bind_of_ok hx f ▸ h⟩
  | error e t =>
    rw [bind_of_error hx] at h
    cases h

/-- What follows on a result starts where the result was given. -/
theorem ends_bind_of_ok {P' : β → σ → Prop} {a : α} (hx : x s = .ok a s') {f : α → EStateM ε σ β}
    (hf : Ends (f a) s' P' Q) : Ends (x >>= f) s P' Q := by
  rwa [Ends, bind_of_ok hx]

theorem Ends.bind {P' : β → σ → Prop} (hx : Ends x s P Q) {f : α → EStateM ε σ β}
    (hf : ∀ a s', P a s' → Ends (f a) s' P' Q) : Ends (x >>= f) s P' Q := by
  obtain ⟨a, s', hrun, h⟩ | ⟨e, s', hrun, h⟩ := ends_iff.1 hx
  · exact ends_bind_of_ok hrun (hf a s' h)
  · exact ends_of_error (bind_of_error hrun f) h

/-- Where nothing fails there is nothing to catch. -/
theorem tryCatch_of_ok {a : α} (hx : x s = .ok a s') (handler : ε → EStateM ε σ α) :
    tryCatch x handler s = .ok a s' := by
  change EStateM.tryCatch x handler s = _
  delta EStateM.tryCatch
  dsimp only
  rw [hx]

/-- A failure that is caught is dealt with where it was raised. -/
theorem tryCatch_of_error {e : ε} (hx : x s = .error e s') (handler : ε → EStateM ε σ α) :
    tryCatch x handler s = handler e s' := by
  change EStateM.tryCatch x handler s = _
  delta EStateM.tryCatch
  dsimp only
  rw [hx]
  rfl

theorem Ends.tryCatch {Q' : ε → σ → Prop} (hx : Ends x s P Q) {handler : ε → EStateM ε σ α}
    (hhandler : ∀ e s', Q e s' → Ends (handler e) s' P Q') : Ends (tryCatch x handler) s P Q' := by
  obtain ⟨a, s', hrun, h⟩ | ⟨e, s', hrun, h⟩ := ends_iff.1 hx
  · exact ends_of_ok (tryCatch_of_ok hrun handler) h
  · have hrest := hhandler e s' h
    rwa [Ends, ← tryCatch_of_error hrun handler] at hrest

/-- What is done finally is done where the operation ended. -/
theorem tryFinally_of_ok {y : EStateM ε σ β} {a : α} {b : β} {s'' : σ} (hx : x s = .ok a s')
    (hy : y s' = .ok b s'') : tryFinally x y s = .ok a s'' := by
  change (EStateM.map Prod.fst (tryFinally' x fun _ => y)) s = _
  simp only [EStateM.map, MonadFinally.tryFinally', hx, hy]

end PropertyList
