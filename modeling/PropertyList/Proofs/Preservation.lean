import PropertyList.Proofs.Outcome

/-!
# Operations that keep a property of the state

An operation on a state may fail, and then it leaves the state that it has reached. It *preserves*
a property of states if the state after it has the property in either case. Operations that are put
together from such operations preserve the property too.

## Main definitions

* `after`, the state that an operation leaves
* `Preserves`

## Main results

* `Preserves.bind`, `preserves_get_bind`, `Preserves.tryCatch`, `Preserves.tryFinally`
-/

namespace PropertyList

variable {ε σ α β : Type} {I : σ → Prop}

/-- The state after an operation, whether or not it fails. -/
def after (x : EStateM ε σ α) (s : σ) : σ :=
  match x s with
  | .ok _ s' => s'
  | .error _ s' => s'

theorem after_of_ok {x : EStateM ε σ α} {s s' : σ} {a : α} (hx : x s = .ok a s') :
    after x s = s' := by
  rw [after, hx]

theorem after_of_error {x : EStateM ε σ α} {s s' : σ} {e : ε} (hx : x s = .error e s') :
    after x s = s' := by
  rw [after, hx]

/-- What is done finally is done in either case, on the state that was reached. -/
theorem after_tryFinally (x : EStateM ε σ α) (y : EStateM ε σ β) (s : σ) :
    after (tryFinally x y) s = after y (after x s) := by
  unfold after
  change (match (EStateM.map Prod.fst (tryFinally' x fun _ => y)) s with
    | .ok _ s' => s'
    | .error _ s' => s') = _
  simp only [EStateM.map, MonadFinally.tryFinally']
  cases x s with
  | ok a s' =>
    dsimp only
    cases y s' <;> rfl
  | error e s' =>
    dsimp only
    cases y s' <;> rfl

/-- Whether an operation keeps a property of the state, also where it fails. -/
def Preserves (I : σ → Prop) (x : EStateM ε σ α) : Prop :=
  ∀ s, I s → I (after x s)

theorem Preserves.ends {x : EStateM ε σ α} (hx : Preserves I x) {s : σ} (hs : I s) :
    Ends x s (fun _ => I) fun _ _ => True := by
  cases hrun : x s with
  | ok a s' => exact ends_of_ok hrun (after_of_ok hrun ▸ hx s hs)
  | error e s' => exact ends_of_error hrun trivial

theorem preserves_pure (a : α) : Preserves I (pure a : EStateM ε σ α) :=
  fun _ hs => hs

theorem preserves_throw (e : ε) : Preserves I (throw e : EStateM ε σ α) :=
  fun _ hs => hs

theorem preserves_modify {f : σ → σ} (hf : ∀ s, I s → I (f s)) :
    Preserves I (modify f : EStateM ε σ Unit) :=
  fun s hs => hf s hs

/-- What follows on reading the state may depend on it. -/
theorem preserves_get_bind {f : σ → EStateM ε σ β} (hf : ∀ s, I s → Preserves I (f s)) :
    Preserves I (get >>= f) :=
  fun s hs => hf s hs s hs

theorem Preserves.bind {x : EStateM ε σ α} {f : α → EStateM ε σ β} (hx : Preserves I x)
    (hf : ∀ a, Preserves I (f a)) : Preserves I (x >>= f) := by
  intro s hs
  have hxs := hx s hs
  cases hrun : x s with
  | ok a s' =>
    rw [after_of_ok hrun] at hxs
    have hbind : after (x >>= f) s = after (f a) s' := by
      simp only [after, Bind.bind, EStateM.bind, hrun]
    rw [hbind]
    exact hf a s' hxs
  | error e s' =>
    rw [after_of_error hrun] at hxs
    have hbind : (x >>= f) s = .error e s' := by
      simp only [Bind.bind, EStateM.bind, hrun]
    rwa [after_of_error hbind]

theorem Preserves.tryCatch {x : EStateM ε σ α} {handler : ε → EStateM ε σ α}
    (hx : Preserves I x) (hhandler : ∀ e, Preserves I (handler e)) :
    Preserves I (tryCatch x handler) := by
  intro s hs
  have hxs := hx s hs
  cases hrun : x s with
  | ok a s' =>
    rw [after_of_ok hrun] at hxs
    rwa [after_of_ok (tryCatch_of_ok hrun handler)]
  | error e s' =>
    rw [after_of_error hrun] at hxs
    rw [after, tryCatch_of_error hrun handler]
    exact hhandler e s' hxs

theorem Preserves.tryFinally {x : EStateM ε σ α} {y : EStateM ε σ β} (hx : Preserves I x)
    (hy : Preserves I y) : Preserves I (tryFinally x y) := by
  intro s hs
  rw [after_tryFinally]
  exact hy _ (hx s hs)

end PropertyList
