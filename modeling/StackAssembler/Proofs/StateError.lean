/-! Running computations that change a state and may fail. The state is kept on failure. -/
namespace StackAssembler
variable {ε σ α β : Type}

theorem bind_run (x : EStateM ε σ α) (f : α → EStateM ε σ β) (s : σ) :
    (x >>= f) s = match x s with
      | .ok a s => f a s
      | .error e s => .error e s :=
  rfl

theorem get_run (s : σ) : (get : EStateM ε σ σ) s = .ok s s := rfl

theorem get_bind (f : σ → EStateM ε σ β) (s : σ) : (get >>= f) s = f s s := rfl

theorem ite_run (c : Prop) [Decidable c] (x y : EStateM ε σ α) (s : σ) :
    (if c then x else y) s = if c then x s else y s := by
  split <;> rfl

theorem bind_of_ok {x : EStateM ε σ α} {s s₁ : σ} {a : α} (h : x s = .ok a s₁) (f : α → EStateM ε σ β) :
    (x >>= f) s = f a s₁ := by
  rw [bind_run, h]

theorem bind_of_error {x : EStateM ε σ α} {s s₁ : σ} {e : ε} (h : x s = .error e s₁) (f : α → EStateM ε σ β) :
    (x >>= f) s = .error e s₁ := by
  rw [bind_run, h]

theorem bind_ok {x : EStateM ε σ α} {f : α → EStateM ε σ β} {s s' : σ} {b : β} (h : (x >>= f) s = .ok b s') :
    ∃ a s₁, x s = .ok a s₁ ∧ f a s₁ = .ok b s' := by
  rw [bind_run] at h
  split at h
  · exact ⟨_, _, ‹_›, h⟩
  · cases h

theorem bind_error {x : EStateM ε σ α} {f : α → EStateM ε σ β} {s s' : σ} {e : ε}
    (h : (x >>= f) s = .error e s') :
    x s = .error e s' ∨ ∃ a s₁, x s = .ok a s₁ ∧ f a s₁ = .error e s' := by
  rw [bind_run] at h
  split at h
  · exact Or.inr ⟨_, _, ‹_›, h⟩
  · cases h
    exact Or.inl ‹_›

/-- What a run comes to: a result and a state, or only a state when it fails. -/
def Ends (r : EStateM.Result ε σ α) (ok : α → σ → Prop) (failed : σ → Prop) : Prop :=
  match r with
  | .ok a s => ok a s
  | .error _ s => failed s

theorem Ends.mono {r : EStateM.Result ε σ α} {P Q : α → σ → Prop} {E F : σ → Prop} (h : Ends r P E)
    (hok : ∀ a s, P a s → Q a s) (hfailed : ∀ s, E s → F s) : Ends r Q F := by
  cases r with
  | ok a s => exact hok a s h
  | error e s => exact hfailed s h

theorem Ends.of_ok {r : EStateM.Result ε σ α} {P : α → σ → Prop} {E : σ → Prop} {a : α} {s : σ}
    (h : Ends r P E) (hr : r = .ok a s) : P a s := by
  subst hr
  exact h

theorem Ends.of_error {r : EStateM.Result ε σ α} {P : α → σ → Prop} {E : σ → Prop} {e : ε} {s : σ}
    (h : Ends r P E) (hr : r = .error e s) : E s := by
  subst hr
  exact h

theorem Ends.bind {x : EStateM ε σ α} {f : α → EStateM ε σ β} {s : σ} {P : α → σ → Prop} {Q : β → σ → Prop}
    {E F : σ → Prop} (h : Ends (x s) P E) (hok : ∀ a s, P a s → Ends (f a s) Q F) (hfailed : ∀ s, E s → F s) :
    Ends ((x >>= f) s) Q F := by
  rw [bind_run]
  cases hx : x s with
  | ok a s => rw [hx] at h; exact hok a s h
  | error e s => rw [hx] at h; exact hfailed s h

/-- What a run comes to: a result and a state, or only an error when it fails. -/
def Yields (r : EStateM.Result ε σ α) (ok : α → σ → Prop) (failed : ε → Prop) : Prop :=
  match r with
  | .ok a s => ok a s
  | .error e _ => failed e

theorem Yields.mono {r : EStateM.Result ε σ α} {P Q : α → σ → Prop} {E : ε → Prop} (h : Yields r P E)
    (hok : ∀ a s, P a s → Q a s) : Yields r Q E := by
  cases r with
  | ok a s => exact hok a s h
  | error e s => exact h

theorem Yields.of_ok {r : EStateM.Result ε σ α} {P : α → σ → Prop} {E : ε → Prop} {a : α} {s : σ}
    (h : Yields r P E) (hr : r = .ok a s) : P a s := by
  subst hr
  exact h

theorem Yields.of_error {r : EStateM.Result ε σ α} {P : α → σ → Prop} {E : ε → Prop} {e : ε} {s : σ}
    (h : Yields r P E) (hr : r = .error e s) : E e := by
  subst hr
  exact h

theorem Yields.bind {x : EStateM ε σ α} {f : α → EStateM ε σ β} {s : σ} {P : α → σ → Prop} {Q : β → σ → Prop}
    {E : ε → Prop} (h : Yields (x s) P E) (hok : ∀ a s, P a s → Yields (f a s) Q E) : Yields ((x >>= f) s) Q E := by
  rw [bind_run]
  cases hx : x s with
  | ok a s => rw [hx] at h; exact hok a s h
  | error e s => rw [hx] at h; exact h

/-- The state that a computation leaves, whether or not it fails. -/
def after (x : EStateM ε σ α) (s : σ) : σ :=
  match x s with
  | .ok _ s => s
  | .error _ s => s

/-- Why a computation fails, if it does. -/
def failure? (x : EStateM ε σ α) (s : σ) : Option ε :=
  match x s with
  | .ok .. => none
  | .error e _ => some e

theorem eq_ok_of_toOption {x : Except ε α} {a : α} (h : x.toOption = some a) : x = .ok a := by
  cases x with
  | ok b => rw [Option.some.inj h]
  | error e => cases h

theorem eq_ok_of_failure? {x : EStateM ε σ Unit} {s : σ} (h : (failure? x s).isNone) : x s = .ok () (after x s) := by
  unfold failure? at h
  unfold after
  cases hx : x s with
  | ok a s => rfl
  | error e s => rw [hx] at h; cases h

theorem eq_error_of_failure? {x : EStateM ε σ α} {s : σ} {e : ε} (h : failure? x s = some e) :
    x s = .error e (after x s) := by
  unfold failure? at h
  unfold after
  cases hx : x s with
  | ok a s => rw [hx] at h; cases h
  | error e s => rw [hx] at h; cases h; rfl

theorem Ends.after {x : EStateM ε σ α} {s : σ} {P : σ → Prop} (h : Ends (x s) (fun _ => P) P) : P (after x s) := by
  unfold StackAssembler.after
  cases hx : x s with
  | ok a s => rw [hx] at h; exact h
  | error e s => rw [hx] at h; exact h

end StackAssembler
