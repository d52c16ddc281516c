import StackAssembler.Proofs.Closed

/-! Computations that come to nothing where an operation is used outside of its domain, and that such a computation
stays within the domains of its operations. -/
namespace StackAssembler
open IR

/-- A computation that changes a state and may fail. It has no result at all where it leaves the domain of one of its
operations. -/
def Guarded (ε σ α : Type) : Type := σ → Option (EStateM.Result ε σ α)

namespace Guarded
variable {ε σ α β : Type}

instance : Monad (Guarded ε σ) where
  pure a := fun s => some (.ok a s)
  bind x f := fun s =>
    match x s with
    | none => none
    | some (.ok a s) => f a s
    | some (.error e s) => some (.error e s)

/-- What has no operations that could be used outside of their domains is done as it is. -/
instance : MonadLift (EStateM ε σ) (Guarded ε σ) := ⟨fun f s => some (f s)⟩

/-- Look something up in the state. -/
def look (f : σ → Option α) : Guarded ε σ α := fun s => (f s).map (.ok · s)

/-- The state itself, which is always there. -/
def state : Guarded ε σ σ := look some

def refuse (e : ε) : Guarded ε σ α := fun s => some (.error e s)

theorem bind_of_ok {x : Guarded ε σ α} {s s' : σ} {a : α} (h : x s = some (.ok a s')) (y : α → Guarded ε σ β) :
    (x >>= y) s = y a s' := by
  simp only [Bind.bind, h]

theorem bind_of_error {x : Guarded ε σ α} {s s' : σ} {e : ε} (h : x s = some (.error e s')) (y : α → Guarded ε σ β) :
    (x >>= y) s = some (.error e s') := by
  simp only [Bind.bind, h]

end Guarded

/-! ### States that hold handles -/

/-- States with a context in them, and the handles that they hold besides those in the context. -/
class Holder (σ : Type) where
  context : σ → Context
  handles : σ → Handles

instance : Holder Context := ⟨id, fun _ => {}⟩

/-- Every handle in a state refers to an entry of its context. -/
structure Intact {σ : Type} [Holder σ] (s : σ) : Prop where
  closed : (Holder.context s).Closed
  known : (Holder.context s).Knows (Holder.handles s)

/-- What a computation makes of a state: it is intact, and all handles that were known still are. -/
structure Becomes {σ : Type} [Holder σ] (s s' : σ) : Prop where
  intact : Intact s'
  retains : (Holder.context s).Retains (Holder.context s')

namespace Becomes
variable {σ : Type} [Holder σ] {s s' s'' : σ}

theorem refl (h : Intact s) : Becomes s s := ⟨h, .refl _⟩

theorem trans (h : Becomes s s') (k : Becomes s' s'') : Becomes s s'' := ⟨k.intact, h.retains.trans k.retains⟩

end Becomes

theorem intact_iff {ctx : Context} : Intact ctx ↔ ctx.Closed := ⟨Intact.closed, fun h => ⟨h, Context.knows_nothing⟩⟩

theorem becomes_iff {ctx ctx' : Context} : Becomes ctx ctx' ↔ ctx.Becomes ctx' :=
  ⟨fun h => ⟨h.intact.closed, h.retains⟩, fun h => ⟨intact_iff.mpr h.closed, h.retains⟩⟩

/-! ### Staying within domains -/

/-- A guarded computation that is started in the state `s` stays within the domains of its operations and does what
`f` does. Handles stay good, and what the result and the last state have to satisfy is `P`. -/
def Faithful {ε σ α : Type} [Holder σ] (x : Guarded ε σ α) (f : EStateM ε σ α) (s : σ) (P : α → σ → Prop) : Prop :=
  x s = some (f s) ∧ Ends (f s) (fun a s' => Becomes s s' ∧ P a s') (Becomes s)

namespace Faithful
variable {ε σ α β : Type} [Holder σ] {s : σ} {P Q : α → σ → Prop}

theorem mono {x : Guarded ε σ α} {f : EStateM ε σ α} (h : Faithful x f s P) (k : ∀ a s', Becomes s s' → P a s' → Q a s') :
    Faithful x f s Q :=
  ⟨h.1, h.2.mono (fun a s' ⟨hb, hp⟩ => ⟨hb, k a s' hb hp⟩) fun _ hb => hb⟩

/-- What comes to the same in a state may take its place. -/
theorem congr {x : Guarded ε σ α} {f g : EStateM ε σ α} (h : f s = g s) (k : Faithful x g s P) : Faithful x f s P := by
  unfold Faithful
  rw [h]
  exact k

/-- What is done as it is. -/
theorem lift {f : EStateM ε σ α} (h : Ends (f s) (fun a s' => Becomes s s' ∧ P a s') (Becomes s)) :
    Faithful (liftM f) f s P :=
  ⟨rfl, h⟩

theorem pure {a : α} (h : Intact s) (hp : P a s) : Faithful (ε := ε) (Pure.pure a) (Pure.pure a) s P :=
  ⟨rfl, .refl h, hp⟩

theorem refuse {e : ε} (h : Intact s) : Faithful (α := α) (Guarded.refuse e) (throw e) s P := ⟨rfl, .refl h⟩

theorem bind {x : Guarded ε σ α} {f : EStateM ε σ α} {y : α → Guarded ε σ β} {g : α → EStateM ε σ β}
    {R : β → σ → Prop} (h : Faithful x f s P) (k : ∀ a s', Becomes s s' → P a s' → Faithful (y a) (g a) s' R) :
    Faithful (x >>= y) (f >>= g) s R := by
  obtain ⟨hx, hf⟩ := h
  unfold Faithful
  rw [bind_run]
  cases hfs : f s with
  | ok a s' =>
    rw [hfs] at hx hf
    obtain ⟨hb, hp⟩ := hf
    obtain ⟨hy, hg⟩ := k a s' hb hp
    exact ⟨(Guarded.bind_of_ok hx y).trans hy, hg.mono (fun b s'' h => ⟨hb.trans h.1, h.2⟩) fun _ => hb.trans⟩
  | error e s' =>
    rw [hfs] at hx hf
    exact ⟨Guarded.bind_of_error hx y, hf⟩

/-- What is done as it is, part by part. -/
theorem lift_bind {f : EStateM ε σ α} {g : α → EStateM ε σ β} {R : β → σ → Prop} (h : Faithful (liftM f) f s P)
    (k : ∀ a s', Becomes s s' → P a s' → Faithful (liftM (g a)) (g a) s' R) : Faithful (liftM (f >>= g)) (f >>= g) s R :=
  .lift (h.bind k).2

/-- A look-up that finds something is no more than a check. -/
theorem look {φ : σ → Option β} {b : β} {y : β → Guarded ε σ α} {f : EStateM ε σ α} (hφ : φ s = some b)
    (h : Faithful (y b) f s P) : Faithful (Guarded.look φ >>= y) f s P := by
  have hlook : (Guarded.look φ : Guarded ε σ β) s = some (.ok b s) := congrArg (Option.map _) hφ
  unfold Faithful
  rw [Guarded.bind_of_ok hlook]
  exact h

/-- What is found is the result. -/
theorem found {φ : σ → Option α} {a : α} (h : Intact s) (hφ : φ s = some a) (hp : P a s) :
    Faithful (ε := ε) (Guarded.look φ) (Pure.pure a) s P :=
  ⟨congrArg (Option.map _) hφ, .refl h, hp⟩

/-- The state is at hand. -/
theorem get {x : Guarded ε σ α} {f : σ → EStateM ε σ α} (h : Faithful x (f s) s P) : Faithful x (MonadState.get >>= f) s P :=
  h

theorem ite {c : Prop} [Decidable c] {x y : Guarded ε σ α} {f g : EStateM ε σ α} (h : c → Faithful x f s P)
    (k : ¬ c → Faithful y g s P) : Faithful (if c then x else y) (if c then f else g) s P := by
  split
  · next hc => exact h hc
  · next hc => exact k hc

end Faithful
end StackAssembler
