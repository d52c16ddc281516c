import StackAssembler.Build.Machine
import StackAssembler.Proofs.Growth
import StackAssembler.Proofs.StateError

/-! What the steps of the machine come to when they are run. -/
namespace StackAssembler.Build
open IR

namespace Action

/-- The operands of an action, in the order in which they are written. -/
def operands : Action → List Operand
  | load _ source => [source]
  | store value dest => [value, dest]
  | binary _ lhs rhs | compare _ lhs rhs => [lhs, rhs]
  | cast _ value _ => [value]
  | phi edges => edges.map (·.value)
  | condBr cond _ _ => [cond]
  | call _ args => args
  | ret value => value.toList
  | push value => [value]
  | _ => []

/-- The targets of an action, in the order in which they are written. -/
def targets : Action → List Target
  | phi edges => edges.map (·.block)
  | condBr _ onTrue onFalse => [onTrue, onFalse]
  | branch dest => [dest]
  | _ => []

/-- The variable that an action binds. -/
def newVar? : Action → Option String
  | alloc _ name => name
  | _ => none

/-- The name of the block that an action creates. -/
def newBlock? : Action → Option String
  | createBlock name => some name
  | _ => none

end Action

/-- The machine after the creation of a block. -/
def Machine.withBlock (m : Machine) (name : String) : Machine where
  context := match m.builder.activeFunction? with
    | some f => (m.context.appendBlock f (some name)).2
    | none => (m.context.addBlock (some name)).2
  builder := { m.builder with
    blocks := ⟨m.builder.blocks.pairs ++ [(name, ⟨m.context.blocks.size⟩)]⟩
    blockOrder := m.builder.blockOrder ++ [⟨m.context.blocks.size⟩]
    position := some ⟨m.context.blocks.size⟩ }

namespace Step
variable {α : Type}

theorem emit_run (f : Option BlockId → Edit α) (m : Machine) :
    emit f m = match f m.builder.position m.context with
      | .ok a ctx => .ok a { m with context := ctx }
      | .error e ctx => .error (.ir e) { m with context := ctx } :=
  rfl

/-- The errors of an edit are those of the step that makes it. -/
theorem emit_yields {f : Option BlockId → Edit α} {m : Machine} {E : BuildError → Prop}
    (h : Yields (f m.builder.position m.context) (fun _ _ => True) fun err => E (.ir err)) :
    Yields (emit f m) (fun _ _ => True) E := by
  rw [emit_run]
  cases hr : f m.builder.position m.context with
  | ok a ctx => trivial
  | error err ctx => exact h.of_error hr

theorem pop_run (m : Machine) :
    pop m = match m.builder.stack with
      | [] => .error (.stackUnderflow 1 0) m
      | v :: rest =>
        .ok v { m with builder.stack := if m.builder.keepStack then m.builder.stack else rest } := by
  unfold pop
  cases hs : m.builder.stack with
  | nil => rfl
  | cons v rest =>
    dsimp only
    split
    · rw [← hs]
    · rfl

/-- Bit-cast a value that does not have the type called for. -/
def coerce (at? : Option BlockId) (v : ValueId) (t : Ty) : Edit ValueId := fun ctx =>
  if ctx.typeOf v = t then .ok v ctx else Emitter.cast at? .bitcast v t ctx

theorem coerceEach_cons (at? : Option BlockId) (v : ValueId) (vs : List ValueId) (t : Ty) (ts : List Ty) :
    coerceEach at? (v :: vs) (t :: ts) =
      coerce at? v t >>= fun w => coerceEach at? vs ts >>= fun ws => pure (w :: ws) := by
  funext ctx
  rw [coerceEach, get_bind, bind_run, coerce]
  split <;> rfl

/-- A block that the builder takes for its own already is not entered, though it was created. -/
theorem createBlock_run (name : String) (m : Machine) :
    createBlock name m =
      if (m.builder.block? name).isSome then .error (.duplicateBlock name) m
      else match m.builder.blocks.left? ⟨m.context.blocks.size⟩ with
        | some _ => .error (.duplicateBlock name) { m with context := (m.withBlock name).context }
        | none => .ok () (m.withBlock name) := by
  unfold createBlock
  cases hn : m.builder.block? name with
  | some b =>
    rw [Builder.block?] at hn
    simp [hn]
  | none =>
    rw [Builder.block?] at hn
    cases hl : m.builder.blocks.left? ⟨m.context.blocks.size⟩ <;> cases hf : m.builder.activeFunction? <;>
      simp [hn, hf, hl, Bijection.insert, Context.addBlock, Context.appendBlock, Machine.withBlock]

/-- The next block of a context is none that it has given out. -/
theorem left?_next {m : Machine} (h : ∀ p ∈ m.builder.blocks.pairs, m.context.HasBlock p.2) :
    m.builder.blocks.left? ⟨m.context.blocks.size⟩ = none := by
  rw [Bijection.left?, Option.map_eq_none_iff, List.find?_eq_none]
  intro p hp
  have hlt : p.2.index < m.context.blocks.size := h p hp
  simpa using fun he => absurd (congrArg BlockId.index he) (Nat.ne_of_lt hlt)

/-! ### Adoption -/

/-- Blocks one after the other: one that belongs to no function is put at the end of this one. -/
def adoptAll (f : FunctionId) : List BlockId → Context → Context
  | [], ctx => ctx
  | b :: bs, ctx => adoptAll f bs (if (ctx.block b).function.isNone then ctx.adopt f b else ctx)

/-- Attaching refuses a block that belongs to a function, but no such block is attached. -/
theorem attachAll_run (f : FunctionId) (bs : List BlockId) (ctx : Context) :
    attachAll f bs ctx = .ok () (adoptAll f bs ctx) := by
  induction bs generalizing ctx with
  | nil => rfl
  | cons b bs ih =>
    rw [attachAll, get_bind, ite_run, adoptAll]
    cases hf : (ctx.block b).function with
    | none =>
      have hrun : Edit.attachBlock f b ctx = .ok () (ctx.adopt f b) := by
        rw [Edit.attachBlock, if_neg (by rw [hf]; decide)]
      exact (bind_of_ok hrun fun _ => attachAll f bs).trans (ih _)
    | some g => exact ih ctx

end Step

end StackAssembler.Build
