import StackAssembler.IR.Emitter
import StackAssembler.Build.Action
import StackAssembler.Build.Error
import StackAssembler.Bijection

/-! The builder: a stack machine whose actions add to a context. -/
namespace StackAssembler.Build
open IR

/-- What a builder remembers besides the context. -/
structure Builder where
  /-- The block that takes the next instruction. -/
  position : Option BlockId := none
  module : Option ModuleId := none
  /-- The functions made active so far, the active one first. -/
  functions : List FunctionId := []
  /-- The slots of the variables, the latest first. -/
  vars : List (String × ValueId) := []
  /-- The blocks created so far by their names. -/
  blocks : Bijection String BlockId := .empty
  /-- The blocks created so far, in order. -/
  blockOrder : List BlockId := []
  /-- The operand stack, its top first. -/
  stack : List ValueId := []
  /-- Whether operands stay on the stack when they are taken from it. -/
  keepStack : Bool := false
  deriving Repr, Inhabited

namespace Builder

def var? (b : Builder) (name : String) : Option ValueId := b.vars.lookup name

def block? (b : Builder) (name : String) : Option BlockId := b.blocks.right? name

/-- The name under which the current block was created. -/
def currentBlockName? (b : Builder) : Option String := b.position.bind b.blocks.left?

def activeFunction? (b : Builder) : Option FunctionId := b.functions.head?

end Builder

/-- A builder and the context that it adds to. -/
structure Machine where
  context : Context := {}
  builder : Builder := {}
  deriving Repr, Inhabited

/-- A change of the machine that may fail. What was done before the failure stays done. -/
abbrev Step := EStateM BuildError Machine

namespace Step

/-- Edit the context at the builder's position. -/
def emit {α : Type} (f : Option BlockId → Edit α) : Step α := fun m =>
  match m with
  | ⟨ctx, b⟩ =>
    match f b.position ctx with
    | .ok a ctx => .ok a ⟨ctx, b⟩
    | .error e ctx => .error (.ir e) ⟨ctx, b⟩

def updateBuilder (f : Builder → Builder) : Step Unit := fun m =>
  match m with
  | ⟨ctx, b⟩ => .ok () ⟨ctx, f b⟩

def push (v : ValueId) : Step Unit := updateBuilder fun b => { b with stack := v :: b.stack }

/-- Take the top of the stack, or look at it while the stack is kept. -/
def pop : Step ValueId := fun m =>
  match m.builder.stack with
  | [] => .error (.stackUnderflow 1 0) m
  | v :: rest =>
    if m.builder.keepStack then .ok v m
    else
      match m with
      | ⟨ctx, b⟩ => .ok v ⟨ctx, { b with stack := rest }⟩

/-- The value that an operand stands for. -/
def resolve (o : Operand) : Step ValueId := fun m =>
  match o with
  | .stack => pop m
  | .value v => .ok v m
  | .var name =>
    match m.builder.var? name with
    | some v => .ok v m
    | none => .error (.unknownVariable name) m
  | .arg index =>
    match m.builder.activeFunction? with
    | none => .error .noFunction m
    | some f =>
      match (m.context.function f).args[index]? with
      | some v => .ok v m
      | none => .error (.noArgument index) m

/-- The values that operands stand for. The last operand is looked up first. -/
def resolveAll : List Operand → Step (List ValueId)
  | [] => pure []
  | o :: os => do
    let vs ← resolveAll os
    let v ← resolve o
    pure (v :: vs)

/-- The block that a target stands for. -/
def target (t : Target) : Step BlockId := fun m =>
  match t with
  | .named name =>
    match m.builder.block? name with
    | some b => .ok b m
    | none => .error (.unknownBlock name) m
  | .block b => .ok b m
  | .next n =>
    match m.builder.position with
    | none => .error .noCurrentBlock m
    | some current =>
      match m.builder.blockOrder.idxOf? current with
      | none => .error (.noFollowingBlock n) m
      | some i =>
        match m.builder.blockOrder[i + n]? with
        | some b => .ok b m
        | none => .error (.noFollowingBlock n) m

/-- The edges of a phi. The last one is looked up first, and of each the block before the value. -/
def resolveEdges : List PhiEdge → Step (List (ValueId × BlockId))
  | [] => pure []
  | e :: es => do
    let rest ← resolveEdges es
    let b ← target e.block
    let v ← resolve e.value
    pure ((v, b) :: rest)

def resolveCallee (c : Callee) : Step FunctionId := fun m =>
  match c with
  | .function f => .ok f m
  | .named name =>
    match m.builder.module with
    | none => .error .noModule m
    | some module =>
      match m.context.findFunction? module name with
      | some f => .ok f m
      | none => .error (.unknownFunction name) m

/-- The active function. -/
def activeFunction : Step FunctionId := fun m =>
  match m.builder.activeFunction? with
  | some f => .ok f m
  | none => .error .noFunction m

/-- Bit-cast the values that do not have the types called for, as far as there are types. -/
def coerceEach (at? : Option BlockId) : List ValueId → List Ty → Edit (List ValueId)
  | v :: vs, t :: ts => do
    let v ← if (← get).typeOf v = t then pure v else Emitter.cast at? .bitcast v t
    let vs ← coerceEach at? vs ts
    pure (v :: vs)
  | vs, _ => pure vs

/-- Call a function. The number of arguments is checked before any is looked up. -/
def call (callee : Callee) (args : List Operand) : Step ValueId := do
  let f ← resolveCallee callee
  let fn := (← get).context.function f
  if Emitter.accepts fn args.length then
    let vs ← resolveAll args
    emit fun at? => do
      let vs ← coerceEach at? vs fn.params
      Emitter.call at? f vs
  else throw (.argumentCount fn.name fn.params.length args.length)

/-- Return from the active function. -/
def ret (value : Option Operand) : Step Unit := do
  let f ← activeFunction
  let fn := (← get).context.function f
  match fn.result.isVoid, value with
  | true, none =>
    let _ ← emit Emitter.retVoid
  | false, some o =>
    let v ← resolve o
    let _ ← emit (Emitter.ret · v)
  | _, _ => throw (.returnMismatch fn.name fn.result)

/-- Create a block and continue in it. It belongs to the active function, if there is one. -/
def createBlock (name : String) : Step Unit := fun m =>
  match m with
  | ⟨ctx, b⟩ =>
    if (b.blocks.right? name).isSome then .error (.duplicateBlock name) ⟨ctx, b⟩
    else
      let (block, ctx) :=
        match b.activeFunction? with
        | some f => ctx.appendBlock f (some name)
        | none => ctx.addBlock (some name)
      match b.blocks.insert name block with
      | .ok (_, blocks) =>
        .ok () ⟨ctx, { b with blocks := blocks, blockOrder := b.blockOrder ++ [block], position := some block }⟩
      | .error _ => .error (.duplicateBlock name) ⟨ctx, b⟩

/-- Continue in a block. -/
def setBlock (name : String) : Step Unit := do
  match (← get).builder.block? name with
  | some block => updateBuilder fun b => { b with position := some block }
  | none => throw (.unknownBlock name)

/-- Put the blocks that belong to no function at the end of one. -/
def attachAll (f : FunctionId) : List BlockId → Edit Unit
  | [] => pure ()
  | b :: bs => do
    if ((← get).block b).function.isNone then Edit.attachBlock f b
    attachAll f bs

/-- Make a function active and push it. -/
def activate (f : FunctionId) : Step Unit := do
  let v := ((← get).context.function f).value
  updateBuilder fun b => { b with functions := f :: b.functions, stack := v :: b.stack }

/-- Declare a function in the active module and make it active. The blocks created before any function
become its blocks. -/
def createFunction (spec : FunctionSpec) : Step Unit := do
  let b := (← get).builder
  match b.module with
  | none => throw .noModule
  | some module =>
    let f ← emit fun _ => do
      let type := Ty.function spec.result spec.params spec.variadic
      Edit.intern type
      let f ← Edit.addFunction module spec.name type .external
      attachAll f b.blockOrder
      pure f
    updateBuilder fun b => { b with position := none }
    activate f

/-- Make a function and its module active. -/
def useFunction (f : FunctionId) : Step Unit := do
  let module := ((← get).context.function f).module
  updateBuilder fun b => { b with module := some module }
  activate f

/-- Drop values off the stack, also while it is kept. -/
def drop (count : Nat) : Step Unit := do
  let available := (← get).builder.stack.length
  if available < count then throw (.stackUnderflow count available)
  else updateBuilder fun b => { b with stack := b.stack.drop count }

def convert (kind : Conversion) (at? : Option BlockId) (v : ValueId) (t : Ty) : Edit ValueId :=
  match kind with
  | .bitcast => Emitter.cast at? .bitcast v t
  | .zextOrTrunc => Emitter.zextOrTrunc at? v t
  | .fptoui => Emitter.fptoui at? v t
  | .ptrtoint => Emitter.cast at? .ptrtoint v t
  | .inttoptr => Emitter.cast at? .inttoptr v t

/-- Push what an edit at the builder's position comes to. -/
def pushEmitted (f : Option BlockId → Edit ValueId) : Step Unit := do
  let v ← emit f
  push v

end Step

/-- What an action does. -/
def Action.execute : Action → Step Unit
  | .alloc t none => Step.pushEmitted (Emitter.alloca · t none)
  | .alloc t (some name) => do
    let slot ← Step.emit (Emitter.alloca · t (some name))
    Step.updateBuilder fun b => { b with vars := (name, slot) :: b.vars }
  | .load t source => do
    let pointer ← Step.resolve source
    Step.pushEmitted (Emitter.load · t pointer)
  | .store value dest => do
    let dest ← Step.resolve dest
    let value ← Step.resolve value
    let _ ← Step.emit (Emitter.store · value dest)
  | .binary op lhs rhs => do
    let rhs ← Step.resolve rhs
    let lhs ← Step.resolve lhs
    Step.pushEmitted (Emitter.binary · op lhs rhs)
  | .compare pred lhs rhs => do
    let rhs ← Step.resolve rhs
    let lhs ← Step.resolve lhs
    Step.pushEmitted (Emitter.compare · pred lhs rhs)
  | .cast kind value t => do
    let v ← Step.resolve value
    Step.pushEmitted (Step.convert kind · v t)
  | .phi edges => do
    let incoming ← Step.resolveEdges edges
    Step.pushEmitted (Emitter.phi · incoming)
  | .condBr cond onTrue onFalse => do
    let onTrue ← Step.target onTrue
    let onFalse ← Step.target onFalse
    let cond ← Step.resolve cond
    Step.pushEmitted (Emitter.condBr · cond onTrue onFalse)
  | .branch dest => do
    let dest ← Step.target dest
    Step.pushEmitted (Emitter.br · dest)
  | .call callee args => do
    let v ← Step.call callee args
    Step.push v
  | .ret value => Step.ret value
  | .createBlock name => Step.createBlock name
  | .setBlock name => Step.setBlock name
  | .createFunction spec => Step.createFunction spec
  | .useFunction f => Step.useFunction f
  | .useModule m => Step.updateBuilder fun b => { b with module := some m }
  | .push value => do
    let v ← Step.resolve value
    Step.push v
  | .pop count => Step.drop count
  | .keepStack => Step.updateBuilder fun b => { b with keepStack := true }
  | .inspect => pure ()

/-- Perform actions up to the first that fails. -/
def executeAll : List Action → Step Unit
  | [] => pure ()
  | a :: as => do
    a.execute
    executeAll as

end StackAssembler.Build
