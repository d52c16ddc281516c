import StackAssembler.Script.Statement
import StackAssembler.Text.Digits
import StackAssembler.Script.Error
import StackAssembler.Build.Machine

/-! What statements ask for: actions. A statement may refer to what earlier ones built, so it is lowered when
these have been performed. -/
namespace StackAssembler.Script
open IR Build

/-- The names that the statements so far have introduced. -/
structure Names where
  /-- The modules by the names in the script. -/
  modules : List (String × ModuleId) := []
  /-- The modules in the order in which they were first mentioned. -/
  moduleOrder : List ModuleId := []
  blocks : List String := []
  vars : List String := []
  deriving DecidableEq, Repr, Inhabited

/-- A machine and the names of the script that runs on it. -/
structure Workspace where
  machine : Machine := {}
  names : Names := {}
  deriving Repr, Inhabited

/-- What a statement asks for: an action, or the final value. -/
inductive Directive where
  | perform (a : Action)
  | last
  deriving DecidableEq, Repr

/-- A change of the workspace that may fail. What was done before the failure stays done. -/
abbrev Lowering := EStateM ScriptError Workspace

namespace Lowering

/-- Change the context in a way that cannot be refused. -/
def change {α : Type} (f : Context → α × Context) : Lowering α := fun w =>
  match w with
  | ⟨⟨ctx, b⟩, names⟩ =>
    match f ctx with
    | (a, ctx) => .ok a ⟨⟨ctx, b⟩, names⟩

def updateNames (f : Names → Names) : Lowering Unit := fun w =>
  match w with
  | ⟨m, names⟩ => .ok () ⟨m, f names⟩

def fail {α : Type} (f : LoweringFault) (span : Span) : Lowering α := throw (.lowering f span)

/-- The width of an integer type's name, from 1 to 128. -/
def integerWidth? (name : String) : Option Nat :=
  match name.toList with
  | 'i' :: ds =>
    let bits := Text.digitsValue ds
    if ds ≠ [] ∧ ds.all Char.isDigit ∧ 1 ≤ bits ∧ bits ≤ 128 then some bits else none
  | _ => none

/-- The type that a base name stands for. -/
def baseType? (name : String) : Option Ty :=
  match name with
  | "void" => some .void
  | "half" => some (.float .half)
  | "float" | "f32" => some (.float .single)
  | "double" | "f64" => some (.float .double)
  | _ => (integerWidth? name).map .int

/-- Enter a type and so many pointers on top of it. -/
def internPointers : Nat → Ty → Lowering Ty
  | 0, t => do
    change fun ctx => ((), ctx.intern t)
    return t
  | n + 1, t => do
    change fun ctx => ((), ctx.intern t)
    internPointers n (.pointer t 0)

def type (e : TypeExpr) : Lowering Ty :=
  match baseType? e.base with
  | none => fail (.unknownType e.base) e.span
  | some base =>
    if base.isVoid ∧ e.pointers ≠ 0 then fail .pointerToVoid e.span
    else internPointers e.pointers base

def types : List TypeExpr → Lowering (List Ty)
  | [] => return []
  | e :: es => do
    let t ← type e
    return t :: (← types es)

/-- The format of a float literal of a width. -/
def floatFormat (bits : Nat) : FloatFormat :=
  if bits = 16 then .half else if bits = 32 then .single else .double

def operand : OperandExpr → Lowering Operand
  | .stack => return .stack
  | .var name span => do
    if name ∈ (← get).names.vars then return .var name
    else fail (.unknownVariable name) span
  | .arg index => return .arg index
  | .int value bits => return .value (← change (·.integer bits value))
  | .float value bits => return .value (← change fun ctx =>
      (ctx.intern (.float (floatFormat bits))).floating (floatFormat bits) value)

def operands : List OperandExpr → Lowering (List Operand)
  | [] => return []
  | e :: es => do
    let o ← operand e
    return o :: (← operands es)

/-- Refuse a block name that no statement has introduced. -/
def knownBlock (name : String) (span : Span) : Lowering Unit := do
  if name ∈ (← get).names.blocks then return ()
  else fail (.unknownBlock name) span

def target : TargetExpr → Lowering Target
  | .named name span => do
    knownBlock name span
    return .named name
  | .next n => return .next n

def edges : List (OperandExpr × TargetExpr) → Lowering (List PhiEdge)
  | [] => return []
  | (v, b) :: es => do
    let v ← operand v
    let b ← target b
    return ⟨v, b⟩ :: (← edges es)

/-- The module of a name, which is created when it is first mentioned. -/
def moduleNamed (name : String) : Lowering ModuleId := do
  match (← get).names.modules.lookup name with
  | some m => return m
  | none =>
    let m ← change (·.addModule name)
    updateNames fun names =>
      { names with modules := (name, m) :: names.modules, moduleOrder := names.moduleOrder ++ [m] }
    return m

/-- The function of a name in the active module. -/
def functionNamed (name : String) (span : Span) : Lowering FunctionId := do
  let m := (← get).machine
  match m.builder.module with
  | none => fail .noActiveModule span
  | some module =>
    match m.context.findFunction? module name with
    | some f => return f
    | none => fail (.unknownFunction name) span

/-- The action that a command stands for, or none for the command that asks for the final value. -/
def action? (span : Span) : Command → Lowering (Option Action)
  | .module name => return some (.useModule (← moduleNamed name))
  | .function name result params variadic => do
    let result ← type result
    let params ← types params
    return some (.createFunction ⟨name, result, params, variadic⟩)
  | .use name => return some (.useFunction (← functionNamed name span))
  | .block name => do
    updateNames fun names => { names with blocks := name :: names.blocks }
    return some (.createBlock name)
  | .setBlock name => do
    knownBlock name span
    return some (.setBlock name)
  | .alloc t none => return some (.alloc (← type t) none)
  | .alloc t (some name) => do
    let t ← type t
    updateNames fun names => { names with vars := name :: names.vars }
    return some (.alloc t (some name))
  | .load t source => do
    let t ← type t
    return some (.load t (← operand source))
  | .store value dest => do
    let value ← operand value
    return some (.store value (← operand dest))
  | .binary op lhs rhs => do
    let lhs ← operand lhs
    return some (.binary op lhs (← operand rhs))
  | .compare pred lhs rhs => do
    let lhs ← operand lhs
    return some (.compare pred lhs (← operand rhs))
  | .cast kind value t => do
    let value ← operand value
    return some (.cast kind value (← type t))
  | .phi es => return some (.phi (← edges es))
  | .condBr cond onTrue onFalse => do
    let cond ← operand cond
    let onTrue ← target onTrue
    return some (.condBr cond onTrue (← target onFalse))
  | .br dest => return some (.branch (← target dest))
  | .call callee args => return some (.call (.named callee) (← operands args))
  | .ret none => return some (.ret none)
  | .ret (some value) => return some (.ret (some (← operand value)))
  | .push value => return some (.push (← operand value))
  | .pop count => return some (.pop count)
  | .keepStack => return some .keepStack
  | .inspect => return some .inspect
  | .last => return none

end Lowering

/-- What a statement asks for. -/
def Statement.lower (s : Statement) : Lowering Directive := do
  match ← Lowering.action? s.span s.command with
  | some a => return .perform a
  | none => return .last

end StackAssembler.Script
