import StackAssembler.Script.Directive
import StackAssembler.Script.Parser
import StackAssembler.IR.Naming

/-! Running scripts. Each statement is lowered and performed before the next one is looked at. -/
namespace StackAssembler.Script
open IR Build

/-- What an `inspect` statement sees. -/
structure Inspection where
  depth : Nat
  block : Option String
  deriving DecidableEq, Repr

/-- A workspace and what the run on it has shown so far. -/
structure Progress where
  workspace : Workspace := {}
  /-- What statements were lowered to, in order. -/
  directives : Array (Span × Directive) := #[]
  inspections : Array Inspection := #[]
  /-- The final values asked for, in order. -/
  last : Array String := #[]
  deriving Inhabited

/-- What a statement came to. -/
inductive Outcome where
  | performed (action : String)
  | last (value : String)
  deriving DecidableEq, Repr

/-- A stretch of a run, which may fail. What was done before the failure stays done. -/
abbrev Run := EStateM ScriptError Progress

namespace Run

def lower (s : Statement) : Run Directive := fun p =>
  match p with
  | ⟨w, directives, inspections, last⟩ =>
    match s.lower w with
    | .ok d w => .ok d ⟨w, directives.push (s.span, d), inspections, last⟩
    | .error e w => .error e ⟨w, directives, inspections, last⟩

/-- Take a step of the machine. A failure is reported at `span`. -/
def step {α : Type} (span : Span) (f : Step α) : Run α := fun p =>
  match p with
  | ⟨⟨m, names⟩, directives, inspections, last⟩ =>
    match f m with
    | .ok a m => .ok a ⟨⟨m, names⟩, directives, inspections, last⟩
    | .error e m => .error (.build e span) ⟨⟨m, names⟩, directives, inspections, last⟩

/-- Note what there is to see when the action asks for it. -/
def observe (a : Action) : Run Unit := fun p =>
  match a with
  | .inspect =>
    let b := p.workspace.machine.builder
    .ok () { p with inspections := p.inspections.push ⟨b.stack.length, b.currentBlockName?⟩ }
  | _ => .ok () p

def perform (span : Span) : Directive → Run Outcome
  | .perform a => do
    step span a.execute
    observe a
    return .performed a.name
  | .last => do
    let v ← step span Step.pop
    let text := (← get).workspace.machine.context.displayName v
    modify fun p => { p with last := p.last.push text }
    return .last text

def statement (s : Statement) : Run Outcome := do
  let d ← lower s
  perform s.span d

/-- Run statements up to the first that fails. -/
def script : List Statement → Run Unit
  | [] => return ()
  | s :: rest => do
    let _ ← statement s
    script rest

/-- Run all statements, also after one that fails. Each answer comes with the machine it left. -/
def trace : List Statement → Progress → List (Except ScriptError Outcome × Machine) × Progress
  | [], p => ([], p)
  | s :: rest, p =>
    let (answer, p) : Except ScriptError Outcome × Progress :=
      match statement s p with
      | .ok o p => (.ok o, p)
      | .error e p => (.error e, p)
    let (answers, p') := trace rest p
    ((answer, p.workspace.machine) :: answers, p')

end Run

namespace Progress

/-- The modules that the script mentions, in the order in which it first does. -/
def modules (p : Progress) : List ModuleId := p.workspace.names.moduleOrder

def moduleTexts (p : Progress) : List String :=
  p.modules.map p.workspace.machine.context.printModule

end Progress

/-- What a run leaves: the texts of its modules with empty lines between them, and the final values. -/
structure Output where
  moduleText : String
  last : List String
  deriving DecidableEq, Repr

/-- Run a script from nothing. With `tokensFirst` all of it has to be readable before it is parsed. -/
def run (source : String) (tokensFirst : Bool) : Except ScriptError Output × Progress :=
  let script := do
    if tokensFirst then
      let _ ← tokens source
    Parser.parse source
  match script with
  | .error e => (.error e, {})
  | .ok statements =>
    match Run.script statements {} with
    | .ok () p => (.ok ⟨"\n".intercalate p.moduleTexts, p.last.toList⟩, p)
    | .error e p => (.error e, p)

end StackAssembler.Script
