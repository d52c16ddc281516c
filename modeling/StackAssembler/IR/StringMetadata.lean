import StackAssembler.IR.Traversal
import StackAssembler.DottedName

/-! Strings on values, kept as metadata. Instructions and functions carry a node with a node with the
string. Arguments carry no attachments: the strings of a function's arguments are the operands of one node
that is attached to the function, and each argument has one string under whatever tag. -/
namespace StackAssembler.IR

namespace Tag

/-- What stands for an argument's string until there is one. -/
def none : String := "sc.meta.none"

/-- The kind under which a function carries its arguments' strings. -/
def arguments : String := "sc.meta.arguments"

/-- The kind under which dotted names are kept. -/
def dottedName : String := "sc.annotation"

end Tag

/-- The string that a node starts with, unless it is empty. -/
def Node.leadingString? : Node → Option String
  | .string s :: _ => if s.isEmpty then none else some s
  | _ => none

namespace Context

def addString (ctx : Context) (s : String) : NodeId × Context := ctx.addNode [.string s]

def addTuple (ctx : Context) (nodes : List NodeId) : NodeId × Context := ctx.addNode (nodes.map .node)

/-- A node for each string. -/
def addStrings (ctx : Context) : List String → List NodeId × Context
  | [] => ([], ctx)
  | s :: ss =>
    let (n, ctx) := ctx.addString s
    let (ns, ctx) := ctx.addStrings ss
    (n :: ns, ctx)

/-- A node that refers to a new node for each string. -/
def addStringTuple (ctx : Context) (ss : List String) : NodeId × Context :=
  let (nodes, ctx) := ctx.addStrings ss
  ctx.addTuple nodes

/-- The string of an argument. -/
def argumentString? (ctx : Context) (v : ValueId) : Option String :=
  match (ctx.value v).kind with
  | .argument f index => do
    let slots ← ctx.attached? (ctx.function f).value Tag.arguments
    match (ctx.node slots)[index]? with
    | some (.node n) => (ctx.node n).leadingString?.filter (· ≠ Tag.none)
    | _ => none
  | _ => none

/-- The string that a value carries under a tag. -/
def string? (ctx : Context) (v : ValueId) (tag : String) : Option String :=
  match (ctx.value v).kind with
  | .argument .. => ctx.argumentString? v
  | _ => do
    let outer ← ctx.attached? v tag
    match (ctx.node outer).head? with
    | some (.node inner) => (ctx.node inner).leadingString?
    | _ => none

end Context

namespace Edit

/-- The node with the strings of a function's arguments. A new one has none of them set. -/
def argumentSlots (f : Function) : Edit NodeId := do
  match (← get).attached? f.value Tag.arguments with
  | some slots => pure slots
  | none =>
    let slots ← perform (·.addStringTuple (f.args.map fun _ => Tag.none))
    attach f.value Tag.arguments slots
    pure slots

/-- Let a node hold the string of an argument. -/
def setArgumentNode (v : ValueId) (n : NodeId) : Edit Unit := do
  let ctx ← get
  match (ctx.value v).kind with
  | .argument f index =>
    let slots ← argumentSlots (ctx.function f)
    replaceNodeOperand slots index (.node n)
  | _ => throw .metadataTarget

/-- Let a value carry a string under a tag. -/
def setString (v : ValueId) (tag s : String) : Edit Unit := do
  match ((← get).value v).kind with
  | .argument .. =>
    let n ← perform (·.addString s)
    setArgumentNode v n
  | _ =>
    let inner ← perform (·.addString s)
    let outer ← perform (·.addTuple [inner])
    attach v tag outer

/-- Let a value carry a dotted name. -/
def mark (v : ValueId) (a : DottedName) : Edit Unit := setString v Tag.dottedName a.text

end Edit

namespace Context

/-- The dotted name that a value carries. -/
def mark? (ctx : Context) (v : ValueId) : Option DottedName :=
  (ctx.string? v Tag.dottedName).map DottedName.parse

/-- The functions, and then the instructions, of a module that carry dotted names. -/
def marks (ctx : Context) (m : ModuleId) : List (ValueId × DottedName) :=
  ((ctx.module m).functions.toList.map (fun f => (ctx.function f).value) ++
    ctx.instructions (.module m)).filterMap fun v => (ctx.mark? v).map fun a => (v, a)

end Context
end StackAssembler.IR
