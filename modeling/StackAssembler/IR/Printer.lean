import StackAssembler.IR.Context
import StackAssembler.Binary.Text

/-! The text of a module. Unnamed arguments, blocks and results are numbered in the order in which the text
defines them; metadata nodes are numbered in the order in which the text refers to them. -/
namespace StackAssembler.IR

/-- What a function's text gives a name to. -/
inductive Site where
  | value (v : ValueId)
  | block (b : BlockId)
  deriving DecidableEq, Repr

/-- How sites are spelled in a text, without the percent sign. -/
abbrev Spelling := List (Site × String)

namespace Spelling

/-- Give the next numbers to the sites that have no name. -/
def assign : Nat → List (Site × Option String) → Spelling
  | _, [] => []
  | next, (site, some name) :: rest => (site, name) :: assign next rest
  | next, (site, none) :: rest => (site, toString next) :: assign (next + 1) rest

end Spelling

namespace Context

/-- A block's label and the instructions in it that have a result. -/
def blockSites (ctx : Context) (b : BlockId) : List (Site × Option String) :=
  (.block b, (ctx.block b).name) ::
    ((ctx.block b).instructions.toList.filter fun v => !(ctx.typeOf v).isVoid).map fun v =>
      (.value v, (ctx.value v).name)

/-- The sites of a function in the order of its text. -/
def sites (ctx : Context) (f : FunctionId) : List (Site × Option String) :=
  (ctx.function f).args.map (fun v => (.value v, (ctx.value v).name)) ++
    (ctx.function f).blocks.toList.flatMap ctx.blockSites

def spelling (ctx : Context) (f : FunctionId) : Spelling := Spelling.assign 0 (ctx.sites f)

/-- The text of a constant. One-bit integers are truth values. -/
def constantText (t : Ty) : Constant → String
  | .int payload =>
    match t with
    | .int 1 => if payload = 0 then "false" else "true"
    | .int width => toString (Word.signed width payload)
    | _ => toString payload
  | .float bits => Binary.text bits
  | .null => "null"
  | .undef => "undef"

/-- A value as an operand, without its type. One that has no spelling goes by its name or position. -/
def nameText (ctx : Context) (s : Spelling) (v : ValueId) : String :=
  let value := ctx.value v
  match value.kind with
  | .constant c => constantText value.type c
  | .function f => "@" ++ (ctx.function f).name
  | .argument .. | .instruction .. =>
    match s.lookup (.value v) with
    | some text => "%" ++ text
    | none =>
      match value.name with
      | some name => "%" ++ name
      | none => "%v" ++ toString v.index

/-- A value as an operand, after its type. -/
def operandText (ctx : Context) (s : Spelling) (v : ValueId) : String :=
  (ctx.typeOf v).name ++ " " ++ ctx.nameText s v

def labelText (ctx : Context) (s : Spelling) (b : BlockId) : String :=
  match s.lookup (.block b) with
  | some text => "%" ++ text
  | none => "%" ++ ctx.blockLabel b

/-- What an instruction with a result of type `t` does. -/
def operationText (ctx : Context) (s : Spelling) (t : Ty) : Operation → String
  | .alloca allocated => "alloca " ++ allocated.name
  | .load pointer => "load " ++ t.name ++ ", " ++ ctx.operandText s pointer
  | .store value pointer => "store " ++ ctx.operandText s value ++ ", " ++ ctx.operandText s pointer
  | .binary op lhs rhs => op.mnemonic ++ " " ++ ctx.operandText s lhs ++ ", " ++ ctx.nameText s rhs
  | .icmp p lhs rhs => "icmp " ++ p.keyword ++ " " ++ ctx.operandText s lhs ++ ", " ++ ctx.nameText s rhs
  | .fcmp p lhs rhs => "fcmp " ++ p.keyword ++ " " ++ ctx.operandText s lhs ++ ", " ++ ctx.nameText s rhs
  | .cast op value => op.mnemonic ++ " " ++ ctx.operandText s value ++ " to " ++ t.name
  | .phi incoming => "phi " ++ t.name ++ " " ++ Ty.commas (incoming.map fun edge =>
      "[ " ++ ctx.nameText s edge.1 ++ ", " ++ ctx.labelText s edge.2 ++ " ]")
  | .br dest => "br label " ++ ctx.labelText s dest
  | .condBr cond onTrue onFalse =>
    "br " ++ ctx.operandText s cond ++ ", label " ++ ctx.labelText s onTrue ++ ", label " ++
      ctx.labelText s onFalse
  | .call callee args =>
    "call " ++ t.name ++ " @" ++ (ctx.function callee).name ++ "(" ++
      Ty.commas (args.map (ctx.operandText s)) ++ ")"
  | .ret (some value) => "ret " ++ ctx.operandText s value
  | .ret none => "ret void"

/-- The line of an instruction. Another value is written as an operand. -/
def instructionText (ctx : Context) (s : Spelling) (v : ValueId) : String :=
  match (ctx.value v).operation? with
  | none => ctx.operandText s v
  | some op =>
    let body := ctx.operationText s (ctx.typeOf v) op
    if (ctx.typeOf v).isVoid then body else ctx.nameText s v ++ " = " ++ body

/-! ### Metadata -/

/-- Append a node to an order unless it is there. -/
def refer (order : List NodeId) (n : NodeId) : List NodeId := if n ∈ order then order else order ++ [n]

/-- The nodes that a node refers to. -/
def nodeReferences (ctx : Context) (n : NodeId) : List NodeId :=
  (ctx.node n).filterMap fun
    | .node m => some m
    | _ => none

/-- The values of a function that can carry attachments, in the order of its text. -/
def carriers (ctx : Context) (f : FunctionId) : List ValueId :=
  (ctx.function f).value ::
    (ctx.function f).blocks.toList.flatMap fun b => (ctx.block b).instructions.toList

/-- The nodes attached inside a function, in the order of its text. -/
def attachedNodes (ctx : Context) (f : FunctionId) : List NodeId :=
  (ctx.carriers f).flatMap fun v => (ctx.attachmentsOf v).map (·.node)

/-- Follow the references of the nodes from position `i` on, entering new nodes behind the others. -/
def followReferences (ctx : Context) : Nat → Nat → List NodeId → List NodeId
  | 0, _, order => order
  | fuel + 1, i, order =>
    match order[i]? with
    | none => order
    | some n => ctx.followReferences fuel (i + 1) ((ctx.nodeReferences n).foldl refer order)

/-- The numbering of the nodes that the text of some functions refers to, directly or through other
nodes: the position in this list. There are no more steps than nodes. -/
def nodeOrder (ctx : Context) (fs : List FunctionId) : List NodeId :=
  ctx.followReferences ctx.nodes.size 0 ((fs.flatMap ctx.attachedNodes).foldl refer [])

def nodeNumber (order : List NodeId) (n : NodeId) : String := "!" ++ toString (order.idxOf n)

def attachmentText (ctx : Context) (order : List NodeId) (v : ValueId) : String :=
  String.join ((ctx.attachmentsOf v).map fun a => ", !" ++ a.kind ++ " " ++ nodeNumber order a.node)

def nodeOperandText (ctx : Context) (s : Spelling) (order : List NodeId) : NodeOperand → String
  | .string text => "!\"" ++ text ++ "\""
  | .node n => nodeNumber order n
  | .value v => ctx.operandText s v

/-- The line that defines a node. -/
def nodeText (ctx : Context) (s : Spelling) (order : List NodeId) (n : NodeId) : String :=
  nodeNumber order n ++ " = !\x7b" ++ Ty.commas ((ctx.node n).map (ctx.nodeOperandText s order)) ++ "\x7d\n"

/-- The definitions of all nodes, after an empty line. -/
def nodeTable (ctx : Context) (s : Spelling) (order : List NodeId) : String :=
  match order with
  | [] => ""
  | _ => "\n" ++ String.join (order.map (ctx.nodeText s order))

/-! ### Functions and modules -/

def blockText (ctx : Context) (s : Spelling) (order : List NodeId) (b : BlockId) : String :=
  ((s.lookup (.block b)).getD "") ++ ":\n" ++
    String.join ((ctx.block b).instructions.toList.map fun v =>
      "  " ++ ctx.instructionText s v ++ ctx.attachmentText order v ++ "\n")

/-- What stands between the parentheses of a function's heading. A declaration names no parameters. -/
def parameterText (ctx : Context) (s : Spelling) (f : Function) : String :=
  Ty.commas ((if f.isDeclaration then f.params.map Ty.name else f.args.map (ctx.operandText s)) ++
    if f.variadic then ["..."] else [])

def headingText (ctx : Context) (s : Spelling) (order : List NodeId) (f : Function) : String :=
  (if f.isDeclaration then "declare " else "define ") ++ f.linkage.keyword ++ f.result.name ++ " @" ++
    f.name ++ "(" ++ ctx.parameterText s f ++ ")" ++ ctx.attachmentText order f.value

/-- The text of a function without the nodes that it refers to. -/
def functionText (ctx : Context) (order : List NodeId) (id : FunctionId) : String :=
  let f := ctx.function id
  let s := ctx.spelling id
  if f.isDeclaration then ctx.headingText s order f ++ "\n"
  else
    ctx.headingText s order f ++ " \x7b\n" ++
      "\n".intercalate (f.blocks.toList.map (ctx.blockText s order)) ++ "\x7d\n"

/-- A function and the nodes that it refers to. -/
def printFunction (ctx : Context) (f : FunctionId) : String :=
  let order := ctx.nodeOrder [f]
  ctx.functionText order f ++ ctx.nodeTable (ctx.spelling f) order

/-- The spelling that stands when all functions of a module are written: the one of the last. -/
def finalSpelling (ctx : Context) (fs : List FunctionId) : Spelling :=
  match fs.getLast? with
  | some f => ctx.spelling f
  | none => []

/-- A module: a heading, the functions, and the nodes that these refer to. -/
def printModule (ctx : Context) (m : ModuleId) : String :=
  let fs := (ctx.module m).functions.toList
  let order := ctx.nodeOrder fs
  "; ModuleID = '" ++ (ctx.module m).name ++ "'\n" ++
    String.join (fs.map fun f => "\n" ++ ctx.functionText order f) ++
    ctx.nodeTable (ctx.finalSpelling fs) order

/-- A value as an operand on its own, outside any function's text. -/
def printOperand (ctx : Context) (v : ValueId) : String := ctx.operandText [] v

/-- An instruction as its function's text has it. -/
def printInstruction (ctx : Context) (v : ValueId) : String :=
  match ctx.functionOf? v with
  | some f => ctx.instructionText (ctx.spelling f) v
  | none => ctx.instructionText [] v

end Context
end StackAssembler.IR
