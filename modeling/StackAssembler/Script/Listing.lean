import StackAssembler.Script.Run

/-! Listings of tokens and of the directives that a script is lowered to. -/
namespace StackAssembler.Script
open IR Build

/-- A nested value as listings show it. -/
inductive Form where
  | word (s : String)
  | apply (name : String) (arg : Form)
  | record (name : String) (fields : List (String × Form))
  | list (items : List Form)

namespace Form

mutual

def text : Form → String
  | word s => s
  | apply name arg => name ++ "(" ++ arg.text ++ ")"
  | record name fields => name ++ " \x7b " ++ ", ".intercalate (fieldTexts fields) ++ " \x7d"
  | list items => "[" ++ ", ".intercalate (texts items) ++ "]"

def texts : List Form → List String
  | [] => []
  | f :: fs => f.text :: texts fs

def fieldTexts : List (String × Form) → List String
  | [] => []
  | (name, f) :: fs => (name ++ ": " ++ f.text) :: fieldTexts fs

end

def string (s : String) : Form := word ("\"" ++ s ++ "\"")

def number (n : Nat) : Form := word (toString n)

def truth (b : Bool) : Form := word (if b then "true" else "false")

def option : Option Form → Form
  | some f => apply "Some" f
  | none => word "None"

/-! The parts of directives. Types go by their numbers. -/

variable (ctx : Context)

def ofType (t : Ty) : Form := apply "TypeId" (number ((ctx.typeNumber? t).getD 0))

def ofValue (v : ValueId) : Form := apply "ValueId" (number v.index)

def ofFunction (f : FunctionId) : Form := apply "FunctionId" (number f.index)

def ofOperand : Operand → Form
  | .stack => word "Stack"
  | .value v => apply "Value" (ofValue v)
  | .var name => apply "Var" (string name)
  | .arg index => apply "Arg" (number index)

def ofTarget : Target → Form
  | .named name => apply "Named" (string name)
  | .block b => apply "Block" (apply "BlockId" (number b.index))
  | .next n => apply "Next" (number n)

def ofCallee : Callee → Form
  | .function f => apply "Function" (ofFunction f)
  | .named name => apply "Named" (string name)

def ofConversion : Conversion → Form
  | .bitcast => word "Bitcast"
  | .zextOrTrunc => word "ZextOrTrunc"
  | .fptoui => word "FpToUi"
  | .ptrtoint => word "PtrToInt"
  | .inttoptr => word "IntToPtr"

def ofBinaryOp : BinaryOp → Form
  | .add => word "Add"
  | .sub => word "Sub"
  | .mul => word "Mul"
  | .udiv => word "UDiv"
  | .sdiv => word "SDiv"
  | .urem => word "URem"
  | .srem => word "SRem"
  | .shl => word "Shl"
  | .lshr => word "LShr"
  | .ashr => word "AShr"
  | .and => word "And"
  | .or => word "Or"
  | .xor => word "Xor"
  | .fadd => word "FAdd"
  | .fsub => word "FSub"
  | .fmul => word "FMul"
  | .fdiv => word "FDiv"
  | .frem => word "FRem"

/-- Predicates are capitalised, those of floats behind an `F`. -/
def ofPredicate : Predicate → Form
  | .float p => word ("F" ++ p.keyword.capitalize)
  | .int p => word p.keyword.capitalize

def ofEdge (e : PhiEdge) : Form :=
  record "PhiEdge" [("value", ofOperand e.value), ("block", ofTarget e.block)]

def ofSpec (s : FunctionSpec) : Form :=
  record "FunctionSpec" [("name", string s.name), ("ret", ofType ctx s.result),
    ("params", list (s.params.map (ofType ctx))), ("vararg", truth s.variadic)]

def ofAction : Action → Form
  | .alloc t name => record "Alloc" [("ty", ofType ctx t), ("name", option (name.map string))]
  | .load t source => record "Load" [("ty", ofType ctx t), ("from", ofOperand source)]
  | .store value dest => record "Store" [("value", ofOperand value), ("dest", ofOperand dest)]
  | .binary op lhs rhs =>
    record "Binary" [("op", ofBinaryOp op), ("lhs", ofOperand lhs), ("rhs", ofOperand rhs)]
  | .compare p lhs rhs =>
    record "Compare" [("pred", ofPredicate p), ("lhs", ofOperand lhs), ("rhs", ofOperand rhs)]
  | .cast kind value t =>
    record "Cast" [("kind", ofConversion kind), ("value", ofOperand value), ("to", ofType ctx t)]
  | .phi edges => apply "Phi" (list (edges.map ofEdge))
  | .condBr cond onTrue onFalse =>
    record "CondBr" [("cond", ofOperand cond), ("then_block", ofTarget onTrue),
      ("else_block", ofTarget onFalse)]
  | .branch dest => apply "Branch" (ofTarget dest)
  | .call callee args =>
    record "Call" [("callee", ofCallee callee), ("args", list (args.map ofOperand))]
  | .ret value => apply "Ret" (option (value.map ofOperand))
  | .createBlock name => apply "CreateBlock" (string name)
  | .setBlock name => apply "SetBlock" (string name)
  | .createFunction spec => apply "CreateFunction" (ofSpec ctx spec)
  | .useFunction f => apply "UseFunction" (ofFunction f)
  | .useModule m => apply "Module" (apply "ModuleId" (number m.index))
  | .push value => apply "Push" (ofOperand value)
  | .pop count => apply "Pop" (number count)
  | .keepStack => word "KeepStack"
  | .inspect => apply "Inspect" (word "Inspector(..)")

def ofDirective : Directive → Form
  | .perform a => apply "Action" (ofAction ctx a)
  | .last => word "Last"

end Form

/-- The listing of the tokens of a script. -/
def tokenListing (ts : List PlacedToken) : List String :=
  ["=== Tokens ==="] ++ ts.map (fun t => t.span.text ++ " " ++ t.token.text) ++
    ["=== End Tokens ===", ""]

/-- The listing of the directives of a run. -/
def Progress.directiveListing (p : Progress) : List String :=
  p.directives.toList.map fun (span, d) =>
    span.text ++ ": " ++ (Form.ofDirective p.workspace.machine.context d).text

end StackAssembler.Script
