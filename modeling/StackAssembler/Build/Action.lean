import StackAssembler.IR.Entity

/-! The actions that a builder performs. -/
namespace StackAssembler.Build
open IR

/-- Where an action takes a value from. -/
inductive Operand where
  | stack
  | value (v : ValueId)
  | var (name : String)
  | arg (index : Nat)
  deriving DecidableEq, Repr

/-- Where a branch leads: to a block by name or handle, or to the one created `n` positions after the
current one. -/
inductive Target where
  | named (name : String)
  | block (b : BlockId)
  | next (n : Nat)
  deriving DecidableEq, Repr

/-- What is called: a function by handle, or by its name in the active module. -/
inductive Callee where
  | function (f : FunctionId)
  | named (name : String)
  deriving DecidableEq, Repr

/-- Conversions that an action can ask for. -/
inductive Conversion where
  | bitcast | zextOrTrunc | fptoui | ptrtoint | inttoptr
  deriving DecidableEq, Repr, Inhabited

namespace Conversion

def all : List Conversion := [bitcast, zextOrTrunc, fptoui, ptrtoint, inttoptr]

def name : Conversion → String
  | bitcast => "bitcast"
  | zextOrTrunc => "zext_or_trunc"
  | fptoui => "fptoui"
  | ptrtoint => "ptrtoint"
  | inttoptr => "inttoptr"

def ofName? (s : String) : Option Conversion := all.find? (·.name = s)

end Conversion

/-- A value of a phi and the block that it comes from. -/
structure PhiEdge where
  value : Operand
  block : Target
  deriving DecidableEq, Repr

structure FunctionSpec where
  name : String
  result : Ty
  params : List Ty
  variadic : Bool
  deriving DecidableEq, Repr

inductive Action where
  /-- A slot of memory. One with a name becomes a variable, another is pushed. -/
  | alloc (type : Ty) (name : Option String)
  | load (type : Ty) (source : Operand)
  | store (value dest : Operand)
  | binary (op : BinaryOp) (lhs rhs : Operand)
  | compare (pred : Predicate) (lhs rhs : Operand)
  | cast (kind : Conversion) (value : Operand) (type : Ty)
  | phi (edges : List PhiEdge)
  | condBr (cond : Operand) (onTrue onFalse : Target)
  | branch (dest : Target)
  | call (callee : Callee) (args : List Operand)
  | ret (value : Option Operand)
  | createBlock (name : String)
  | setBlock (name : String)
  | createFunction (spec : FunctionSpec)
  | useFunction (f : FunctionId)
  | useModule (m : ModuleId)
  | push (value : Operand)
  | pop (count : Nat)
  | keepStack
  | inspect
  deriving DecidableEq, Repr

def Action.name : Action → String
  | alloc .. => "alloc"
  | load .. => "load"
  | store .. => "store"
  | binary op _ _ => op.mnemonic
  | compare .. => "cmp"
  | cast kind _ _ => kind.name
  | phi _ => "phi"
  | condBr .. => "condbr"
  | branch _ => "branch"
  | call .. => "call"
  | ret _ => "ret"
  | createBlock _ => "create_block"
  | setBlock _ => "set_block"
  | createFunction _ => "create_function"
  | useFunction _ => "function"
  | useModule _ => "module"
  | push _ => "push"
  | pop _ => "pop"
  | keepStack => "keep_stack"
  | inspect => "inspect"

end StackAssembler.Build
