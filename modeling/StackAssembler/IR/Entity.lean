import StackAssembler.IR.Ty
import StackAssembler.IR.Opcode

/-! What a context holds, and the handles by which its parts name one another. -/
namespace StackAssembler.IR

structure ValueId where
  index : Nat
  deriving DecidableEq, Repr, Inhabited

structure BlockId where
  index : Nat
  deriving DecidableEq, Repr, Inhabited

structure FunctionId where
  index : Nat
  deriving DecidableEq, Repr, Inhabited

structure ModuleId where
  index : Nat
  deriving DecidableEq, Repr, Inhabited

structure NodeId where
  index : Nat
  deriving DecidableEq, Repr, Inhabited

/-- A constant of some type. Floats are kept as the bits of a 64-bit number. -/
inductive Constant where
  | int (payload : Nat)
  | float (bits : UInt64)
  | null
  | undef
  deriving DecidableEq, Repr, Inhabited

/-- What an instruction does. -/
inductive Operation where
  | alloca (allocated : Ty)
  | load (pointer : ValueId)
  | store (value pointer : ValueId)
  | binary (op : BinaryOp) (lhs rhs : ValueId)
  | icmp (pred : IntPredicate) (lhs rhs : ValueId)
  | fcmp (pred : FloatPredicate) (lhs rhs : ValueId)
  | cast (op : CastOp) (value : ValueId)
  | phi (incoming : List (ValueId × BlockId))
  | br (dest : BlockId)
  | condBr (cond : ValueId) (onTrue onFalse : BlockId)
  | call (callee : FunctionId) (args : List ValueId)
  | ret (value : Option ValueId)
  deriving DecidableEq, Repr, Inhabited

namespace Operation

def opcode : Operation → String
  | alloca _ => "alloca"
  | load _ => "load"
  | store .. => "store"
  | binary op .. => op.mnemonic
  | icmp .. => "icmp"
  | fcmp .. => "fcmp"
  | cast op _ => op.mnemonic
  | phi _ => "phi"
  | br _ | condBr .. => "br"
  | call .. => "call"
  | ret _ => "ret"

/-- The values that are read, in the order in which they are written. -/
def operands : Operation → List ValueId
  | alloca _ | br _ => []
  | load p => [p]
  | store v p => [v, p]
  | binary _ l r | icmp _ l r | fcmp _ l r => [l, r]
  | cast _ v => [v]
  | phi incoming => incoming.map Prod.fst
  | condBr c _ _ => [c]
  | call _ args => args
  | ret v => v.toList

/-- The blocks that may come next. -/
def successors : Operation → List BlockId
  | br d => [d]
  | condBr _ t f => [t, f]
  | _ => []

/-- Whether nothing may follow in the block. -/
def isTerminator : Operation → Bool
  | br _ | condBr .. | ret _ => true
  | _ => false

end Operation

inductive ValueKind where
  | constant (c : Constant)
  | argument (function : FunctionId) (index : Nat)
  | function (f : FunctionId)
  | instruction (op : Operation) (block : BlockId)
  deriving DecidableEq, Repr, Inhabited

structure Value where
  type : Ty
  name : Option String
  kind : ValueKind
  deriving DecidableEq, Repr

instance : Inhabited Value := ⟨⟨.void, none, .constant .undef⟩⟩

namespace Value

def operation? (v : Value) : Option Operation :=
  match v.kind with
  | .instruction op _ => some op
  | _ => none

/-- The block that an instruction stands in. -/
def block? (v : Value) : Option BlockId :=
  match v.kind with
  | .instruction _ b => some b
  | _ => none

def function? (v : Value) : Option FunctionId :=
  match v.kind with
  | .function f => some f
  | _ => none

end Value

/-- A list of instructions. A block without a function is detached. -/
structure Block where
  name : Option String
  function : Option FunctionId
  instructions : Array ValueId
  deriving DecidableEq, Repr, Inhabited

structure Function where
  name : String
  result : Ty
  params : List Ty
  variadic : Bool
  linkage : Linkage
  module : ModuleId
  /-- The function as an operand. -/
  value : ValueId
  args : List ValueId
  blocks : Array BlockId
  deriving DecidableEq, Repr, Inhabited

namespace Function

def type (f : Function) : Ty := .function f.result f.params f.variadic

/-- A function without blocks is only declared. -/
def isDeclaration (f : Function) : Bool := f.blocks.isEmpty

end Function

structure Module where
  name : String
  functions : Array FunctionId
  deriving DecidableEq, Repr, Inhabited

/-- An operand of a metadata node. -/
inductive NodeOperand where
  | string (s : String)
  | node (n : NodeId)
  | value (v : ValueId)
  deriving DecidableEq, Repr, Inhabited

abbrev Node := List NodeOperand

/-- The string of a node that holds just one string. -/
def Node.soleString? : Node → Option String
  | [.string s] => some s
  | _ => none

/-- A metadata node tied to a value under a kind. -/
structure Attachment where
  target : ValueId
  kind : String
  node : NodeId
  deriving DecidableEq, Repr, Inhabited

end StackAssembler.IR
