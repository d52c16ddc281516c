import StackAssembler.IR.Context

/-! The instructions of a module, a function or a block, and what kind of value each is. -/
namespace StackAssembler.IR

/-- A part of a context to look through. -/
inductive Scope where
  | module (m : ModuleId)
  | function (f : FunctionId)
  | block (b : BlockId)
  deriving DecidableEq, Repr

/-- The four kinds of values, and the kinds of instructions. -/
inductive Category where
  | constant | argument | function | instruction
  | alloca | load | store | binary | compare | cast | phi | branch | call | ret | terminator
  deriving DecidableEq, Repr

namespace Category

def all : List Category :=
  [constant, argument, function, instruction, alloca, load, store, binary, compare, cast, phi, branch, call,
    ret, terminator]

def name : Category → String
  | constant => "Constant"
  | argument => "Argument"
  | function => "Function"
  | instruction => "Instruction"
  | alloca => "Alloca"
  | load => "Load"
  | store => "Store"
  | binary => "Binary"
  | compare => "Compare"
  | cast => "Cast"
  | phi => "Phi"
  | branch => "Branch"
  | call => "Call"
  | ret => "Ret"
  | terminator => "Terminator"

def ofName? (s : String) : Option Category := all.find? (·.name = s)

/-- The kind of an instruction. -/
def ofOperation : Operation → Category
  | .alloca _ => alloca
  | .load _ => load
  | .store .. => store
  | .binary .. => binary
  | .icmp .. | .fcmp .. => compare
  | .cast .. => cast
  | .phi _ => phi
  | .br _ | .condBr .. => branch
  | .call .. => call
  | .ret _ => ret

/-- The kind of a value. -/
def ofValue (v : Value) : Category :=
  match v.kind with
  | .constant _ => constant
  | .argument .. => argument
  | .function _ => function
  | .instruction .. => instruction

def holds (c : Category) (v : Value) : Bool :=
  c = ofValue v ||
    match v.operation? with
    | some op => c = ofOperation op || c = terminator && op.isTerminator
    | none => false

end Category

namespace Context

def blocksIn (ctx : Context) : Scope → List BlockId
  | .module m => (ctx.module m).functions.toList.flatMap fun f => (ctx.function f).blocks.toList
  | .function f => (ctx.function f).blocks.toList
  | .block b => [b]

/-- Every instruction of a scope, block by block. -/
def instructions (ctx : Context) (scope : Scope) : List ValueId :=
  (ctx.blocksIn scope).flatMap fun b => (ctx.block b).instructions.toList

def isA (ctx : Context) (v : ValueId) (c : Category) : Bool := c.holds (ctx.value v)

def instructionsOf (ctx : Context) (scope : Scope) (c : Category) : List ValueId :=
  (ctx.instructions scope).filter (ctx.isA · c)

/-- The value itself when it is of a category. -/
def as? (ctx : Context) (v : ValueId) (c : Category) : Option ValueId :=
  if ctx.isA v c then some v else none

/-- Operand number `i` of an instruction. -/
def operand? (ctx : Context) (v : ValueId) (i : Nat) : Option ValueId := do
  (← (ctx.value v).operation?).operands[i]?

/-- The instruction that the block of an instruction starts with. -/
def blockStart? (ctx : Context) (v : ValueId) : Option ValueId := do
  (ctx.block (← (ctx.value v).block?)).instructions[0]?

end Context

/-- One step of a walk along values. -/
inductive Move where
  | operand (i : Nat)
  | keepIf (c : Category)
  | toBlockStart
  deriving DecidableEq, Repr

/-- Where a step leads. Once there is no value, there is none any more. -/
def Move.from? (ctx : Context) (v : Option ValueId) : Move → Option ValueId
  | operand i => v.bind (ctx.operand? · i)
  | keepIf c => v.bind (ctx.as? · c)
  | toBlockStart => v.bind ctx.blockStart?

/-- The start of a walk and what each step leads to. -/
def Context.walk (ctx : Context) : Option ValueId → List Move → List (Option ValueId)
  | v, [] => [v]
  | v, m :: ms => v :: ctx.walk (m.from? ctx v) ms

end StackAssembler.IR
