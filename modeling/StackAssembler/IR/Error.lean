import StackAssembler.IR.Entity

/-! Why an edit of a context is refused. -/
namespace StackAssembler.IR

/-- What type was called for. -/
inductive Expectation where
  | exactly (t : Ty)
  | anInteger
  | aFloat
  | aPointer
  deriving DecidableEq, Repr

def Expectation.text : Expectation → String
  | exactly t => t.name
  | anInteger => "integer type"
  | aFloat => "floating point type"
  | aPointer => "pointer type"

/-- What is wrong with an operand. -/
inductive OperandFault where
  | cannotAllocate (t : Ty)
  | notAPointer (t : Ty)
  | operandsOfType (t : Ty)
  | floatPredicate (p : FloatPredicate)
  | intPredicate (p : IntPredicate)
  deriving DecidableEq, Repr

def OperandFault.text : OperandFault → String
  | cannotAllocate t => "cannot allocate " ++ t.name
  | notAPointer t => t.name ++ " is not a pointer"
  | operandsOfType t => "operands of type " ++ t.name
  | floatPredicate p => "float predicate " ++ (Predicate.float p).name
  | intPredicate p => "integer predicate " ++ (Predicate.int p).name

inductive IrError where
  | typeMismatch (expected : Expectation) (found : Ty)
  | invalidOperand (opcode : String) (fault : OperandFault)
  | invalidCast (op : CastOp) (source target : Ty)
  | emptyPhi
  | noInsertionPoint
  | blockTerminated (block : String)
  | detachedBlock (block : String)
  | blockAttached (block : String)
  | argumentCount (function : String) (expected found : Nat)
  | returnMismatch (function : String) (expected : Ty)
  | notAFunction (t : Ty)
  | duplicateFunction (name : String)
  | metadataTarget
  | metadataIndex (index length : Nat)
  deriving DecidableEq, Repr

def IrError.message : IrError → String
  | typeMismatch expected found =>
    "type mismatch: expected " ++ expected.text ++ ", found " ++ found.name
  | invalidOperand opcode fault => "invalid operand for " ++ opcode ++ ": " ++ fault.text
  | invalidCast op source target =>
    "cannot " ++ op.mnemonic ++ " from " ++ source.name ++ " to " ++ target.name
  | emptyPhi => "phi node needs at least one incoming edge"
  | noInsertionPoint => "builder has no insertion point"
  | blockTerminated block => "block '" ++ block ++ "' already ends in a terminator"
  | detachedBlock block => "block '" ++ block ++ "' is not attached to a function"
  | blockAttached block => "block '" ++ block ++ "' already belongs to a function"
  | argumentCount function expected found =>
    "call to '" ++ function ++ "' expects " ++ toString expected ++ " arguments, got " ++ toString found
  | returnMismatch function expected =>
    "return does not match '" ++ function ++ "' returning " ++ expected.name
  | notAFunction t => "type " ++ t.name ++ " is not a function type"
  | duplicateFunction name => "function '" ++ name ++ "' is already defined in this module"
  | metadataTarget => "metadata can only be attached to instructions and functions"
  | metadataIndex index length =>
    "metadata operand index " ++ toString index ++ " out of range for node with " ++ toString length ++
      " operands"

/-- A one-word name for the kind of fault, for reports that tools read. -/
def IrError.kind : IrError → String
  | typeMismatch .. => "TypeMismatch"
  | invalidOperand .. => "InvalidOperand"
  | invalidCast .. => "InvalidCast"
  | emptyPhi => "EmptyPhi"
  | noInsertionPoint => "NoInsertPoint"
  | blockTerminated _ => "BlockTerminated"
  | detachedBlock _ => "DetachedBlock"
  | blockAttached _ => "BlockAttached"
  | argumentCount .. => "ArgumentCount"
  | returnMismatch .. => "ReturnMismatch"
  | notAFunction _ => "NotAFunction"
  | duplicateFunction _ => "DuplicateFunction"
  | metadataTarget => "MetadataTarget"
  | metadataIndex .. => "MetadataIndex"

end StackAssembler.IR
