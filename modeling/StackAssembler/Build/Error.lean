import StackAssembler.IR.Error

/-! Why an action fails. -/
namespace StackAssembler.Build
open IR

inductive BuildError where
  | stackUnderflow (needed available : Nat)
  | unknownVariable (name : String)
  | unknownBlock (name : String)
  | unknownFunction (name : String)
  | duplicateBlock (name : String)
  | argumentCount (function : String) (expected found : Nat)
  | returnMismatch (function : String) (expected : Ty)
  | noArgument (index : Nat)
  | noModule
  | noFunction
  | noCurrentBlock
  | noFollowingBlock (n : Nat)
  | ir (e : IrError)
  deriving DecidableEq, Repr

def BuildError.message : BuildError → String
  | stackUnderflow needed available =>
    "stack underflow: needed " ++ toString needed ++ " values, " ++ toString available ++ " available"
  | unknownVariable name => "unknown variable '" ++ name ++ "'"
  | unknownBlock name => "unknown block '" ++ name ++ "'"
  | unknownFunction name => "unknown function '" ++ name ++ "'"
  | duplicateBlock name => "block name '" ++ name ++ "' is already bound"
  | argumentCount function expected found =>
    "'" ++ function ++ "' takes " ++ toString expected ++ " arguments, " ++ toString found ++ " given"
  | returnMismatch function expected =>
    "return does not match '" ++ function ++ "' returning " ++ expected.name
  | noArgument index => "function has no argument " ++ toString index
  | noModule => "no active module"
  | noFunction => "no active function"
  | noCurrentBlock => "no current block"
  | noFollowingBlock n => "no block " ++ toString n ++ " positions after the current one"
  | ir e => e.message

/-- A one-word name for the kind of fault, for reports that tools read. -/
def BuildError.kind : BuildError → String
  | stackUnderflow .. => "StackUnderflow"
  | unknownVariable _ => "UnknownVariable"
  | unknownBlock _ => "UnknownBlock"
  | unknownFunction _ => "UnknownFunction"
  | duplicateBlock _ => "DuplicateBlock"
  | argumentCount .. => "ArgumentCount"
  | returnMismatch .. => "ReturnMismatch"
  | noArgument _ => "NoArgument"
  | noModule => "NoModule"
  | noFunction => "NoFunction"
  | noCurrentBlock => "NoCurrentBlock"
  | noFollowingBlock _ => "NoFollowingBlock"
  | ir e => "Ir." ++ e.kind

end StackAssembler.Build
