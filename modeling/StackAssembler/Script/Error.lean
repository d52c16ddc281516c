import StackAssembler.Script.Token
import StackAssembler.Build.Error

/-! What can be wrong with a script, and where. -/
namespace StackAssembler.Script
open Build

/-- What the grammar calls for. -/
inductive Wanted where
  | statement | endOfLine | name | functionName | variableName | number | type | predicate | operand | block
  | keyword (word : String)
  | token (t : Token)
  deriving DecidableEq, Repr

def Wanted.text : Wanted → String
  | statement => "statement"
  | endOfLine => "end of line"
  | name => "name"
  | functionName => "function name"
  | variableName => "variable"
  | number => "number"
  | type => "type"
  | predicate => "predicate"
  | operand => "operand"
  | block => "block"
  | keyword word => "'" ++ word ++ "'"
  | token t => t.text

inductive SyntaxFault where
  | unexpected (wanted : Wanted) (found : Token)
  | unknownStatement (word : String)
  | unknownPredicate (word : String)
  | invalidLiteral (text : String)
  | integerOutOfRange (text : String)
  | integerWidth (bits : Nat)
  | floatWidth (bits : Nat)
  deriving DecidableEq, Repr

def SyntaxFault.message : SyntaxFault → String
  | unexpected wanted found => "expected " ++ wanted.text ++ ", found " ++ found.text
  | unknownStatement word => "unknown statement '" ++ word ++ "'"
  | unknownPredicate word => "unknown predicate '" ++ word ++ "'"
  | invalidLiteral text => "invalid literal: " ++ text
  | integerOutOfRange text => "integer out of range: " ++ text
  | integerWidth bits => "unsupported integer width " ++ toString bits
  | floatWidth bits => "unsupported float width " ++ toString bits

/-- A name that a statement refers to and no earlier one declares, or a type that is none. -/
inductive LoweringFault where
  | noActiveModule
  | unknownFunction (name : String)
  | unknownBlock (name : String)
  | unknownVariable (name : String)
  | unknownType (name : String)
  | pointerToVoid
  deriving DecidableEq, Repr

def LoweringFault.message : LoweringFault → String
  | noActiveModule => "no active module"
  | unknownFunction name => "unknown function @" ++ name
  | unknownBlock name => "unknown block '" ++ name ++ "'"
  | unknownVariable name => "unknown variable %" ++ name
  | unknownType name => "unknown type '" ++ name ++ "'"
  | pointerToVoid => "pointer to void"

inductive ScriptError where
  | lexer (text : String) (span : Span)
  | parser (fault : SyntaxFault) (span : Span)
  | lowering (fault : LoweringFault) (span : Span)
  | build (cause : BuildError) (span : Span)
  deriving DecidableEq, Repr

namespace ScriptError

def span : ScriptError → Span
  | lexer _ s | parser _ s | lowering _ s | build _ s => s

/-- What is wrong, without the place. -/
def detail : ScriptError → String
  | lexer text _ => "unexpected input '" ++ text ++ "'"
  | parser fault _ => fault.message
  | lowering fault _ => fault.message
  | build cause _ => cause.message

/-- The stage of a run that the error comes from. -/
def stage : ScriptError → String
  | lexer .. => "Lexer"
  | parser .. => "Parser"
  | lowering .. => "Lowering"
  | build .. => "Build"

def message (e : ScriptError) : String := e.stage ++ " error at " ++ e.span.text ++ ": " ++ e.detail

/-- The heading of the report on an error. -/
def title : ScriptError → String
  | lexer .. => "Lexer error"
  | parser .. => "Syntax error"
  | lowering .. => "Invalid action"
  | build .. => "Build error"

/-- The message followed by the error that caused it, if another one did. -/
def chain (e : ScriptError) : String :=
  match e with
  | build cause _ => e.message ++ ": " ++ cause.message
  | _ => e.message

end ScriptError
end StackAssembler.Script
