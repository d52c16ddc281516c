import StackAssembler.Span
import StackAssembler.Build.Action

/-! Parsed scripts. -/
namespace StackAssembler.Script
open IR Build

/-- A base name and a number of stars behind it. -/
structure TypeExpr where
  base : String
  pointers : Nat
  span : Span
  deriving DecidableEq, Repr, Inhabited

inductive OperandExpr where
  | stack
  | var (name : String) (span : Span)
  | arg (index : Nat)
  | int (value : Int) (bits : Nat)
  /-- A number of a width, as the nearest 64-bit number. -/
  | float (value : UInt64) (bits : Nat)
  deriving DecidableEq, Repr, Inhabited

inductive TargetExpr where
  | named (name : String) (span : Span)
  | next (n : Nat)
  deriving DecidableEq, Repr, Inhabited

inductive Command where
  | module (name : String)
  | function (name : String) (result : TypeExpr) (params : List TypeExpr) (variadic : Bool)
  | use (name : String)
  | block (name : String)
  | setBlock (name : String)
  | alloc (type : TypeExpr) (name : Option String)
  | load (type : TypeExpr) (source : OperandExpr)
  | store (value dest : OperandExpr)
  | binary (op : BinaryOp) (lhs rhs : OperandExpr)
  | compare (pred : Predicate) (lhs rhs : OperandExpr)
  | cast (kind : Conversion) (value : OperandExpr) (type : TypeExpr)
  | phi (edges : List (OperandExpr × TargetExpr))
  | condBr (cond : OperandExpr) (onTrue onFalse : TargetExpr)
  | br (dest : TargetExpr)
  | call (callee : String) (args : List OperandExpr)
  | ret (value : Option OperandExpr)
  | push (value : OperandExpr)
  | pop (count : Nat)
  | keepStack
  | inspect
  | last
  deriving DecidableEq, Repr, Inhabited

structure Statement where
  command : Command
  span : Span
  deriving DecidableEq, Repr, Inhabited

/-- The words that statements start with. -/
inductive Keyword where
  | module | function | use | block | setBlock | alloc | load | store | cmp | phi | condbr | br | call
  | ret | push | pop | keepStack | inspect | last
  | binary (op : BinaryOp)
  | cast (kind : Conversion)
  deriving DecidableEq, Repr

namespace Keyword

def all : List Keyword :=
  [module, function, use, block, setBlock, alloc, load, store, cmp, phi, condbr, br, call, ret, push, pop,
    keepStack, inspect, last] ++ BinaryOp.all.map binary ++ Conversion.all.map cast

def word : Keyword → String
  | module => "module"
  | function => "function"
  | use => "use"
  | block => "block"
  | setBlock => "set_block"
  | alloc => "alloc"
  | load => "load"
  | store => "store"
  | cmp => "cmp"
  | phi => "phi"
  | condbr => "condbr"
  | br => "br"
  | call => "call"
  | ret => "ret"
  | push => "push"
  | pop => "pop"
  | keepStack => "keep_stack"
  | inspect => "inspect"
  | last => "last"
  | binary op => op.mnemonic
  | cast kind => kind.name

def ofWord? (s : String) : Option Keyword := all.find? (·.word = s)

end Keyword
end StackAssembler.Script
