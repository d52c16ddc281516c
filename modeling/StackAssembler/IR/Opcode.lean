/-! The operation codes of the IR and their spellings. -/
namespace StackAssembler.IR

/-- Operations on two operands of one type. -/
inductive BinaryOp where
  | add | sub | mul | udiv | sdiv | urem | srem | shl | lshr | ashr | and | or | xor
  | fadd | fsub | fmul | fdiv | frem
  deriving DecidableEq, Repr, Inhabited

namespace BinaryOp

def all : List BinaryOp :=
  [add, sub, mul, udiv, sdiv, urem, srem, shl, lshr, ashr, and, or, xor, fadd, fsub, fmul, fdiv, frem]

def mnemonic : BinaryOp → String
  | add => "add"
  | sub => "sub"
  | mul => "mul"
  | udiv => "udiv"
  | sdiv => "sdiv"
  | urem => "urem"
  | srem => "srem"
  | shl => "shl"
  | lshr => "lshr"
  | ashr => "ashr"
  | and => "and"
  | or => "or"
  | xor => "xor"
  | fadd => "fadd"
  | fsub => "fsub"
  | fmul => "fmul"
  | fdiv => "fdiv"
  | frem => "frem"

def ofMnemonic? (s : String) : Option BinaryOp := all.find? (·.mnemonic = s)

/-- Whether the operands are floating point numbers. -/
def isFloat : BinaryOp → Bool
  | fadd | fsub | fmul | fdiv | frem => true
  | _ => false

def isCommutative : BinaryOp → Bool
  | add | mul | and | or | xor | fadd | fmul => true
  | _ => false

end BinaryOp

/-- Comparisons of integers and pointers. -/
inductive IntPredicate where
  | eq | ne | ugt | uge | ult | ule | sgt | sge | slt | sle
  deriving DecidableEq, Repr, Inhabited

namespace IntPredicate

def all : List IntPredicate := [eq, ne, ugt, uge, ult, ule, sgt, sge, slt, sle]

def keyword : IntPredicate → String
  | eq => "eq"
  | ne => "ne"
  | ugt => "ugt"
  | uge => "uge"
  | ult => "ult"
  | ule => "ule"
  | sgt => "sgt"
  | sge => "sge"
  | slt => "slt"
  | sle => "sle"

end IntPredicate

/-- Comparisons of floating point numbers: the ordered ones are false on a NaN, the unordered ones true. -/
inductive FloatPredicate where
  | oeq | ogt | oge | olt | ole | one | ord | uno | ueq | ugt | uge | ult | ule | une
  deriving DecidableEq, Repr, Inhabited

namespace FloatPredicate

def all : List FloatPredicate := [oeq, ogt, oge, olt, ole, one, ord, uno, ueq, ugt, uge, ult, ule, une]

def keyword : FloatPredicate → String
  | oeq => "oeq"
  | ogt => "ogt"
  | oge => "oge"
  | olt => "olt"
  | ole => "ole"
  | one => "one"
  | ord => "ord"
  | uno => "uno"
  | ueq => "ueq"
  | ugt => "ugt"
  | uge => "uge"
  | ult => "ult"
  | ule => "ule"
  | une => "une"

end FloatPredicate

/-- Any comparison. -/
inductive Predicate where
  | float (p : FloatPredicate)
  | int (p : IntPredicate)
  deriving DecidableEq, Repr, Inhabited

namespace Predicate

def all : List Predicate := FloatPredicate.all.map float ++ IntPredicate.all.map int

/-- The spelling inside a comparison instruction, which the operand types make unique. -/
def keyword : Predicate → String
  | float p => p.keyword
  | int p => p.keyword

/-- A name of its own for each predicate: the unordered float comparisons start with an `f`. -/
def name : Predicate → String
  | float .ueq => "fueq"
  | float .ugt => "fugt"
  | float .uge => "fuge"
  | float .ult => "fult"
  | float .ule => "fule"
  | float .une => "fune"
  | p => p.keyword

def ofName? (s : String) : Option Predicate := all.find? (·.name = s)

def isFloat : Predicate → Bool
  | float _ => true
  | int _ => false

end Predicate

/-- Conversions between types. -/
inductive CastOp where
  | bitcast | zext | trunc | fptoui | ptrtoint | inttoptr
  deriving DecidableEq, Repr, Inhabited

namespace CastOp

def all : List CastOp := [bitcast, zext, trunc, fptoui, ptrtoint, inttoptr]

def mnemonic : CastOp → String
  | bitcast => "bitcast"
  | zext => "zext"
  | trunc => "trunc"
  | fptoui => "fptoui"
  | ptrtoint => "ptrtoint"
  | inttoptr => "inttoptr"

def ofMnemonic? (s : String) : Option CastOp := all.find? (·.mnemonic = s)

end CastOp

/-- Who can see a function. -/
inductive Linkage where
  | external | internal | hidden
  deriving DecidableEq, Repr, Inhabited

/-- What is written in front of a function's result type. -/
def Linkage.keyword : Linkage → String
  | external => ""
  | internal => "internal "
  | hidden => "private "

end StackAssembler.IR
