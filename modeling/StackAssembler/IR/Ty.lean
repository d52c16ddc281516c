/-! The types of the IR and their spelling. -/
namespace StackAssembler.IR

inductive FloatFormat where
  | half
  | single
  | double
  deriving DecidableEq, Repr, Inhabited

namespace FloatFormat

def bits : FloatFormat → Nat
  | half => 16
  | single => 32
  | double => 64

def name : FloatFormat → String
  | half => "half"
  | single => "float"
  | double => "double"

end FloatFormat

/-- A type. Equality is structural. -/
inductive Ty where
  | void
  | int (bits : Nat)
  | float (format : FloatFormat)
  | pointer (pointee : Ty) (space : Nat)
  | array (element : Ty) (length : Nat)
  | struct (fields : List Ty) (packed : Bool)
  | function (result : Ty) (params : List Ty) (variadic : Bool)
  deriving Repr, Inhabited

namespace Ty

mutual

private def decEqTy : (a b : Ty) → Decidable (a = b)
  | .void, .void => isTrue rfl
  | .int m, .int n => decidable_of_iff (m = n) (by simp)
  | .float f, .float g => decidable_of_iff (f = g) (by simp)
  | .pointer p s, .pointer q t =>
    have := decEqTy p q
    decidable_of_iff (p = q ∧ s = t) (by simp)
  | .array p s, .array q t =>
    have := decEqTy p q
    decidable_of_iff (p = q ∧ s = t) (by simp)
  | .struct ps s, .struct qs t =>
    have := decEqTys ps qs
    decidable_of_iff (ps = qs ∧ s = t) (by simp)
  | .function r ps s, .function r' qs t =>
    have := decEqTy r r'
    have := decEqTys ps qs
    decidable_of_iff (r = r' ∧ ps = qs ∧ s = t) (by simp)
  | .void, .int _ | .void, .float _ | .void, .pointer .. | .void, .array .. | .void, .struct ..
  | .void, .function .. | .int _, .void | .int _, .float _ | .int _, .pointer .. | .int _, .array ..
  | .int _, .struct .. | .int _, .function .. | .float _, .void | .float _, .int _
  | .float _, .pointer .. | .float _, .array .. | .float _, .struct .. | .float _, .function ..
  | .pointer .., .void | .pointer .., .int _ | .pointer .., .float _ | .pointer .., .array ..
  | .pointer .., .struct .. | .pointer .., .function .. | .array .., .void | .array .., .int _
  | .array .., .float _ | .array .., .pointer .. | .array .., .struct .. | .array .., .function ..
  | .struct .., .void | .struct .., .int _ | .struct .., .float _ | .struct .., .pointer ..
  | .struct .., .array .. | .struct .., .function .. | .function .., .void | .function .., .int _
  | .function .., .float _ | .function .., .pointer .. | .function .., .array ..
  | .function .., .struct .. => isFalse (by simp)

private def decEqTys : (as bs : List Ty) → Decidable (as = bs)
  | [], [] => isTrue rfl
  | a :: as, b :: bs =>
    have := decEqTy a b
    have := decEqTys as bs
    decidable_of_iff (a = b ∧ as = bs) (by simp)
  | [], _ :: _ | _ :: _, [] => isFalse (by simp)

end

instance : DecidableEq Ty := decEqTy

def isVoid : Ty → Bool
  | void => true
  | _ => false

def isInteger : Ty → Bool
  | int _ => true
  | _ => false

def isFloat : Ty → Bool
  | float _ => true
  | _ => false

def isPointer : Ty → Bool
  | pointer .. => true
  | _ => false

def isFunction : Ty → Bool
  | function .. => true
  | _ => false

/-- Whether values of the type can be operands. -/
def isFirstClass : Ty → Bool
  | void | function .. => false
  | _ => true

/-- The width of an integer type. -/
def width? : Ty → Option Nat
  | int bits => some bits
  | _ => none

def pointee? : Ty → Option Ty
  | pointer p _ => some p
  | _ => none

/-- The types that a type is directly made of. -/
def components : Ty → List Ty
  | pointer p _ => [p]
  | array e _ => [e]
  | struct fs _ => fs
  | function r ps _ => r :: ps
  | _ => []

/-- Commas between the items of a list. -/
def commas (items : List String) : String := ", ".intercalate items

mutual

/-- The spelling of a type in printed IR. -/
def name : Ty → String
  | void => "void"
  | int bits => "i" ++ toString bits
  | float f => f.name
  | pointer p space =>
    if space = 0 then p.name ++ "*" else p.name ++ " addrspace(" ++ toString space ++ ")*"
  | array e length => "[" ++ toString length ++ " x " ++ e.name ++ "]"
  | struct fs packed =>
    if packed then "<\x7b " ++ commas (names fs) ++ " \x7d>"
    else "\x7b " ++ commas (names fs) ++ " \x7d"
  | function r ps variadic =>
    r.name ++ " (" ++ commas (names ps ++ if variadic then ["..."] else []) ++ ")"

/-- The spelling of each type of a list. -/
def names : List Ty → List String
  | [] => []
  | t :: ts => t.name :: names ts

end

/-- A compact spelling: each pointer adds a `p`, so `i32**` becomes `i32pp`. -/
def shortName : Ty → String
  | pointer p _ => p.shortName ++ "p"
  | t => t.name

end Ty
end StackAssembler.IR
