import StackAssembler.Text.Digits
import StackAssembler.Script.Error
import StackAssembler.Script.Statement
import StackAssembler.Text.Pieces
import StackAssembler.Binary.Format

/-! The numbers that literals such as `-10_i8` and `1.5_f64` stand for. -/
namespace StackAssembler.Script.Literal

/-- The sign and the rest of a number. -/
def sign (cs : List Char) : Bool × List Char :=
  match cs with
  | '-' :: rest => (true, rest)
  | _ => (false, cs)

/-- The number before the last underscore, and the width that follows it behind one letter. The width has
to fit into 32 bits. -/
def split (text : String) : Except SyntaxFault (List Char × Nat) :=
  let (number, width) := Text.cutLast '_' text.toList
  let bits := Text.digitsValue (width.drop 1)
  if bits < Nat.pow 2 32 then .ok (number, bits) else .error (.invalidLiteral text)

def integerValue (cs : List Char) : Int :=
  let (negative, digits) := sign cs
  if negative then -(Text.digitsValue digits : Int) else Text.digitsValue digits

/-- An integer that fits into 128 bits with its sign, of a width from 1 to 128. -/
def integer (text : String) : Except SyntaxFault OperandExpr := do
  let (number, bits) ← split text
  let value := integerValue number
  if value < -(Nat.pow 2 127 : Int) ∨ (Nat.pow 2 127 : Int) ≤ value then throw (.integerOutOfRange text)
  else if bits = 0 ∨ 128 < bits then throw (.integerWidth bits)
  else return .int value bits

/-- The 64-bit number nearest to a decimal fraction. -/
def decimalBits (cs : List Char) : UInt64 :=
  let (negative, rest) := sign cs
  let (whole, places) := Text.cutFirst '.' rest
  Binary.ofDecimal negative (Text.digitsValue (whole ++ places)) places.length

/-- A decimal fraction of width 16, 32 or 64. -/
def float (text : String) : Except SyntaxFault OperandExpr := do
  let (number, bits) ← split text
  if bits = 16 ∨ bits = 32 ∨ bits = 64 then return .float (decimalBits number) bits
  else throw (.floatWidth bits)

end StackAssembler.Script.Literal
