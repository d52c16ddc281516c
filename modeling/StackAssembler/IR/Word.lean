import StackAssembler.IR.Opcode

/-! Integer payloads: how a width cuts them off and how they read as signed numbers. A payload holds at
most 128 bits, also where a type is wider. -/
namespace StackAssembler.IR.Word

/-- The bits that a payload can hold. -/
def capacity : Nat := 128

/-- The payload of a number at a width: its low bits. -/
def truncate (width : Nat) (v : Int) : Nat := (v % Nat.pow 2 (min width capacity)).toNat

/-- The two's complement reading of a payload. Width zero and widths above the capacity read all of the
payload's bits. -/
def signed (width payload : Nat) : Int :=
  Int.bmod payload (Nat.pow 2 (if width = 0 then capacity else min width capacity))

/-- Whether a quotient of signed readings fits: the divisor is not zero, and the least payload is not
divided by minus one. -/
def divides (a b : Int) : Bool := b ≠ 0 ∧ ¬ (a = -(Nat.pow 2 (capacity - 1) : Int) ∧ b = -1)

/-- The result of an integer operation on two payloads of one width, before it is cut off. There is none
for a quotient that does not fit, nor for a shift by the width or more. -/
def combine? (op : BinaryOp) (width a b : Nat) : Option Int :=
  let sa := signed width a
  let sb := signed width b
  match op with
  | .add => some (a + b)
  | .sub => some (a - b)
  | .mul => some (a * b)
  | .udiv => if b = 0 then none else some (a / b : Nat)
  | .urem => if b = 0 then none else some (a % b : Nat)
  | .sdiv => if divides sa sb then some (sa.tdiv sb) else none
  | .srem => if divides sa sb then some (sa.tmod sb) else none
  | .shl => if b < width then some (a * Nat.pow 2 b : Nat) else none
  | .lshr => if b < width then some (a / Nat.pow 2 b : Nat) else none
  | .ashr => if b < width then some (sa.fdiv (Nat.pow 2 b)) else none
  | .and => some (a &&& b : Nat)
  | .or => some (a ||| b : Nat)
  | .xor => some (a ^^^ b : Nat)
  | _ => none

/-- Whether a comparison holds of two payloads of one width. -/
def compare (p : IntPredicate) (width a b : Nat) : Bool :=
  let sa := signed width a
  let sb := signed width b
  match p with
  | .eq => a = b
  | .ne => a ≠ b
  | .ugt => a > b
  | .uge => a ≥ b
  | .ult => a < b
  | .ule => a ≤ b
  | .sgt => sa > sb
  | .sge => sa ≥ sb
  | .slt => sa < sb
  | .sle => sa ≤ sb

end StackAssembler.IR.Word
