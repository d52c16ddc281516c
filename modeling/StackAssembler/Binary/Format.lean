/-! Binary floating point formats as bit patterns, and rounding to the nearest number of a format. -/
namespace StackAssembler.Binary

/-- A format with `precision` bits of significand, whose least positive number is `2 ^ minExponent`.
Patterns are the ones without a sign. -/
structure Format where
  precision : Nat
  minExponent : Int
  infinity : Nat

def binary64 : Format := ⟨53, -1074, 0x7ff0000000000000⟩

def binary32 : Format := ⟨24, -149, 0x7f800000⟩

/-- The significand and exponent that a finite pattern stands for. -/
def Format.decode (f : Format) (pattern : Nat) : Nat × Int :=
  let hidden := Nat.pow 2 (f.precision - 1)
  let biased := pattern / hidden
  if biased = 0 then (pattern, f.minExponent)
  else (pattern % hidden + hidden, f.minExponent + (biased - 1 : Nat))

/-- A ratio that equals `num / den * 2 ^ (-e)`. -/
def scaled (num den : Nat) (e : Int) : Nat × Nat :=
  if e < 0 then (num * Nat.pow 2 (-e).toNat, den) else (num, den * Nat.pow 2 e.toNat)

/-- The quotient rounded to the nearest integer, and to the even one of two that are equally near. -/
def nearestQuotient (num den : Nat) : Nat :=
  let q := num / den
  let twice := 2 * (num % den)
  if twice < den then q else if den < twice then q + 1 else q + q % 2

/-- The exponent that leaves `precision` bits before the point, and not less than the least one. -/
def Format.exponentFor (f : Format) (num den : Nat) : Int :=
  let guess : Int := Nat.log2 num - Nat.log2 den - (f.precision - 1 : Nat)
  let (n, d) := scaled num den guess
  max f.minExponent (if n / d < Nat.pow 2 (f.precision - 1) then guess - 1 else guess)

/-- The pattern nearest to `num / den`; ties go to the even pattern, too large numbers to infinity. -/
def Format.nearest (f : Format) (num den : Nat) : Nat :=
  if num = 0 then 0
  else
    let e := f.exponentFor num den
    let (n, d) := scaled num den e
    min f.infinity ((e - f.minExponent).toNat * Nat.pow 2 (f.precision - 1) + nearestQuotient n d)

/-- The pattern of a 64-bit number without its sign. -/
def magnitude (bits : UInt64) : Nat := bits.toNat % Nat.pow 2 63

def isNegative (bits : UInt64) : Bool := Nat.pow 2 63 ≤ bits.toNat

/-- A 64-bit number from its sign and its pattern. -/
def ofMagnitude (negative : Bool) (pattern : Nat) : UInt64 :=
  UInt64.ofNat (pattern + if negative then Nat.pow 2 63 else 0)

/-- The number with `digits` as its decimal digits, of which the last `places` stand after the point. -/
def ofDecimal (negative : Bool) (digits places : Nat) : UInt64 :=
  ofMagnitude negative (binary64.nearest digits (Nat.pow 10 places))

/-- The nearest number that 32 bits can hold, as a 64-bit number. A NaN becomes a quiet one and keeps
the part of its payload that fits. -/
def roundToSingle (bits : UInt64) : UInt64 :=
  let m := magnitude bits
  if binary64.infinity < m then ofMagnitude (isNegative bits) ((m ||| Nat.pow 2 51) / Nat.pow 2 29 * Nat.pow 2 29)
  else if m = binary64.infinity then bits
  else
    let (s, e) := binary64.decode m
    let single :=
      if e < 0 then binary32.nearest s (Nat.pow 2 (-e).toNat) else binary32.nearest (s * Nat.pow 2 e.toNat) 1
    if single = binary32.infinity then ofMagnitude (isNegative bits) binary64.infinity
    else
      let (s, e) := binary32.decode single
      ofMagnitude (isNegative bits)
        (if e < 0 then binary64.nearest s (Nat.pow 2 (-e).toNat) else binary64.nearest (s * Nat.pow 2 e.toNat) 1)

end StackAssembler.Binary
