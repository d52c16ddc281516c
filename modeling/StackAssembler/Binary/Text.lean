import StackAssembler.Binary.Shortest

/-! How floating point constants are written. -/
namespace StackAssembler.Binary

/-- The limits of positional writing: a number whose leading digit stands for a power of ten from
`least` up to but not including `most` is written without an exponent. -/
structure PositionalRange where
  least : Int
  most : Int

/-- From a ten-thousandth up to ten to the sixteenth. -/
def constantRange : PositionalRange := ⟨-4, 16⟩

/-- Digits with a point, and with a zero on a side that has none. -/
def positional (digits : List Char) (k : Int) : List Char :=
  if k ≤ 0 then digits ++ List.replicate (-k).toNat '0' ++ ['.', '0']
  else
    let places := k.toNat
    if places < digits.length then
      digits.take (digits.length - places) ++ '.' :: digits.drop (digits.length - places)
    else '0' :: '.' :: List.replicate (places - digits.length) '0' ++ digits

/-- Digits with a point after the first, if there are more, and the power of ten. -/
def scientific (digits : List Char) (power : Int) : List Char :=
  let tail := (toString power).toList
  match digits with
  | [] => 'e' :: tail
  | [d] => d :: 'e' :: tail
  | d :: ds => d :: '.' :: ds ++ 'e' :: tail

/-- The shortest text of a 64-bit number that reads back as the same number. -/
def text (bits : UInt64) : String :=
  let m := magnitude bits
  if binary64.infinity < m then "NaN"
  else
    let body :=
      if m = binary64.infinity then ['i', 'n', 'f']
      else if m = 0 then ['0', '.', '0']
      else
        let (d, k) := shortestDigits m
        let digits := Nat.toDigits 10 d
        let power := (digits.length : Int) - 1 - k
        if constantRange.least ≤ power ∧ power < constantRange.most then positional digits k
        else scientific digits power
    String.ofList (if isNegative bits then '-' :: body else body)

end StackAssembler.Binary
