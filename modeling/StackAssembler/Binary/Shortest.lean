import StackAssembler.Binary.Format

/-! The shortest decimal digits that name a 64-bit floating point number. -/
namespace StackAssembler.Binary

/-- The numbers nearer to `value` than to its neighbours, all over one denominator. The ends belong to
it when `closed` is set. -/
structure Cell where
  value : Nat
  below : Nat
  above : Nat
  den : Nat
  closed : Bool

/-- The cell of a positive finite pattern. Below a power of two the neighbour is nearer by half. -/
def cell (pattern : Nat) : Cell :=
  let (m, e) := binary64.decode pattern
  let (num, den) := scaled 1 4 (-e)
  let below := if m = Nat.pow 2 52 then 1 else 2
  ⟨4 * m * num, (4 * m - below) * num, (4 * m + 2) * num, den, m % 2 = 0⟩

namespace Cell

/-- Whether `num / scale` lies in the cell. -/
def contains (c : Cell) (num scale : Nat) : Bool :=
  let x := num * c.den
  if c.closed then c.below * scale ≤ x ∧ x ≤ c.above * scale
  else c.below * scale < x ∧ x < c.above * scale

/-- The number of digits before the point, at most one too many; negative for leading zeros after it. -/
def magnitudeGuess (c : Cell) : Int :=
  let bits : Int := (Nat.log2 c.value : Int) - Nat.log2 c.den
  (bits * 30103) / 100000 + 2

/-- Both sides of a ratio that equals `value * 10 ^ k`. -/
def shifted (c : Cell) (k : Int) : Nat × Nat :=
  if k < 0 then (c.value, c.den * Nat.pow 10 (-k).toNat) else (c.value * Nat.pow 10 k.toNat, c.den)

/-- Whether `digits * 10 ^ (-k)` lies in the cell. -/
def holds (c : Cell) (digits : Nat) (k : Int) : Bool :=
  if k < 0 then c.contains (digits * Nat.pow 10 (-k).toNat) 1 else c.contains digits (Nat.pow 10 k.toNat)

/-- The point of the decimal grid with step `10 ^ (-k)` that lies in the cell, the nearer one of two and
the upper one of two that are equally near. -/
def gridPoint? (c : Cell) (k : Int) : Option Nat :=
  let (num, den) := c.shifted k
  let q := num / den
  let low := c.holds q k
  let high := c.holds (q + 1) k
  if low && high then some (if 2 * (num % den) < den then q else q + 1)
  else if low then some q
  else if high then some (q + 1)
  else none

/-- The first grid with a point in the cell, starting at step `10 ^ (-k)` and getting finer. -/
def firstGrid (c : Cell) : Nat → Int → Nat × Int
  | 0, k => (0, k)
  | fuel + 1, k =>
    match c.gridPoint? k with
    | some d => if d = 0 then c.firstGrid fuel (k + 1) else (d, k)
    | none => c.firstGrid fuel (k + 1)

end Cell

/-- The digits of a positive finite pattern as a number `d`, and a `k` such that it reads `d * 10 ^ (-k)`. -/
def shortestDigits (pattern : Nat) : Nat × Int :=
  let c := cell pattern
  c.firstGrid 22 (-c.magnitudeGuess)

end StackAssembler.Binary
