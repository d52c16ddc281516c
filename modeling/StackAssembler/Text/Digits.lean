/-! Decimal digits. -/
namespace StackAssembler.Text

/-- The number that some decimal digits stand for. -/
def digitsValue (ds : List Char) : Nat := ds.foldl (fun n d => 10 * n + (d.toNat - '0'.toNat)) 0

end StackAssembler.Text
