import StackAssembler.Proofs.Lexis

/-! Numbers in decimal digits. What is written for a number is a run of digits that reads as the number, behind a minus
if it is negative. -/
namespace StackAssembler.Script.Lexeme
open Text

/-- The number that digits stand for, which is negative behind a minus. -/
def signedValue (negative : Bool) (ds : List Char) : Int := if negative then -(digitsValue ds : Int) else digitsValue ds

theorem isRun_toString (n : Nat) : IsRun Char.isDigit (toString n).toList := by
  rw [Nat.toString_eq_ofList_toDigits, String.toList_ofList]
  exact ⟨Nat.toDigits_ne_nil, fun c hc => Nat.isDigit_of_mem_toDigits (by decide) (by decide) hc⟩

theorem digitsValue_toString (n : Nat) : digitsValue (toString n).toList = n := by
  rw [Nat.toString_eq_ofList_toDigits, String.toList_ofList]
  exact Nat.ofDigitChars_ten_toDigits

theorem toList_toString_int (z : Int) :
    (toString z).toList = minus (decide (z < 0)) ++ (toString z.natAbs).toList := by
  obtain n | n := z
  · rfl
  · have hneg : Int.negSucc n < 0 := Int.negSucc_lt_zero n
    have htext : toString (Int.negSucc n) = "-" ++ toString (n + 1) := rfl
    rw [htext, String.toList_append, decide_eq_true hneg, Int.natAbs_negSucc]
    rfl

theorem signedValue_toString (z : Int) : signedValue (decide (z < 0)) (toString z.natAbs).toList = z := by
  rw [signedValue, digitsValue_toString]
  split
  · next h => rw [decide_eq_true_eq] at h; omega
  · next h => rw [decide_eq_true_eq] at h; omega

end StackAssembler.Script.Lexeme
