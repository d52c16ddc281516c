import Mathlib.Algebra.Order.Ring.Int
import Mathlib.Tactic.Common
import StackAssembler.IR.Word

/-! Folding as it is done in registers of 128 bits: payloads are widened by shifts to the top and back, operations wrap,
quotients are checked, and a mask cuts the result off. It comes to the same as the operation on unbounded numbers. -/
namespace StackAssembler.IR.Register

/-- The two's complement reading of the low bits of a payload, in all bits of a register. -/
def signExtend (width : Nat) (raw : BitVec 128) : BitVec 128 :=
  if width = 0 ∨ 128 ≤ width then raw else (raw <<< (128 - width)).sshiftRight (128 - width)

/-- The low bits of a register. -/
def mask (width : Nat) (raw : BitVec 128) : BitVec 128 :=
  if 128 ≤ width then raw else raw &&& ((1#128 <<< width) - 1#128)

/-- A quotient or remainder of unsigned numbers, unless the divisor is zero. -/
def checked (f : BitVec 128 → BitVec 128 → BitVec 128) (a b : BitVec 128) : Option (BitVec 128) :=
  if b = 0 then none else some (f a b)

/-- A quotient or remainder of signed numbers, unless the divisor is zero or the quotient is too large. -/
def checkedSigned (f : BitVec 128 → BitVec 128 → BitVec 128) (a b : BitVec 128) : Option (BitVec 128) :=
  if b = 0 ∨ a = BitVec.intMin 128 ∧ b = -1 then none else some (f a b)

/-- The result of an integer operation, before it is masked. -/
def combine? (op : BinaryOp) (width : Nat) (a b : BitVec 128) : Option (BitVec 128) :=
  let sa := signExtend width a
  let sb := signExtend width b
  match op with
  | .add => some (a + b)
  | .sub => some (a - b)
  | .mul => some (a * b)
  | .udiv => checked BitVec.udiv a b
  | .urem => checked BitVec.umod a b
  | .sdiv => checkedSigned BitVec.sdiv sa sb
  | .srem => checkedSigned BitVec.srem sa sb
  | .shl => if b.toNat < width then some (a <<< b.toNat) else none
  | .lshr => if b.toNat < width then some (a >>> b.toNat) else none
  | .ashr => if b.toNat < width then some (sa.sshiftRight b.toNat) else none
  | .and => some (a &&& b)
  | .or => some (a ||| b)
  | .xor => some (a ^^^ b)
  | _ => none

/-! ### Widening and cutting off -/

theorem toNat_mask (width : Nat) (raw : BitVec 128) : (mask width raw).toNat = raw.toNat % 2 ^ min width 128 := by
  unfold mask
  split
  · next h => rw [Nat.min_eq_right h, Nat.mod_eq_of_lt raw.isLt]
  · next h =>
    have hlt : width < 128 := Nat.lt_of_not_le h
    have hpow : 2 ^ width < 2 ^ 128 := Nat.pow_lt_pow_right (by decide) hlt
    have hpos : 0 < 2 ^ width := Nat.two_pow_pos width
    have hone : (1#128 <<< width).toNat = 2 ^ width := by
      rw [BitVec.toNat_shiftLeft, BitVec.toNat_ofNat, Nat.shiftLeft_eq]
      exact (Nat.mod_eq_of_lt (by simpa using hpow)).trans (by simp)
    have hones : ((1#128 <<< width) - 1#128).toNat = 2 ^ width - 1 := by
      rw [BitVec.toNat_sub_of_le (by rw [BitVec.le_def, hone]; exact hpos), hone]
      rfl
    rw [BitVec.toNat_and, hones, Nat.and_two_pow_sub_one_eq_mod, Nat.min_eq_left (Nat.le_of_lt hlt)]

theorem toNat_mask_ofInt (width : Nat) (n : Int) : (mask width (BitVec.ofInt 128 n)).toNat = Word.truncate width n := by
  have hdvd : ((2 ^ min width 128 : Nat) : Int) ∣ (2 ^ 128 : Nat) :=
    Int.natCast_dvd_natCast.mpr (Nat.pow_dvd_pow 2 (Nat.min_le_right _ _))
  have hnonneg : 0 ≤ n % (2 ^ 128 : Nat) := Int.emod_nonneg _ (by decide)
  rw [toNat_mask, BitVec.toNat_ofInt, ← Int.toNat_natCast (2 ^ min width 128),
    ← Int.toNat_emod hnonneg (Int.natCast_nonneg _), Int.emod_emod_of_dvd n hdvd]
  rfl

/-- Readings scale with the numbers that are read. -/
theorem bmod_mul (x : Int) {k : Nat} (hk : 0 < k) (half : Nat) :
    Int.bmod (k * x) (k * (2 * half)) = k * Int.bmod x (2 * half) := by
  have hkpos : (0 : Int) < k := by exact_mod_cast hk
  have hmod : (k * x : Int) % (k * (2 * half) : Nat) = k * (x % (2 * half : Nat)) := by
    rw [Nat.cast_mul, Int.mul_emod_mul_of_pos _ _ hkpos]
  have hhalf : (((k * (2 * half) : Nat) : Int) + 1) / 2 = k * half := by
    have : k * (2 * half) = 2 * (k * half) := Nat.mul_left_comm ..
    omega
  have hhalf' : (((2 * half : Nat) : Int) + 1) / 2 = half := by omega
  rw [Int.bmod_def, Int.bmod_def, hmod, hhalf, hhalf']
  by_cases h : x % (2 * half : Nat) < half
  · rw [if_pos h, if_pos (Int.mul_lt_mul_of_pos_left h hkpos)]
  · have hge : ¬ (k * (x % (2 * half : Nat)) : Int) < k * half := by
      rwa [Int.mul_lt_mul_left hkpos]
    rw [if_neg h, if_neg hge, Int.mul_sub, Nat.cast_mul k]

/-- What is shifted to the top of a register reads as what it was, as far as it was shifted. -/
theorem bmod_shift (x : Int) {width bits : Nat} (hpos : 0 < width) (hle : width ≤ bits) :
    Int.bmod ((2 ^ (bits - width) : Nat) * x) (2 ^ bits) = (2 ^ (bits - width) : Nat) * Int.bmod x (2 ^ width) := by
  have hwidth : 2 ^ width = 2 * 2 ^ (width - 1) := by
    rw [← Nat.pow_succ']
    exact congrArg (2 ^ ·) (by omega)
  have hsplit : 2 ^ bits = 2 ^ (bits - width) * 2 ^ width := by
    rw [← Nat.pow_add, Nat.sub_add_cancel hle]
  rw [hsplit, hwidth, bmod_mul x (Nat.two_pow_pos _)]

theorem toInt_signExtend (width : Nat) {a : Nat} (ha : a < 2 ^ 128) :
    (signExtend width (BitVec.ofNat 128 a)).toInt = Word.signed width a := by
  unfold signExtend
  split
  · next h =>
    have hbits : (if width = 0 then Word.capacity else min width Word.capacity) = 128 := by
      unfold Word.capacity
      split <;> omega
    rw [Word.signed, hbits, BitVec.toInt_ofNat', Nat.pow_eq]
  · next h =>
    rw [not_or, Nat.not_le] at h
    have hbits : (if width = 0 then Word.capacity else min width Word.capacity) = width := by
      unfold Word.capacity
      rw [if_neg h.1]
      omega
    have hpos : ((2 ^ (128 - width) : Nat) : Int) ≠ 0 := Int.natCast_ne_zero.mpr (Nat.two_pow_pos _).ne'
    rw [BitVec.toInt_sshiftRight, BitVec.toInt_shiftLeft, BitVec.toNat_ofNat, Nat.mod_eq_of_lt ha, Nat.shiftLeft_eq,
      Nat.mul_comm, Nat.cast_mul, bmod_shift _ (Nat.pos_of_ne_zero h.1) (Nat.le_of_lt h.2), Int.shiftRight_eq_div_pow,
      Int.mul_ediv_cancel_left _ hpos, Word.signed, hbits, Nat.pow_eq]

/-! ### Operations -/

theorem checked_eq {f : BitVec 128 → BitVec 128 → BitVec 128} {a b n : Nat} (hb : b < 2 ^ 128)
    (hf : f (BitVec.ofNat 128 a) (BitVec.ofNat 128 b) = BitVec.ofNat 128 n) :
    checked f (BitVec.ofNat 128 a) (BitVec.ofNat 128 b) =
      (if b = 0 then none else some (n : Int)).map (BitVec.ofInt 128) := by
  have hzero : BitVec.ofNat 128 b = 0 ↔ b = 0 := by
    rw [← BitVec.toNat_inj, BitVec.toNat_ofNat, Nat.mod_eq_of_lt hb]
    rfl
  rw [checked, hf]
  by_cases h : b = 0
  · rw [if_pos h, if_pos (hzero.mpr h), Option.map_none]
  · rw [if_neg h, if_neg (hzero.not.mpr h), Option.map_some, BitVec.ofInt_natCast]

theorem checkedSigned_eq {f : BitVec 128 → BitVec 128 → BitVec 128} {x y : BitVec 128} {n : Int}
    (hf : f x y = BitVec.ofInt 128 n) :
    checkedSigned f x y = (if Word.divides x.toInt y.toInt then some n else none).map (BitVec.ofInt 128) := by
  have hzero : y = 0 ↔ y.toInt = 0 := by rw [← BitVec.toInt_inj]; rfl
  have hleast : x = BitVec.intMin 128 ↔ x.toInt = -(Nat.pow 2 (Word.capacity - 1) : Int) := by
    rw [← BitVec.toInt_inj, BitVec.toInt_intMin]
    rfl
  have hminus : y = -1 ↔ y.toInt = -1 := by rw [← BitVec.toInt_inj]; rfl
  have hdivides : Word.divides x.toInt y.toInt ↔ ¬ (y = 0 ∨ x = BitVec.intMin 128 ∧ y = -1) := by
    rw [hzero, hleast, hminus, not_or]
    exact decide_eq_true_iff
  rw [checkedSigned, hf]
  by_cases h : y = 0 ∨ x = BitVec.intMin 128 ∧ y = -1
  · rw [if_pos h, if_neg (hdivides.not.mpr (not_not_intro h)), Option.map_none]
  · rw [if_neg h, if_pos (hdivides.mpr h), Option.map_some]

/-- The operations in registers are those on the payloads and their readings, modulo the size of a register. -/
theorem combine?_eq (op : BinaryOp) (width : Nat) {a b : Nat} (ha : a < 2 ^ 128) (hb : b < 2 ^ 128) :
    combine? op width (BitVec.ofNat 128 a) (BitVec.ofNat 128 b) = (Word.combine? op width a b).map (BitVec.ofInt 128) := by
  have hatoNat : (BitVec.ofNat 128 a).toNat = a := by rw [BitVec.toNat_ofNat, Nat.mod_eq_of_lt ha]
  have hbtoNat : (BitVec.ofNat 128 b).toNat = b := by rw [BitVec.toNat_ofNat, Nat.mod_eq_of_lt hb]
  have shifted {x : BitVec 128} {n : Int} (h : x = BitVec.ofInt 128 n) :
      (if b < width then some x else none) = (if b < width then some n else none).map (BitVec.ofInt 128) := by
    split
    · rw [Option.map_some, h]
    · rfl
  cases op with
  | add => simp [combine?, Word.combine?, BitVec.ofInt_add]
  | sub => simp [combine?, Word.combine?, Int.sub_eq_add_neg, BitVec.ofInt_add, BitVec.ofInt_neg, BitVec.sub_eq_add_neg]
  | mul => simp [combine?, Word.combine?, BitVec.ofInt_mul]
  | udiv =>
    refine checked_eq hb (BitVec.eq_of_toNat_eq ?_)
    rw [BitVec.udiv_eq, BitVec.toNat_udiv, hatoNat, hbtoNat, BitVec.toNat_ofNat,
      Nat.mod_eq_of_lt (Nat.lt_of_le_of_lt (Nat.div_le_self a b) ha)]
  | urem =>
    refine checked_eq hb (BitVec.eq_of_toNat_eq ?_)
    rw [BitVec.umod_eq, BitVec.toNat_umod, hatoNat, hbtoNat, BitVec.toNat_ofNat,
      Nat.mod_eq_of_lt (Nat.lt_of_le_of_lt (Nat.mod_le a b) ha)]
  | sdiv =>
    rw [Word.combine?, ← toInt_signExtend width ha, ← toInt_signExtend width hb]
    refine checkedSigned_eq (BitVec.toInt_inj.mp ?_)
    rw [BitVec.toInt_sdiv, BitVec.toInt_ofInt]
  | srem =>
    rw [Word.combine?, ← toInt_signExtend width ha, ← toInt_signExtend width hb]
    refine checkedSigned_eq ?_
    rw [← BitVec.toInt_srem, BitVec.ofInt_toInt]
  | shl =>
    rw [combine?, hbtoNat, Word.combine?]
    refine shifted (BitVec.eq_of_toNat_eq ?_)
    rw [BitVec.ofInt_natCast, BitVec.toNat_shiftLeft, hatoNat, Nat.shiftLeft_eq, BitVec.toNat_ofNat]
    rfl
  | lshr =>
    rw [combine?, hbtoNat, Word.combine?]
    refine shifted (BitVec.eq_of_toNat_eq ?_)
    rw [BitVec.ofInt_natCast, BitVec.toNat_ushiftRight, hatoNat, Nat.shiftRight_eq_div_pow, BitVec.toNat_ofNat,
      Nat.pow_eq, Nat.mod_eq_of_lt (Nat.lt_of_le_of_lt (Nat.div_le_self a _) ha)]
  | ashr =>
    have hfloor (x : BitVec 128) : x.toInt.fdiv (Nat.pow 2 b) = (x.sshiftRight b).toInt := by
      rw [BitVec.toInt_sshiftRight, Int.shiftRight_eq_div_pow, Nat.pow_eq,
        Int.fdiv_eq_ediv_of_nonneg _ (Int.natCast_nonneg _)]
    rw [combine?, hbtoNat, Word.combine?, ← toInt_signExtend width ha, hfloor]
    exact shifted BitVec.ofInt_toInt.symm
  | and => rw [combine?, Word.combine?, Option.map_some, BitVec.ofInt_natCast, BitVec.ofNat_and]
  | or => rw [combine?, Word.combine?, Option.map_some, BitVec.ofInt_natCast, BitVec.ofNat_or]
  | xor => rw [combine?, Word.combine?, Option.map_some, BitVec.ofInt_natCast, BitVec.ofNat_xor]
  | fadd | fsub | fmul | fdiv | frem => rfl

end StackAssembler.IR.Register
