import Mathlib.Data.Int.ModEq
import Mathlib.Data.Rat.Floor
import StackAssembler.Proofs.Constants
import StackAssembler.Proofs.Registers

/-! Arithmetic on integer constants comes to the constants that it ought to come to. -/
namespace StackAssembler.IR

/-! ### What operations come to -/

/-- What an integer operation on two payloads of a width comes to, as a number without bounds. Signed readings are two's
complement, quotients go towards zero, and shifts to the right round down. -/
inductive Denotes (width a b : Nat) : BinaryOp → Int → Prop
  | add : Denotes width a b .add (a + b)
  | sub : Denotes width a b .sub (a - b)
  | mul : Denotes width a b .mul (a * b)
  | udiv : b ≠ 0 → Denotes width a b .udiv (a / b : Nat)
  | urem : b ≠ 0 → Denotes width a b .urem (a % b : Nat)
  | sdiv : b ≠ 0 → Denotes width a b .sdiv ((BitVec.ofNat width a).toInt.tdiv (BitVec.ofNat width b).toInt)
  | srem : b ≠ 0 → Denotes width a b .srem ((BitVec.ofNat width a).toInt.tmod (BitVec.ofNat width b).toInt)
  | shl : b < width → Denotes width a b .shl (a * 2 ^ b)
  | lshr : b < width → Denotes width a b .lshr ⌊(a : ℚ) / 2 ^ b⌋
  | ashr : b < width → Denotes width a b .ashr ⌊((BitVec.ofNat width a).toInt : ℚ) / 2 ^ b⌋
  | and : Denotes width a b .and (BitVec.ofNat width a &&& BitVec.ofNat width b).toNat
  | or : Denotes width a b .or (BitVec.ofNat width a ||| BitVec.ofNat width b).toNat
  | xor : Denotes width a b .xor (BitVec.ofNat width a ^^^ BitVec.ofNat width b).toNat

/-- Nothing is divided by zero or shifted by the width or more. -/
theorem Denotes.domain {width a b : Nat} {op : BinaryOp} {n : Int} (h : Denotes width a b op n) :
    (op ∈ [BinaryOp.udiv, .urem, .sdiv, .srem] → b ≠ 0) ∧ (op ∈ [BinaryOp.shl, .lshr, .ashr] → b < width) := by
  cases h <;> simp [*]

/-- The quotient that does not fit into a register, and the remainder that goes with it. -/
def Overflows (width a b : Nat) (op : BinaryOp) : Prop :=
  (op = .sdiv ∨ op = .srem) ∧ width = 128 ∧ a = 2 ^ 127 ∧ b = 2 ^ 128 - 1

namespace Word
variable {width a b : Nat}

theorem signed_eq_toInt (hpos : 1 ≤ width) (hle : width ≤ capacity) : signed width a = (BitVec.ofNat width a).toInt := by
  have hbits : (if width = 0 then capacity else min width capacity) = width := by
    rw [if_neg (by omega)]
    omega
  rw [signed, hbits, BitVec.toInt_ofNat', Nat.pow_eq]

theorem toInt_eq_iff (ha : a < 2 ^ width) (hb : b < 2 ^ width) :
    (BitVec.ofNat width a).toInt = (BitVec.ofNat width b).toInt ↔ a = b := by
  rw [BitVec.toInt_inj, ← BitVec.toNat_inj, BitVec.toNat_ofNat, BitVec.toNat_ofNat, Nat.mod_eq_of_lt ha,
    Nat.mod_eq_of_lt hb]

theorem toInt_eq_zero_iff (hb : b < 2 ^ width) : (BitVec.ofNat width b).toInt = 0 ↔ b = 0 := by
  rw [← toInt_eq_iff hb (Nat.two_pow_pos width), BitVec.toInt_zero]

theorem toInt_eq_neg_one_iff (hpos : 1 ≤ width) (hb : b < 2 ^ width) :
    (BitVec.ofNat width b).toInt = -1 ↔ b = 2 ^ width - 1 := by
  have hpow := Nat.two_pow_pos width
  have hones : (BitVec.ofNat width (2 ^ width - 1)).toInt = -1 := by
    have hall : BitVec.ofNat width (2 ^ width - 1) = BitVec.allOnes width := by
      rw [← BitVec.toNat_inj, BitVec.toNat_ofNat, BitVec.toNat_allOnes, Nat.mod_eq_of_lt (by omega)]
    rw [hall, BitVec.toInt_allOnes]
    exact if_pos hpos
  rw [← toInt_eq_iff hb (by omega), hones]

theorem toInt_eq_least_iff (hpos : 1 ≤ width) (hle : width ≤ 128) (ha : a < 2 ^ width) :
    (BitVec.ofNat width a).toInt = -2 ^ 127 ↔ width = 128 ∧ a = 2 ^ 127 := by
  have hleast : (BitVec.ofNat 128 (2 ^ 127)).toInt = -2 ^ 127 := by decide
  constructor
  · intro h
    obtain rfl : width = 128 := by
      have hbound := BitVec.le_toInt (BitVec.ofNat width a)
      by_contra hne
      have hlt : (2 : Int) ^ (width - 1) < 2 ^ 127 := pow_lt_pow_right₀ (by decide) (by omega)
      omega
    exact ⟨rfl, (toInt_eq_iff ha (by decide)).mp (h.trans hleast.symm)⟩
  · rintro ⟨rfl, rfl⟩
    exact hleast

theorem divides_iff (hpos : 1 ≤ width) (hle : width ≤ capacity) (ha : a < 2 ^ width) (hb : b < 2 ^ width) :
    divides (signed width a) (signed width b) ↔ b ≠ 0 ∧ ¬ (width = 128 ∧ a = 2 ^ 127 ∧ b = 2 ^ 128 - 1) := by
  have hleast : -(Nat.pow 2 (capacity - 1) : Int) = -2 ^ 127 := by decide
  have hlast : (width = 128 ∧ a = 2 ^ 127) ∧ b = 2 ^ width - 1 ↔ width = 128 ∧ a = 2 ^ 127 ∧ b = 2 ^ 128 - 1 := by
    rw [and_assoc]
    refine and_congr_right ?_
    rintro rfl
    rfl
  rw [divides, decide_eq_true_iff, signed_eq_toInt hpos hle, signed_eq_toInt hpos hle, ne_eq, toInt_eq_zero_iff hb,
    hleast, toInt_eq_least_iff hpos hle ha, toInt_eq_neg_one_iff hpos hb, hlast]

theorem floor_natCast_div (a b : Nat) : ⌊(a : ℚ) / 2 ^ b⌋ = (a / 2 ^ b : Nat) := by
  have h := Rat.floor_intCast_div_natCast a (2 ^ b)
  push_cast at h ⊢
  exact h

theorem floor_intCast_div (x : Int) (b : Nat) : ⌊(x : ℚ) / 2 ^ b⌋ = x.fdiv (Nat.pow 2 b) := by
  have h := Rat.floor_intCast_div_natCast x (2 ^ b)
  rw [Int.fdiv_eq_ediv_of_nonneg _ (Int.natCast_nonneg _)]
  push_cast at h ⊢
  exact h

section
variable (hpos : 1 ≤ width) (hle : width ≤ capacity) (ha : a < 2 ^ width) (hb : b < 2 ^ width) {op : BinaryOp} {n : Int}
include hpos hle ha hb

theorem combine?_of_denotes (h : Denotes width a b op n) (hfits : ¬ Overflows width a b op) :
    combine? op width a b = some n := by
  have hatoNat : (BitVec.ofNat width a).toNat = a := by rw [BitVec.toNat_ofNat, Nat.mod_eq_of_lt ha]
  have hbtoNat : (BitVec.ofNat width b).toNat = b := by rw [BitVec.toNat_ofNat, Nat.mod_eq_of_lt hb]
  have quotient (hop : op = .sdiv ∨ op = .srem) (hzero : b ≠ 0) : divides (signed width a) (signed width b) :=
    (divides_iff hpos hle ha hb).mpr ⟨hzero, fun h => hfits ⟨hop, h⟩⟩
  cases h with
  | add | sub | mul => rfl
  | udiv hzero | urem hzero => exact if_neg hzero
  | sdiv hzero => rw [combine?, if_pos (quotient (.inl rfl) hzero), signed_eq_toInt hpos hle, signed_eq_toInt hpos hle]
  | srem hzero => rw [combine?, if_pos (quotient (.inr rfl) hzero), signed_eq_toInt hpos hle, signed_eq_toInt hpos hle]
  | shl hlt =>
    rw [combine?, if_pos hlt, Nat.pow_eq]
    push_cast
    rfl
  | lshr hlt => rw [combine?, if_pos hlt, floor_natCast_div, Nat.pow_eq]
  | ashr hlt => rw [combine?, if_pos hlt, floor_intCast_div, signed_eq_toInt hpos hle]
  | and => rw [combine?, BitVec.toNat_and, hatoNat, hbtoNat]
  | or => rw [combine?, BitVec.toNat_or, hatoNat, hbtoNat]
  | xor => rw [combine?, BitVec.toNat_xor, hatoNat, hbtoNat]

/-- There is no result but the one that the operation comes to. -/
theorem denotes_of_combine? (h : combine? op width a b = some n) :
    Denotes width a b op n ∧ ¬ Overflows width a b op := by
  have result {m : Int} (hm : Denotes width a b op m) (hfits : ¬ Overflows width a b op) :
      Denotes width a b op n ∧ ¬ Overflows width a b op := by
    obtain rfl := Option.some.inj (h.symm.trans (combine?_of_denotes hpos hle ha hb hm hfits))
    exact ⟨hm, hfits⟩
  have nonzero (hop : op = .udiv ∨ op = .urem) : b ≠ 0 := by
    rintro rfl
    rcases hop with rfl | rfl <;> cases h
  have quotient (hop : op = .sdiv ∨ op = .srem) : b ≠ 0 ∧ ¬ Overflows width a b op := by
    have hdivides : divides (signed width a) (signed width b) := by
      by_contra hnot
      rcases hop with rfl | rfl <;> rw [combine?, if_neg hnot] at h <;> cases h
    obtain ⟨hzero, hfits⟩ := (divides_iff hpos hle ha hb).mp hdivides
    exact ⟨hzero, fun h => hfits h.2⟩
  have amount (hop : op = .shl ∨ op = .lshr ∨ op = .ashr) : b < width := by
    by_contra hnot
    rcases hop with rfl | rfl | rfl <;> rw [combine?, if_neg hnot] at h <;> cases h
  cases op with
  | add => exact result .add (by simp [Overflows])
  | sub => exact result .sub (by simp [Overflows])
  | mul => exact result .mul (by simp [Overflows])
  | udiv => exact result (.udiv (nonzero (.inl rfl))) (by simp [Overflows])
  | urem => exact result (.urem (nonzero (.inr rfl))) (by simp [Overflows])
  | sdiv => exact result (.sdiv (quotient (.inl rfl)).1) (quotient (.inl rfl)).2
  | srem => exact result (.srem (quotient (.inr rfl)).1) (quotient (.inr rfl)).2
  | shl => exact result (.shl (amount (.inl rfl))) (by simp [Overflows])
  | lshr => exact result (.lshr (amount (.inr (.inl rfl)))) (by simp [Overflows])
  | ashr => exact result (.ashr (amount (.inr (.inr rfl)))) (by simp [Overflows])
  | and => exact result .and (by simp [Overflows])
  | or => exact result .or (by simp [Overflows])
  | xor => exact result .xor (by simp [Overflows])
  | fadd | fsub | fmul | fdiv | frem => cases h

end

/-! ### Payloads -/

theorem truncate_lt (width : Nat) (n : Int) : truncate width n < 2 ^ width := by
  obtain ⟨_, h, hlt⟩ := Constant.fits_truncate width n
  obtain rfl := Ty.int.inj h
  exact hlt.trans_le (Nat.pow_le_pow_right (by decide) (Nat.min_le_left _ _))

/-- A payload agrees with the number that it is cut off from. -/
theorem truncate_modEq (hle : width ≤ capacity) (n : Int) : (truncate width n : Int) ≡ n [ZMOD 2 ^ width] := by
  have hpos : (0 : Int) < 2 ^ width := by positivity
  have hbits : ((Nat.pow 2 (min width capacity) : Nat) : Int) = 2 ^ width := by
    rw [Nat.min_eq_left hle, Nat.pow_eq]
    push_cast
    rfl
  rw [truncate, hbits, Int.toNat_of_nonneg (Int.emod_nonneg _ hpos.ne')]
  exact Int.mod_modEq n _

/-- What fits a width fits all that are not smaller. -/
theorem truncate_of_lt {s : Nat} (ha : a < 2 ^ s) (hcapacity : a < 2 ^ 128) (hle : s ≤ width) : truncate width a = a := by
  rw [truncate_natCast hcapacity]
  exact Nat.mod_eq_of_lt (ha.trans_le (Nat.pow_le_pow_right (by decide) hle))

end Word

/-! ### Constants as answers -/

namespace Context
variable {ctx ctx' : Context}

/-- A run answers with the one constant of a type and content, and does nothing but to add it where there is none. -/
def AnswersConstant (ctx : Context) (r : EStateM.Result IrError Context ValueId) (t : Ty) (c : Constant) : Prop :=
  ∃ v ctx', r = .ok v ctx' ∧ ctx'.HasConstant v t c ∧ (∀ w, ctx'.HasConstant w t c → w = v) ∧
    (ctx'.values = ctx.values ∨ ctx'.values = ctx.values.push ⟨t, none, .constant c⟩) ∧
    { ctx' with values := ctx.values } = ctx

theorem answersConstant (hc : Canonical ctx) {t : Ty} {c : Constant} (hfits : c.Fits t) :
    ctx.AnswersConstant (.ok (ctx.constant t c).1 (ctx.constant t c).2) t c := by
  have hlater := hc.evolve (Evolves.constant hfits).1
  have hnew := ctx.hasConstant_constant t c
  refine ⟨_, _, rfl, hnew, fun w hw => hlater.unique w _ t c hw hnew, ?_⟩
  rcases ctx.constant_cases t c with ⟨hctx, -⟩ | hadded
  · exact ⟨.inl (by rw [hctx]), by rw [hctx]⟩
  · exact ⟨.inr (by rw [hadded]), by rw [hadded]⟩

theorem HasConstant.payload? {v : ValueId} {t : Ty} {n : Nat} (h : ctx.HasConstant v t (.int n)) :
    ctx.payload? v = some n := by
  rw [Context.payload?, h.kind]

end Context

namespace Emitter
variable {ctx : Context} {at? : Option BlockId}

section
variable {op : BinaryOp} (hop : op.isFloat = false) {l r : ValueId} {width a b : Nat} (hle : width ≤ Word.capacity)
  (hl : ctx.HasConstant l (.int width) (.int a)) (hr : ctx.HasConstant r (.int width) (.int b))
include hop hle hl hr

private theorem binary_constants :
    binary at? op l r ctx =
      (match Word.combine? op width a b with
        | some n => Edit.integerOf (.int width) n
        | none => append at? (.binary op l r) (.int width) none) ctx := by
  have hfold : foldBinary? ctx op l r = Word.combine? op width a b := by
    rw [foldBinary?, hl.payload?, hr.payload?, hl.type]
    exact if_neg (Nat.not_lt.mpr hle)
  have hkind : (if op.isFloat then (Ty.int width).isFloat else (Ty.int width).isInteger) = true := by
    rw [hop]
    rfl
  rw [binary, get_bind, hl.type, expect_bind, if_pos hr.type, if_pos hkind, get_bind]
  cases hn : Word.combine? op width a b <;> rw [hfold, hn]

/-- An operation on constants asks for the constant that it comes to. -/
theorem binary_folds {n : Int} (hn : Word.combine? op width a b = some n) :
    binary at? op l r ctx = .ok (ctx.constant (.int width) (.int (Word.truncate width n))).1
      (ctx.constant (.int width) (.int (Word.truncate width n))).2 := by
  rw [binary_constants hop hle hl hr, hn]
  rfl

/-- One that comes to none is written. -/
theorem binary_writes (hn : Word.combine? op width a b = none) :
    binary at? op l r ctx = append at? (.binary op l r) (.int width) none ctx := by
  rw [binary_constants hop hle hl hr, hn]

end

theorem append_instruction {op : Operation} {t : Ty} {name : Option String} {v : ValueId} {ctx' : Context}
    (h : append at? op t name ctx = .ok v ctx') : ∃ b, (ctx'.value v).kind = .instruction op b := by
  obtain ⟨b, -, -, rfl, rfl⟩ := append_ok h
  exact ⟨b, by rw [Context.value, Context.addInstruction, Context.addValue, getD_push, if_pos rfl]⟩

/-- A change of width of a constant asks for the constant of the new width. -/
theorem cast_constant {op : CastOp} (hop : op = .zext ∨ op = .trunc) {v : ValueId} {s t a : Nat}
    (hv : ctx.HasConstant v (.int s) (.int a)) (hlegal : isLegal ctx.layout op (.int s) (.int t)) :
    cast at? op v (.int t) ctx = .ok (ctx.constant (.int t) (.int (Word.truncate t a))).1
      (ctx.constant (.int t) (.int (Word.truncate t a))).2 := by
  have hfold : foldCast? ctx op v = some a := by
    rcases hop with rfl | rfl <;> exact hv.payload?
  have hbits : ¬ (op = .bitcast ∧ Ty.int s = .int t) := by
    rintro ⟨rfl, -⟩
    rcases hop with h | h <;> cases h
  rw [cast, get_bind, hv.type, if_pos hlegal, if_neg hbits, hfold]
  rfl

/-- Widening a constant and cutting it off again leads back to it. -/
theorem zext_trunc (hc : Canonical ctx) {v : ValueId} {s t a : Nat} (hv : ctx.HasConstant v (.int s) (.int a)) (hlt : s < t)
    (at₁ at₂ : Option BlockId) : ∃ w ctx', cast at₁ .zext v (.int t) ctx = .ok w ctx' ∧
      cast at₂ .trunc w (.int s) ctx' = .ok v ctx' := by
  obtain ⟨hfits, hcapacity⟩ := hc.payload_lt hv
  have hsame : Word.truncate t a = a := Word.truncate_of_lt hfits hcapacity hlt.le
  have hevolves : Evolves ctx (ctx.constant (.int t) (.int a)).2 :=
    (Evolves.constant (hsame ▸ Constant.fits_truncate t a)).1
  have hzext : cast at₁ .zext v (.int t) ctx = _ := cast_constant (.inl rfl) hv (decide_eq_true hlt)
  have htrunc : cast at₂ .trunc (ctx.constant (.int t) (.int a)).1 (.int s) (ctx.constant (.int t) (.int a)).2 = _ :=
    cast_constant (.inr rfl) (ctx.hasConstant_constant _ _) (decide_eq_true hlt)
  rw [hsame] at hzext
  rw [Word.truncate_of_lt hfits hcapacity le_rfl,
    Context.constant_of_hasConstant (hc.evolve hevolves) (hv.later hevolves.keeps)] at htrunc
  exact ⟨_, _, hzext, htrunc⟩

end Emitter
end StackAssembler.IR

namespace StackAssembler.Build
open IR

/-- Integer operations on constants that are answered by a constant come to the one constant that agrees with the result
modulo the size of the type, as registers of 128 bits find it, and write no instruction. This is so for each operation
that comes to anything, but for the quotient and the remainder that are too large for a register. Nothing is
divided by zero or shifted by the width or more. Constants whose width is changed come to the one constant of the new
width that agrees in the low bits. Widening and cutting off again leads back. -/
theorem Reachable.folds {m : Machine} (h : Reachable m) :
    (∀ (at? : Option BlockId) (op : BinaryOp) (width a b : Nat) (l r : ValueId), op.isFloat = false →
      1 ≤ width → width ≤ 128 → m.context.HasConstant l (.int width) (.int a) →
      m.context.HasConstant r (.int width) (.int b) →
      (∀ v ctx' t c, Emitter.binary at? op l r m.context = .ok v ctx' → ctx'.HasConstant v t c →
        ∃ (n : Int) (payload : Nat) (raw : BitVec 128), Denotes width a b op n ∧
          payload < 2 ^ width ∧ (payload : Int) ≡ n [ZMOD 2 ^ width] ∧
          Register.combine? op width (BitVec.ofNat 128 a) (BitVec.ofNat 128 b) = some raw ∧
          payload = (Register.mask width raw).toNat ∧ t = .int width ∧ c = .int payload ∧
          m.context.AnswersConstant (Emitter.binary at? op l r m.context) t c) ∧
      (∀ n : Int, Denotes width a b op n → ¬ Overflows width a b op →
        ∃ c, m.context.AnswersConstant (Emitter.binary at? op l r m.context) (.int width) c) ∧
      (b = 0 ∧ op ∈ [BinaryOp.udiv, .urem, .sdiv, .srem] ∨ width ≤ b ∧ op ∈ [BinaryOp.shl, .lshr, .ashr] →
        ∀ v ctx', Emitter.binary at? op l r m.context = .ok v ctx' →
          ∃ block, (ctx'.value v).kind = .instruction (.binary op l r) block)) ∧
    (∀ (at? : Option BlockId) (op : CastOp) (v : ValueId) (s t : Ty) (a : Nat), op = .zext ∨ op = .trunc →
      m.context.HasConstant v s (.int a) → Emitter.isLegal m.context.layout op s t →
      ∃ width, t = .int width ∧ m.context.AnswersConstant (Emitter.cast at? op v t m.context) t (.int (a % 2 ^ width))) ∧
    ∀ (at₁ at₂ : Option BlockId) (v : ValueId) (s t a : Nat), m.context.HasConstant v (.int s) (.int a) → s < t →
      ∃ w ctx', Emitter.cast at₁ .zext v (.int t) m.context = .ok w ctx' ∧
        Emitter.cast at₂ .trunc w (.int s) ctx' = .ok v ctx' := by
  have hc := h.canonical
  have answers (width : Nat) (n : Int) := Context.answersConstant hc (Constant.fits_truncate width n)
  refine ⟨fun at? op width a b l r hop hpos hle hl hr => ⟨fun v ctx' t c hrun hconst => ?_, fun n hn hfits => ?_,
    fun hnone v ctx' hrun => ?_⟩, fun at? op v s t a hop hv hlegal => ?_, fun at₁ at₂ v s t a hv hlt => ?_⟩
  · obtain ⟨⟨ha, ha'⟩, hb, hb'⟩ := And.intro (hc.payload_lt hl) (hc.payload_lt hr)
    cases hn : Word.combine? op width a b with
    | none =>
      rw [Emitter.binary_writes hop hle hl hr hn] at hrun
      obtain ⟨block, hkind⟩ := Emitter.append_instruction hrun
      cases hkind.symm.trans hconst.kind
    | some n =>
      have hfolds : Emitter.binary at? op l r m.context = _ := Emitter.binary_folds hop hle hl hr hn
      have hfound := Context.hasConstant_constant m.context (.int width) (.int (Word.truncate width n))
      obtain ⟨hv, hctx⟩ := EStateM.Result.ok.inj (hfolds.symm.trans hrun)
      rw [hv, hctx] at hfound
      obtain rfl : t = .int width := hconst.type.symm.trans hfound.type
      obtain rfl : c = .int (Word.truncate width n) := ValueKind.constant.inj (hconst.kind.symm.trans hfound.kind)
      have hregister : Register.combine? op width (BitVec.ofNat 128 a) (BitVec.ofNat 128 b) = some (BitVec.ofInt 128 n) := by
        rw [Register.combine?_eq op width ha' hb', hn, Option.map_some]
      refine ⟨n, _, _, (Word.denotes_of_combine? hpos hle ha hb hn).1, Word.truncate_lt width n,
        Word.truncate_modEq hle n, hregister, (Register.toNat_mask_ofInt width n).symm, rfl, rfl, ?_⟩
      rw [hfolds]
      exact answers width n
  · have hcomes := Word.combine?_of_denotes hpos hle (hc.payload_lt hl).1 (hc.payload_lt hr).1 hn hfits
    rw [Emitter.binary_folds hop hle hl hr hcomes]
    exact ⟨_, answers width n⟩
  · cases hn : Word.combine? op width a b with
    | none =>
      rw [Emitter.binary_writes hop hle hl hr hn] at hrun
      exact Emitter.append_instruction hrun
    | some n =>
      have hdomain := (Word.denotes_of_combine? hpos hle (hc.payload_lt hl).1 (hc.payload_lt hr).1 hn).1.domain
      rcases hnone with ⟨hzero, hop⟩ | ⟨hge, hop⟩
      · exact absurd hzero (hdomain.1 hop)
      · exact absurd (hdomain.2 hop) (Nat.not_lt.mpr hge)
  · obtain ⟨s, rfl, -⟩ := hc.fits v _ _ hv
    obtain ⟨t, rfl⟩ : ∃ width, t = .int width := by
      rcases hop with rfl | rfl <;> cases t <;> first | exact ⟨_, rfl⟩ | cases hlegal
    refine ⟨t, rfl, ?_⟩
    rw [Emitter.cast_constant hop hv hlegal, ← Word.truncate_natCast (hc.payload_lt hv).2]
    exact answers t a
  · exact Emitter.zext_trunc hc hv hlt at₁ at₂

/-- The machine that was asked for a byte, at the start of another block. -/
def Machine.byteInBlock : Machine := Machine.byte.runAll [.perform (.createBlock "next")]

theorem Reachable.byteInBlock : Reachable Machine.byteInBlock :=
  (Reachable.double.later (.integer Machine.double 8 300)).later (.of_permits _ (by decide +kernel))

/-- The square of 44 is 144 in a byte, and a byte is not shifted by 44. -/
theorem Reachable.folds_byte :
    (∀ v ctx' payload, Emitter.binary none .mul ⟨7⟩ ⟨7⟩ Machine.byteInBlock.context = .ok v ctx' →
      ctx'.HasConstant v (.int 8) (.int payload) → payload = 144) ∧
    (∃ c, Machine.byteInBlock.context.AnswersConstant
      (Emitter.binary none .mul ⟨7⟩ ⟨7⟩ Machine.byteInBlock.context) (.int 8) c) ∧
    (∃ v ctx' block, Emitter.binary (some ⟨1⟩) .shl ⟨7⟩ ⟨7⟩ Machine.byteInBlock.context = .ok v ctx' ∧
      (ctx'.value v).kind = .instruction (.binary .shl ⟨7⟩ ⟨7⟩) block) ∧
    Machine.byteInBlock.context.AnswersConstant
      (Emitter.cast none .trunc ⟨7⟩ (.int 4) Machine.byteInBlock.context) (.int 4) (.int 12) ∧
    ∃ w ctx', Emitter.cast none .zext ⟨7⟩ (.int 200) Machine.byteInBlock.context = .ok w ctx' ∧
      Emitter.cast none .trunc w (.int 8) ctx' = .ok ⟨7⟩ ctx' := by
  have hv : Machine.byteInBlock.context.HasConstant ⟨7⟩ (.int 8) (.int 44) :=
    ⟨by decide +kernel, by decide +kernel, by decide +kernel⟩
  obtain ⟨hbinary, hcast, hback⟩ := Reachable.byteInBlock.folds
  obtain ⟨hpayload, hfolds, -⟩ := hbinary none .mul 8 44 44 ⟨7⟩ ⟨7⟩ rfl (by decide) (by decide) hv hv
  obtain ⟨-, -, hwritten⟩ := hbinary (some ⟨1⟩) .shl 8 44 44 ⟨7⟩ ⟨7⟩ rfl (by decide) (by decide) hv hv
  refine ⟨fun v ctx' payload hrun hconst => ?_, hfolds _ .mul (by simp [Overflows]), ?_, ?_,
    hback none none ⟨7⟩ 8 200 44 hv (by decide)⟩
  · obtain ⟨n, p, raw, hn, hlt, hmod, -, -, -, hp, -⟩ := hpayload v ctx' _ _ hrun hconst
    obtain rfl := Constant.int.inj hp
    cases hn
    have hmod : (payload : Int) % 256 = 44 * 44 % 256 := hmod
    omega
  · have hrun : Emitter.binary (some ⟨1⟩) .shl ⟨7⟩ ⟨7⟩ Machine.byteInBlock.context = .ok _ _ := rfl
    obtain ⟨block, hkind⟩ := hwritten (.inr ⟨by decide, by decide⟩) _ _ hrun
    exact ⟨_, _, block, hrun, hkind⟩
  · obtain ⟨_, hwidth, hanswers⟩ := hcast none .trunc ⟨7⟩ _ (.int 4) 44 (.inr rfl) hv rfl
    obtain rfl := Ty.int.inj hwidth
    exact hanswers

end StackAssembler.Build
