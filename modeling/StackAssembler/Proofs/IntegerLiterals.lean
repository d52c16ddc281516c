import StackAssembler.IR.Printer
import StackAssembler.Proofs.Comparison
import StackAssembler.Proofs.Decimals
import StackAssembler.Proofs.LongestMatch
import StackAssembler.Proofs.Phrases
import StackAssembler.Script.Directive

/-! Literals of integers. A literal stands for the constant of its width that its number is cut off to. What is printed
for a constant is the number of a literal that stands for it. -/
namespace StackAssembler.Script
open IR Build Text

namespace Lexeme
variable {negative : Bool} {ds ws rest : List Char}

/-- An integer of a width as it is written in a script. -/
def integerText (negative : Bool) (ds ws : List Char) : List Char := minus negative ++ ds ++ '_' :: 'i' :: ws

/-! ### Cutting off a literal -/

/-- A run ends where something else follows. -/
theorem takeWhile_run {p : Char → Bool} (hd : ∀ c ∈ ds, p c) (hrest : ∀ c ∈ rest.head?, p c = false) :
    (ds ++ rest).takeWhile p = ds ∧ (ds ++ rest).dropWhile p = rest := by
  rw [List.takeWhile_append_of_pos hd, List.dropWhile_append_of_pos hd]
  cases rest with
  | nil => simp
  | cons c rest => simp [hrest c rfl]

theorem width?_run (m : Char) (hw : IsRun Char.isDigit ws) (hrest : ∀ c ∈ rest.head?, c.isDigit = false) :
    width? m ('_' :: m :: ws ++ rest) = some (ws.length + 2) := by
  simp [width?, (takeWhile_run hw.2 hrest).1, hw.1]

theorem numeral_integer (negative : Bool) (ds : List Char) (hw : IsRun Char.isDigit ws)
    (hrest : ∀ c ∈ rest.head?, c.isDigit = false) :
    numeral negative ds ('_' :: 'i' :: ws ++ rest) =
      (.token (.intLiteral (String.ofList (integerText negative ds ws))), (integerText negative ds ws).length) := by
  have htake : ('_' :: 'i' :: ws ++ rest).take (ws.length + 2) = '_' :: 'i' :: ws :=
    List.take_left' (by simp)
  rw [numeral, width?_run 'i' hw hrest]
  dsimp only
  rw [htake, ← minus, integerText]
  simp [Nat.add_assoc]

/-- A literal is what is found in front of something else than a digit. -/
theorem first_integer (negative : Bool) (hd : IsRun Char.isDigit ds) (hw : IsRun Char.isDigit ws)
    (hrest : ∀ c ∈ rest.head?, c.isDigit = false) :
    ∃ c cs, integerText negative ds ws = c :: cs ∧ first c (cs ++ rest) =
      (.token (.intLiteral (String.ofList (integerText negative ds ws))), cs.length) := by
  have hdigits : (ds ++ ('_' :: 'i' :: ws ++ rest)).takeWhile Char.isDigit = ds ∧
      (ds ++ ('_' :: 'i' :: ws ++ rest)).dropWhile Char.isDigit = '_' :: 'i' :: ws ++ rest :=
    takeWhile_run hd.2 (by simp)
  have hnumeral := numeral_integer negative ds hw hrest
  -- What comes first is the minus or the first digit, and only the digits are read as a run.
  cases negative with
  | true =>
    refine ⟨'-', ds ++ '_' :: 'i' :: ws, rfl, ?_⟩
    rw [List.append_assoc, first_minus hd.1 hdigits.1, hdigits.2, hnumeral]
    rfl
  | false =>
    obtain ⟨d, ds, rfl⟩ := List.exists_cons_of_ne_nil hd.1
    refine ⟨d, ds ++ '_' :: 'i' :: ws, rfl, ?_⟩
    have hassoc : d :: (ds ++ '_' :: 'i' :: ws ++ rest) = d :: ds ++ ('_' :: 'i' :: ws ++ rest) := by simp
    rw [first_digit (hd.2 d (.head _)), hassoc, hdigits.1, hdigits.2, hnumeral]
    rfl

/-- A literal in front of something else than a digit is cut off as a whole. -/
theorem scan_integer (negative : Bool) (offset : Nat) (hd : IsRun Char.isDigit ds) (hw : IsRun Char.isDigit ws)
    (hrest : ∀ c ∈ rest.head?, c.isDigit = false) :
    scan offset (integerText negative ds ws ++ rest) =
      .ok ⟨.intLiteral (String.ofList (integerText negative ds ws)),
        ⟨offset, offset + bytes (integerText negative ds ws)⟩⟩ ::
      scan (offset + bytes (integerText negative ds ws)) rest := by
  obtain ⟨c, cs, htext, hfirst⟩ := first_integer negative hd hw hrest
  rw [htext, List.cons_append, scan, ← htext, hfirst]
  simp [htext]

end Lexeme

open Lexeme

/-! ### What a text stands for -/

/-- A text is read as an operand wherever it stands in front of something else than a digit. -/
def Parser.ReadsAs (text : List Char) (e : OperandExpr) : Prop :=
  ∀ (s : TokenStream) (offset : Nat) (rest : List Char), (∀ c ∈ rest.head?, c.isDigit = false) →
    s.pending = scan offset (text ++ rest) →
    Parser.operand s = .ok e
      { s with pending := scan (offset + bytes text) rest, lastStop := offset + bytes text }

/-- A text is read as an operand that is lowered to a value, which is there in the second context. -/
def Lowering.Denotes (ctx : Context) (text : List Char) (v : ValueId) (ctx' : Context) : Prop :=
  ∃ e, Parser.ReadsAs text e ∧
    ∀ b names, Lowering.operand e ⟨⟨ctx, b⟩, names⟩ = .ok (.value v) ⟨⟨ctx', b⟩, names⟩

section
variable {negative : Bool} {ds ws : List Char} (hd : IsRun Char.isDigit ds) (hw : IsRun Char.isDigit ws)
  (hpos : 1 ≤ digitsValue ws) (hle : digitsValue ws ≤ 128) (hlow : -2 ^ 127 ≤ signedValue negative ds)
  (hhigh : signedValue negative ds < 2 ^ 127)
include hd hw hpos hle hlow hhigh

theorem Parser.readsAs_integer :
    ReadsAs (integerText negative ds ws) (.int (signedValue negative ds) (digitsValue ws)) := by
  intro s offset rest hrest hs
  rw [scan_integer negative offset hd hw hrest] at hs
  refine operand_ok.mpr ⟨[⟨.intLiteral _, ⟨offset, _⟩⟩], ⟨hs, rfl, rfl⟩, .literal (.int ?_)⟩
  exact (Grammar.integer_eq_ok hd hw).mpr ⟨_, rfl, hlow, hhigh, hpos, hle, rfl⟩

theorem Lowering.denotes_integer (ctx : Context) :
    Denotes ctx (integerText negative ds ws) (ctx.integer (digitsValue ws) (signedValue negative ds)).1
      (ctx.integer (digitsValue ws) (signedValue negative ds)).2 :=
  ⟨_, Parser.readsAs_integer hd hw hpos hle hlow hhigh, fun _ _ => rfl⟩

end

/-- The text of a number and a width is a literal. -/
theorem Lexeme.integerText_toString (n : Int) (width : Nat) :
    integerText (decide (n < 0)) (toString n.natAbs).toList (toString width).toList =
      (toString n ++ "_i" ++ toString width).toList := by
  rw [integerText, String.toList_append, String.toList_append, toList_toString_int, List.append_assoc _ "_i".toList]
  rfl

theorem Lowering.denotes_toString (ctx : Context) {n : Int} {width : Nat} (hpos : 1 ≤ width) (hle : width ≤ 128)
    (hlow : -2 ^ 127 ≤ n) (hhigh : n < 2 ^ 127) :
    Denotes ctx (toString n ++ "_i" ++ toString width).toList (ctx.integer width n).1 (ctx.integer width n).2 := by
  have hread := signedValue_toString n
  have hwidth := digitsValue_toString width
  have hdenotes := @denotes_integer (decide (n < 0)) _ _ (isRun_toString n.natAbs) (isRun_toString width)
    (hwidth.symm ▸ hpos) (hwidth.symm ▸ hle) (hread.symm ▸ hlow) (hread.symm ▸ hhigh) ctx
  rwa [integerText_toString, hread, hwidth] at hdenotes

end StackAssembler.Script

namespace StackAssembler.IR

namespace Word
variable {width : Nat}

/-- The reading of a payload is cut off to the payload. -/
theorem twosComplement_emod {a : Nat} (ha : a < 2 ^ width) : twosComplement width a % 2 ^ width = a := by
  have hlt : (a : Int) < 2 ^ width := by exact_mod_cast ha
  have hmod : (a : Int) % 2 ^ width = a := Int.emod_eq_of_lt (Int.natCast_nonneg a) hlt
  rw [twosComplement]
  split
  · rw [Int.sub_emod_right, hmod]
  · exact hmod

end Word

namespace Context
variable {ctx : Context} {v : ValueId} {width payload : Nat}

/-- An integer constant of more than one bit is printed as its type and the number that it reads as. -/
theorem printOperand_integer (hc : Canonical ctx) (h : ctx.HasConstant v (.int width) (.int payload))
    (hmore : 2 ≤ width) (hle : width ≤ 128) :
    ctx.printOperand v = "i" ++ toString width ++ " " ++ toString (Word.twosComplement width payload) := by
  obtain ⟨hlt, hcapacity⟩ := hc.payload_lt h
  have htype : (ctx.value v).type = .int width := h.type
  have hsigned : Word.signed width payload = Word.twosComplement width payload := by
    rw [Word.signed_eq_twosComplement (by omega) hlt hcapacity, Nat.min_eq_left hle]
  -- One bit is the only width that is printed as a truth value.
  have htext : constantText (.int width) (.int payload) = toString (Word.signed width payload) := by
    rw [constantText]
    rintro rfl
    exact absurd hmore (by decide)
  simp only [printOperand, operandText, nameText, h.kind, h.type, htype, htext, hsigned]
  rfl

/-- An undefined constant is printed as its type and a word. -/
theorem printOperand_undef {t : Ty} (h : ctx.HasConstant v t .undef) : ctx.printOperand v = t.name ++ " undef" := by
  simp only [printOperand, operandText, nameText, h.kind, h.type, constantText]
  rw [String.append_assoc]
  rfl

/-- Asking for the number that a constant reads as gives the constant, and adds no value. -/
theorem integer_signed (hc : Canonical ctx) (h : ctx.HasConstant v (.int width) (.int payload)) (hle : width ≤ 128) :
    ctx.integer width (Word.twosComplement width payload) = (v, ctx.intern (.int width)) := by
  have hintern : Evolves ctx (ctx.intern (.int width)) := .intern (List.forall_mem_nil _)
  have hcut : Word.truncate width (Word.twosComplement width payload) = payload := by
    rw [Word.truncate_eq_emod hle, Word.twosComplement_emod (hc.payload_lt h).1, Int.toNat_natCast]
  rw [integer, hcut]
  exact constant_of_hasConstant (hc.evolve hintern) (h.later hintern.keeps)

end Context
end StackAssembler.IR

namespace StackAssembler.Build
open IR Script Lexeme Text

/-- A literal of a number that fits into 128 bits with its sign stands for the constant of its width that has the low bits
of the number, however many zeros are in front. And an integer of more than one bit is printed as its type and the number
that it reads as, and the literal of that number stands for the same value. The only constant of such a type that is not
an integer is undefined, and is printed so. -/
theorem Reachable.integers_read_back {m : Machine} (h : Reachable m) :
    (∀ (negative : Bool) (ds ws : List Char), IsRun Char.isDigit ds → IsRun Char.isDigit ws →
      1 ≤ digitsValue ws → digitsValue ws ≤ 128 →
      -2 ^ 127 ≤ signedValue negative ds → signedValue negative ds < 2 ^ 127 →
      ∃ v ctx, Lowering.Denotes m.context (integerText negative ds ws) v ctx ∧
        ctx.HasConstant v (.int (digitsValue ws)) (.int (signedValue negative ds % 2 ^ digitsValue ws).toNat)) ∧
    (∀ (v : ValueId) (width payload : Nat), 2 ≤ width → width ≤ 128 →
      m.context.HasConstant v (.int width) (.int payload) →
      ∃ n : Int, -2 ^ (width - 1) ≤ n ∧ n < 2 ^ (width - 1) ∧ payload = (n % 2 ^ width).toNat ∧
        m.context.printOperand v = "i" ++ toString width ++ " " ++ toString n ∧
        ∃ ctx, Lowering.Denotes m.context (toString n ++ "_i" ++ toString width).toList v ctx ∧
          ctx.values = m.context.values) ∧
    ∀ (v : ValueId) (width : Nat) (c : Constant), m.context.HasConstant v (.int width) c →
      (∃ payload, c = .int payload) ∨
        c = .undef ∧ m.context.printOperand v = "i" ++ toString width ++ " undef" := by
  have hc := h.canonical
  refine ⟨?literals, ?integers, ?others⟩
  case literals =>
    intro negative ds ws hd hw hpos hle hlow hhigh
    refine ⟨_, _, Lowering.denotes_integer hd hw hpos hle hlow hhigh m.context, ?_⟩
    rw [← Word.truncate_eq_emod hle]
    exact Context.hasConstant_integer _ _ _
  case integers =>
    intro v width payload hmore hle hv
    have hlt := (hc.payload_lt hv).1
    have hpos : 1 ≤ width := by omega
    obtain ⟨hlow, hhigh⟩ := Word.twosComplement_bounds hpos hlt
    refine ⟨Word.twosComplement width payload, hlow, hhigh, ?_, Context.printOperand_integer hc hv hmore hle, ?_⟩
    · rw [Word.twosComplement_emod hlt, Int.toNat_natCast]
    · have hroom : (2 : Int) ^ (width - 1) ≤ 2 ^ 127 := pow_le_pow_right₀ (by decide) (by omega)
      have hdenotes := Lowering.denotes_toString m.context hpos hle ((neg_le_neg hroom).trans hlow)
        (hhigh.trans_le hroom)
      rw [Context.integer_signed hc hv hle] at hdenotes
      exact ⟨_, hdenotes, Context.values_intern _ _⟩
  case others =>
    intro v width c hv
    have hfits := hc.fits v _ c hv
    cases c with
    | int payload => exact .inl ⟨payload, rfl⟩
    | undef => exact .inr ⟨rfl, Context.printOperand_undef hv⟩
    | null | float => cases hfits

/-- The least number of 128 bits with a zero in front, and a byte of 200. -/
theorem Reachable.integers_read_back_numbers :
    (∃ v ctx, Lowering.Denotes Machine.numbers.context "-0170141183460469231731687303715884105728_i128".toList v ctx ∧
      ctx.HasConstant v (.int 128) (.int (2 ^ 127))) ∧
    Machine.numbers.context.printOperand ⟨0⟩ = "i8 -56" ∧
    ∃ ctx, Lowering.Denotes Machine.numbers.context "-56_i8".toList ⟨0⟩ ctx ∧
      ctx.values = Machine.numbers.context.values := by
  obtain ⟨reads, prints, -⟩ := Reachable.numbers.integers_read_back
  have hbyte : Machine.numbers.context.HasConstant ⟨0⟩ (.int 8) (.int 200) :=
    ⟨by decide +kernel, by decide +kernel, by decide +kernel⟩
  have hdigits : IsRun Char.isDigit "0170141183460469231731687303715884105728".toList :=
    ⟨by decide, List.all_eq_true.mp (by decide +kernel)⟩
  have hdigits' : IsRun Char.isDigit "128".toList := ⟨by decide, List.all_eq_true.mp (by decide)⟩
  have hvalue : signedValue true "0170141183460469231731687303715884105728".toList = -2 ^ 127 := by decide +kernel
  have hwidth : digitsValue "128".toList = 128 := by decide +kernel
  constructor
  · obtain ⟨v, ctx, hdenotes, hconstant⟩ := reads true _ _ hdigits hdigits' (by rw [hwidth]; decide) (by rw [hwidth])
      (by rw [hvalue]) (by rw [hvalue]; decide)
    rw [hvalue, hwidth] at hconstant
    exact ⟨v, ctx, hdenotes, hconstant⟩
  · obtain ⟨n, hlow, hhigh, hpayload, hprint, hreads⟩ := prints ⟨0⟩ 8 _ (by decide) (by decide) hbyte
    have hn : n = -56 := by omega
    subst hn
    exact ⟨hprint, hreads⟩

/-- A byte that is not defined. -/
def Command.undefined : List Command := [.request (.intern (.int 8)), .request (.undef (.int 8))]

def Machine.undefined : Machine := Machine.runAll {} Command.undefined

/-- Not every constant of an integer type is printed as a number: an undefined byte is none. -/
theorem Reachable.undefined_prints_no_number :
    Reachable Machine.undefined ∧ Machine.undefined.context.HasConstant ⟨0⟩ (.int 8) .undef ∧
      ∀ n : Int, Machine.undefined.context.printOperand ⟨0⟩ ≠ "i8 " ++ toString n := by
  refine ⟨⟨{}, .of_permits Command.undefined (by decide +kernel)⟩,
    ⟨by decide +kernel, by decide +kernel, by decide +kernel⟩, fun n h => ?_⟩
  have hprint : Machine.undefined.context.printOperand ⟨0⟩ = "i8 undef" := by decide +kernel
  have htext : ("undef" : String).toList = minus (decide (n < 0)) ++ (toString n.natAbs).toList := by
    have hlist : ("i8 " : String).toList ++ ("undef" : String).toList = ("i8 " ++ toString n).toList :=
      congrArg String.toList (hprint.symm.trans h)
    rw [String.toList_append, toList_toString_int] at hlist
    exact List.append_cancel_left hlist
  -- A number starts with a minus or with a digit.
  have hmem : 'u' ∈ minus (decide (n < 0)) ∨ 'u' ∈ (toString n.natAbs).toList := by
    rw [← List.mem_append, ← htext]
    decide
  rcases hmem with hsign | hdigit
  · revert hsign
    cases decide (n < 0) <;> decide
  · exact absurd ((isRun_toString n.natAbs).2 'u' hdigit) (by decide)

end StackAssembler.Build
