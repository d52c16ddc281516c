import StackAssembler.Proofs.Folding

/-! Comparisons of integer constants. A payload reads as a signed number of its width, as long as the reading fits into
128 bits. Wider types hold payloads for which it does not, and signed comparisons of these come out the other way round. -/
namespace StackAssembler.IR

/-- The two's complement reading of the low bits of a payload. -/
def Word.twosComplement (width payload : Nat) : Int :=
  if 2 ^ (width - 1) ≤ payload then payload - 2 ^ width else payload

namespace IntPredicate

/-- Whether a predicate compares two's complement readings. -/
def isSigned : IntPredicate → Bool
  | sgt | sge | slt | sle => true
  | _ => false

/-- How a predicate reads a payload of a width. -/
def reading (p : IntPredicate) (width payload : Nat) : Int :=
  if p.isSigned then Word.twosComplement width payload else payload

/-- What a predicate says of two payloads of a width. -/
def Holds (p : IntPredicate) (width a b : Nat) : Prop :=
  match p with
  | eq => p.reading width a = p.reading width b
  | ne => p.reading width a ≠ p.reading width b
  | ugt | sgt => p.reading width b < p.reading width a
  | uge | sge => p.reading width b ≤ p.reading width a
  | ult | slt => p.reading width a < p.reading width b
  | ule | sle => p.reading width a ≤ p.reading width b

instance (width a b : Nat) : (p : IntPredicate) → Decidable (p.Holds width a b)
  | eq => inferInstanceAs (Decidable (_ = _))
  | ne => inferInstanceAs (Decidable (_ ≠ _))
  | ugt | sgt | ult | slt => inferInstanceAs (Decidable (_ < _))
  | uge | sge | ule | sle => inferInstanceAs (Decidable (_ ≤ _))

end IntPredicate

namespace Word
variable {width a b : Nat}

/-- Payloads are read at no more bits than they have. -/
theorem signed_eq_twosComplement (hpos : 1 ≤ width) (ha : a < 2 ^ width) (hcapacity : a < 2 ^ 128) :
    signed width a = twosComplement (min width 128) a := by
  have hbits : (if width = 0 then capacity else min width capacity) = min width 128 := if_neg (by omega)
  have hfits : a < 2 ^ min width 128 := by
    rcases Nat.le_total width 128 with h | h
    · rwa [Nat.min_eq_left h]
    · rwa [Nat.min_eq_right h]
  rw [signed, hbits, Nat.pow_eq]
  obtain ⟨k, hk⟩ : ∃ k, min width 128 = k + 1 := ⟨min width 128 - 1, by omega⟩
  rw [hk, Nat.pow_succ] at hfits
  have hmod : (a : Int) % (2 ^ (k + 1) : Nat) = a := by
    rw [← Int.natCast_mod, Nat.mod_eq_of_lt (by rwa [Nat.pow_succ])]
  have hhalf : (((2 ^ (k + 1) : Nat) : Int) + 1) / 2 = (2 ^ k : Nat) := by
    rw [Nat.pow_succ]
    omega
  rw [hk, Int.bmod_def, hmod, hhalf, twosComplement, Nat.add_sub_cancel]
  by_cases h : 2 ^ k ≤ a
  · rw [if_neg (by omega), if_pos h]
    push_cast
    rfl
  · rw [if_pos (by omega), if_neg h]

/-- A payload of a wider type has no sign bit. -/
theorem twosComplement_of_wide (hwide : 128 < width) (hcapacity : a < 2 ^ 128) : twosComplement width a = a :=
  if_neg (Nat.not_le.mpr (hcapacity.trans_le (Nat.pow_le_pow_right (by decide) (by omega))))

theorem twosComplement_bounds (hpos : 1 ≤ width) (ha : a < 2 ^ width) :
    -2 ^ (width - 1) ≤ twosComplement width a ∧ twosComplement width a < 2 ^ (width - 1) := by
  obtain ⟨k, rfl⟩ : ∃ k, width = k + 1 := ⟨width - 1, by omega⟩
  have hcast : ((2 ^ k : Nat) : Int) = 2 ^ k := by push_cast; rfl
  rw [Nat.pow_succ] at ha
  rw [twosComplement, Nat.add_sub_cancel, pow_succ]
  split <;> omega

/-- The reading of a payload is right if and only if the right one fits into a register. -/
theorem signed_eq_iff (hpos : 1 ≤ width) (ha : a < 2 ^ width) (hcapacity : a < 2 ^ 128) :
    signed width a = twosComplement width a ↔
      -2 ^ 127 ≤ twosComplement width a ∧ twosComplement width a < 2 ^ 127 := by
  rw [signed_eq_twosComplement hpos ha hcapacity]
  rcases Nat.lt_or_ge 128 width with hwide | hle
  · rw [twosComplement_of_wide hwide hcapacity, Nat.min_eq_right hwide.le, twosComplement]
    split <;> omega
  · have hpow : (2 : Int) ^ (width - 1) ≤ 2 ^ 127 := pow_le_pow_right₀ (by decide) (by omega)
    have hbounds := twosComplement_bounds hpos ha
    rw [Nat.min_eq_left hle]
    exact ⟨fun _ => by omega, fun _ => rfl⟩

theorem compare_iff (p : IntPredicate) (hpos : 1 ≤ width) (ha : a < 2 ^ width) (ha' : a < 2 ^ 128) (hb : b < 2 ^ width)
    (hb' : b < 2 ^ 128) : compare p width a b = true ↔ p.Holds (min width 128) a b := by
  cases p <;> simp [compare, IntPredicate.Holds, IntPredicate.reading, IntPredicate.isSigned,
    signed_eq_twosComplement hpos ha ha', signed_eq_twosComplement hpos hb hb']

/-- At 128 bits a signed comparison turns round what a wider type says, where only one of the payloads has the top bit. -/
theorem holds_wide_iff (p : IntPredicate) (hwide : 128 < width) (ha : a < 2 ^ 128) (hb : b < 2 ^ 128) :
    (p.Holds 128 a b ↔ p.Holds width a b) ↔ ¬ (p.isSigned ∧ ¬ (a < 2 ^ 127 ↔ b < 2 ^ 127)) := by
  have top (c : Nat) : twosComplement 128 c = if 2 ^ 127 ≤ c then (c : Int) - 2 ^ 128 else (c : Int) := rfl
  cases p with
  | eq | ne | ugt | uge | ult | ule => simp [IntPredicate.Holds, IntPredicate.reading, IntPredicate.isSigned]
  | sgt | sge | slt | sle =>
    simp only [IntPredicate.Holds, IntPredicate.reading, IntPredicate.isSigned, if_true, twosComplement_of_wide hwide ha,
      twosComplement_of_wide hwide hb, top, true_and]
    split <;> split <;> omega

/-- A comparison comes out as the width would have it, but for a signed one in a type wider than a payload where only one
of the payloads has the top bit. -/
theorem compare_right_iff (p : IntPredicate) (hpos : 1 ≤ width) (ha : a < 2 ^ width) (ha' : a < 2 ^ 128)
    (hb : b < 2 ^ width) (hb' : b < 2 ^ 128) :
    (compare p width a b = true ↔ p.Holds width a b) ↔
      ¬ (p.isSigned ∧ 128 < width ∧ ¬ (a < 2 ^ 127 ↔ b < 2 ^ 127)) := by
  rw [compare_iff p hpos ha ha' hb hb']
  rcases Nat.lt_or_ge 128 width with hwide | hle
  · rw [Nat.min_eq_right hwide.le, holds_wide_iff p hwide ha' hb']
    simp only [hwide, true_and]
  · rw [Nat.min_eq_left hle]
    simp [Nat.not_lt.mpr hle]

end Word

/-- A comparison of two constants asks for the bit that it comes to. -/
theorem Emitter.icmp_constants {ctx : Context} {at? : Option BlockId} (p : IntPredicate) {l r : ValueId} {width a b : Nat}
    (hl : ctx.HasConstant l (.int width) (.int a)) (hr : ctx.HasConstant r (.int width) (.int b)) :
    icmp at? (.int p) l r ctx =
      .ok (ctx.integer 1 (if Word.compare p width a b then 1 else 0)).1
        (ctx.integer 1 (if Word.compare p width a b then 1 else 0)).2 := by
  have hfold : foldCompare? ctx p l r = some (Word.compare p width a b) := by
    rw [foldCompare?, hl.payload?, hr.payload?, hl.type]
    rfl
  rw [icmp, get_bind, hl.type, expect_bind, if_pos hr.type, if_pos (by rfl), get_bind, hfold]
  rfl

theorem Context.answersConstant_bit {ctx : Context} (hc : Canonical ctx) (bit : Bool) :
    (ctx.intern (.int 1)).AnswersConstant
      (.ok (ctx.integer 1 (if bit then 1 else 0)).1 (ctx.integer 1 (if bit then 1 else 0)).2) (.int 1)
      (.int (if bit then 1 else 0)) := by
  have hinterned : Canonical (ctx.intern (.int 1)) := hc.evolve (.intern (by simp [Ty.components]))
  have hbit : Word.truncate 1 (if bit then 1 else 0) = if bit then 1 else 0 := by cases bit <;> rfl
  have hfits := Constant.fits_truncate 1 (if bit then 1 else 0)
  rw [hbit] at hfits
  rw [integer, hbit]
  exact answersConstant hinterned hfits

theorem Context.signed?_constant {ctx : Context} {v : ValueId} {width a : Nat}
    (hv : ctx.HasConstant v (.int width) (.int a)) : ctx.signed? v = some (Word.signed width a) := by
  rw [signed?, hv.payload?, hv.type]
  rfl

end StackAssembler.IR

namespace StackAssembler.Build
open IR

/-- A comparison of two integer constants writes no instruction. It is answered by the one bit that says whether the
predicate holds of the payloads at their width. Only a signed comparison in a type wider than a payload is answered by the
other bit, when one of the payloads has the top bit of a register and the other one does not. The signed reading of a
constant is the one of its width if and only if that fits into a register. -/
theorem Reachable.compares {m : Machine} (h : Reachable m) :
    (∀ (at? : Option BlockId) (p : IntPredicate) (width a b : Nat) (l r : ValueId), 1 ≤ width →
      m.context.HasConstant l (.int width) (.int a) → m.context.HasConstant r (.int width) (.int b) →
      ∃ bit : Bool,
        (m.context.intern (.int 1)).AnswersConstant (Emitter.icmp at? (.int p) l r m.context) (.int 1)
          (.int (if bit then 1 else 0)) ∧
        ((bit = true ↔ p.Holds width a b) ↔ ¬ (p.isSigned ∧ 128 < width ∧ ¬ (a < 2 ^ 127 ↔ b < 2 ^ 127)))) ∧
    ∀ (width a : Nat) (v : ValueId), 1 ≤ width → m.context.HasConstant v (.int width) (.int a) →
      ∃ n : Int, m.context.signed? v = some n ∧ n = (Register.signExtend width (BitVec.ofNat 128 a)).toInt ∧
        (n = Word.twosComplement width a ↔
          -2 ^ 127 ≤ Word.twosComplement width a ∧ Word.twosComplement width a < 2 ^ 127) := by
  have hc := h.canonical
  refine ⟨fun at? p width a b l r hpos hl hr => ?_, fun width a v hpos hv => ?_⟩
  · obtain ⟨⟨ha, ha'⟩, hb, hb'⟩ := And.intro (hc.payload_lt hl) (hc.payload_lt hr)
    refine ⟨Word.compare p width a b, ?_, Word.compare_right_iff p hpos ha ha' hb hb'⟩
    rw [Emitter.icmp_constants p hl hr]
    exact Context.answersConstant_bit hc _
  · obtain ⟨ha, ha'⟩ := hc.payload_lt hv
    exact ⟨_, Context.signed?_constant hv, (Register.toInt_signExtend width ha').symm, Word.signed_eq_iff hpos ha ha'⟩

/-- Two bytes, and two numbers of 200 bits. -/
def Command.numbers : List Command :=
  [.request (.integer 8 200), .request (.integer 8 44), .request (.integer 200 (2 ^ 127)), .request (.integer 200 0)]

def Machine.numbers : Machine := Machine.runAll {} Command.numbers

theorem Reachable.numbers : Reachable Machine.numbers := ⟨{}, .of_permits Command.numbers (by decide +kernel)⟩

/-- A byte of 200 reads as -56 and is less than 44. -/
theorem Reachable.compares_bytes :
    (Machine.numbers.context.intern (.int 1)).AnswersConstant
      (Emitter.icmp none (.int .slt) ⟨0⟩ ⟨1⟩ Machine.numbers.context) (.int 1) (.int 1) ∧
    Machine.numbers.context.signed? ⟨0⟩ = some (-56) := by
  have hl : Machine.numbers.context.HasConstant ⟨0⟩ (.int 8) (.int 200) :=
    ⟨by decide +kernel, by decide +kernel, by decide +kernel⟩
  have hr : Machine.numbers.context.HasConstant ⟨1⟩ (.int 8) (.int 44) :=
    ⟨by decide +kernel, by decide +kernel, by decide +kernel⟩
  obtain ⟨hcompares, hreads⟩ := Reachable.numbers.compares
  obtain ⟨bit, hanswer, hright⟩ := hcompares none .slt 8 200 44 ⟨0⟩ ⟨1⟩ (by decide) hl hr
  obtain ⟨n, hn, -, hfits⟩ := hreads 8 200 ⟨0⟩ (by decide) hl
  have hholds : IntPredicate.slt.Holds 8 200 44 := by decide
  have hbit : bit = true := (hright.mpr (by decide)).mpr hholds
  rw [hbit] at hanswer
  exact ⟨hanswer, hn.trans (congrArg some (hfits.mpr (by decide)))⟩

/-- A large number of 200 bits comes out as less than zero. -/
theorem Reachable.compares_wrong :
    Reachable Machine.numbers ∧ Machine.numbers.context.HasConstant ⟨2⟩ (.int 200) (.int (2 ^ 127)) ∧
    Machine.numbers.context.HasConstant ⟨3⟩ (.int 200) (.int 0) ∧ ¬ IntPredicate.slt.Holds 200 (2 ^ 127) 0 ∧
    ∃ v ctx', Emitter.icmp none (.int .slt) ⟨2⟩ ⟨3⟩ Machine.numbers.context = .ok v ctx' ∧
      ctx'.HasConstant v (.int 1) (.int 1) := by
  refine ⟨Reachable.numbers, ⟨by decide +kernel, by decide +kernel, by decide +kernel⟩,
    ⟨by decide +kernel, by decide +kernel, by decide +kernel⟩, by decide, ⟨4⟩, _, rfl, ?_⟩
  exact ⟨by decide +kernel, by decide +kernel, by decide +kernel⟩

end StackAssembler.Build
