import Mathlib.Data.List.TakeWhile
import StackAssembler.Script.TokenStream

/-! The pieces of text that are declared: what a script may skip, and what stands for a token. What is found at the
start of a text is the longest of them. -/
namespace StackAssembler.Script

/-- Whether the number of a token fits into the bits that there are for it. -/
def Token.Fits : Token → Prop
  | .arg n => n < Nat.pow 2 32
  | .number n => n < Nat.pow 2 64
  | _ => True

namespace Lexeme
open Text

/-- One or more characters of a class. -/
def IsRun (p : Char → Bool) (cs : List Char) : Prop := cs ≠ [] ∧ ∀ c ∈ cs, p c

/-- Digits, behind a minus or alone. -/
def IsSigned (cs : List Char) : Prop := ∃ sign ds, cs = sign ++ ds ∧ (sign = [] ∨ sign = ['-']) ∧ IsRun Char.isDigit ds

/-- The tokens that are always spelled the same. -/
def marks : List (List Char × Token) :=
  [(['\n'], .newline), (['_'], .underscore), ([','], .comma), (['('], .lparen), ([')'], .rparen), (['['], .lbracket),
    ([']'], .rbracket), (['*'], .star), (['+'], .plus), (['-', '>'], .arrow), (['.', '.', '.'], .ellipsis)]

/-- The texts that are declared, each with its token. Blanks and comments have none. -/
inductive Declared : List Char → Option Token → Prop where
  | blanks {cs : List Char} : IsRun isBlank cs → Declared cs none
  | comment {cs : List Char} : (∀ c ∈ cs, c ≠ '\n') → Declared (';' :: cs) none
  | mark {cs : List Char} {t : Token} : (cs, t) ∈ marks → Declared cs (some t)
  | var {cs : List Char} : IsRun isNameChar cs → Declared ('%' :: cs) (some (.var (String.ofList cs)))
  | global {cs : List Char} : IsRun isNameChar cs → Declared ('@' :: cs) (some (.global (String.ofList cs)))
  | arg {ds : List Char} : IsRun Char.isDigit ds → Declared ('$' :: ds) (some (.arg (digitsValue ds)))
  | intLiteral {cs number width : List Char} : cs = number ++ '_' :: 'i' :: width → IsSigned number →
      IsRun Char.isDigit width → Declared cs (some (.intLiteral (String.ofList cs)))
  | floatLiteral {cs number places width : List Char} : cs = number ++ '.' :: places ++ '_' :: 'f' :: width →
      IsSigned number → IsRun Char.isDigit places → IsRun Char.isDigit width →
      Declared cs (some (.floatLiteral (String.ofList cs)))
  | number {ds : List Char} : IsRun Char.isDigit ds → Declared ds (some (.number (digitsValue ds)))
  | ident {c : Char} {cs : List Char} : c.isAlpha → (∀ c ∈ cs, isNameChar c) →
      Declared (c :: cs) (some (.ident (String.ofList (c :: cs))))

/-- How a text with a token, or without one, reads. -/
def Piece.of : Option Token → Piece
  | none => .skipped
  | some t => .token t

/-! ### Runs -/

section Runs
variable {p : Char → Bool} {cs ds rest : List Char} {c : Char}

theorem isRun_takeWhile (h : cs.takeWhile p ≠ []) : IsRun p (cs.takeWhile p) :=
  ⟨h, fun _ hc => List.mem_takeWhile_imp hc⟩

/-- No run at the start of a text is longer than the one that is read. -/
theorem length_le_takeWhile (hd : ∀ c ∈ ds, p c) (h : ds <+: cs) : ds.length ≤ (cs.takeWhile p).length := by
  obtain ⟨tail, rfl⟩ := h
  rw [List.takeWhile_append_of_pos hd, List.length_append]
  exact Nat.le_add_right _ _

/-- A run is read to its end. -/
theorem takeWhile_of_run (hd : ∀ c ∈ ds, p c) (hc : p c = false) (h : ds ++ c :: rest <+: cs) :
    cs.takeWhile p = ds ∧ c :: rest <+: cs.dropWhile p := by
  obtain ⟨tail, rfl⟩ := h
  rw [List.append_assoc, List.takeWhile_append_of_pos hd, List.dropWhile_append_of_pos hd]
  simp [hc]

/-- The run that is read is the only one of its length. -/
theorem eq_takeWhile (h : ds <+: cs) (hl : ds.length = (cs.takeWhile p).length) : ds = cs.takeWhile p := by
  rw [List.prefix_iff_eq_take.mp h, hl]
  exact (List.prefix_iff_eq_take.mp (List.takeWhile_prefix p)).symm

theorem take_takeWhile (p : Char → Bool) (cs : List Char) : cs.take (cs.takeWhile p).length = cs.takeWhile p :=
  (List.prefix_iff_eq_take.mp (List.takeWhile_prefix p)).symm

end Runs

/-! ### Widths and fractions -/

theorem width?_eq_some {m : Char} {cs : List Char} {w : Nat} (h : width? m cs = some w) :
    ∃ ds, cs.take w = '_' :: m :: ds ∧ IsRun Char.isDigit ds ∧ w ≤ cs.length := by
  unfold width? at h
  split at h
  · next c rest =>
    dsimp only at h
    split at h
    · next hd =>
      obtain ⟨rfl, hd⟩ := hd
      cases h
      refine ⟨rest.takeWhile Char.isDigit, ?_, isRun_takeWhile hd, ?_⟩
      · simp [take_takeWhile]
      · have := (List.takeWhile_prefix Char.isDigit (l := rest)).length_le
        simpa using this
    · cases h
  · cases h

/-- A width at the start of a text is read, and to its end. -/
theorem width?_of_run {m : Char} {cs ds : List Char} (hd : IsRun Char.isDigit ds) (h : '_' :: m :: ds <+: cs) :
    ∃ w, width? m cs = some w ∧ ds.length + 2 ≤ w := by
  obtain ⟨tail, rfl⟩ := h
  have hle := length_le_takeWhile hd.2 (List.prefix_append ds tail)
  have hne : (ds ++ tail).takeWhile Char.isDigit ≠ [] := by
    rw [List.takeWhile_append_of_pos hd.2]
    simp [hd.1]
  exact ⟨((ds ++ tail).takeWhile Char.isDigit).length + 2, by simp [width?, hne], by omega⟩

theorem fraction?_eq_some {cs : List Char} {f : Nat} (h : fraction? cs = some f) :
    ∃ ds, cs.take f = '.' :: ds ∧ IsRun Char.isDigit ds ∧ f ≤ cs.length := by
  unfold fraction? at h
  split at h
  · next rest =>
    dsimp only at h
    split at h
    · next hd =>
      cases h
      refine ⟨rest.takeWhile Char.isDigit, ?_, isRun_takeWhile hd, ?_⟩
      · simp [take_takeWhile]
      · have := (List.takeWhile_prefix Char.isDigit (l := rest)).length_le
        simpa using this
    · cases h
  · cases h

/-- A fraction in front of something else is read to its end. -/
theorem fraction?_of_run {cs ds rest : List Char} {c : Char} (hd : IsRun Char.isDigit ds) (hc : c.isDigit = false)
    (h : '.' :: ds ++ c :: rest <+: cs) : fraction? cs = some (ds.length + 1) ∧ c :: rest <+: cs.drop (ds.length + 1) := by
  obtain ⟨tail, rfl⟩ := h
  obtain ⟨hrun, _⟩ := takeWhile_of_run hd.2 hc (List.prefix_append (ds ++ c :: rest) tail)
  constructor
  · simp only [List.cons_append, fraction?, hrun, ne_eq, hd.1, not_false_eq_true, if_true]
  · simp

/-! ### Numbers -/

section Numbers
variable {negative : Bool} {ds rest : List Char} {t : Token} {n : Nat}

/-- The minus of a negative number. -/
def minus (negative : Bool) : List Char := if negative then ['-'] else []

theorem isSigned_minus (negative : Bool) (hd : IsRun Char.isDigit ds) : IsSigned (minus negative ++ ds) :=
  ⟨minus negative, ds, rfl, by cases negative <;> simp [minus], hd⟩

/-- What can come of reading a number. -/
inductive Numeral (negative : Bool) (ds rest : List Char) : Piece × Nat → Prop where
  | integer {w : Nat} {width : List Char} : rest.take w = '_' :: 'i' :: width → IsRun Char.isDigit width →
      w ≤ rest.length → Numeral negative ds rest
        (.token (.intLiteral (String.ofList (minus negative ++ ds ++ rest.take w))), (minus negative ++ ds).length + w)
  | float {f w : Nat} {places width : List Char} : rest.take f = '.' :: places →
      (rest.drop f).take w = '_' :: 'f' :: width → IsRun Char.isDigit places → IsRun Char.isDigit width →
      f + w ≤ rest.length → Numeral negative ds rest
        (.token (.floatLiteral (String.ofList (minus negative ++ ds ++ rest.take (f + w)))),
          (minus negative ++ ds).length + (f + w))
  | number : negative = false → digitsValue ds < Nat.pow 2 64 →
      Numeral negative ds rest (.token (.number (digitsValue ds)), (minus negative ++ ds).length)
  | unfinished {d : Char} {tail : List Char} {n : Nat} : rest = '.' :: d :: tail → d.isDigit →
      Numeral negative ds rest (.unreadable, n)
  | unfit {n : Nat} : negative ∨ Nat.pow 2 64 ≤ digitsValue ds → Numeral negative ds rest (.unreadable, n)

theorem numeral_cases (negative : Bool) (ds rest : List Char) :
    Numeral negative ds rest (numeral negative ds rest) := by
  unfold numeral
  dsimp only
  rw [← minus, ← List.length_append]
  cases hw : width? 'i' rest with
  | some w =>
    obtain ⟨width, htake, hrun, hle⟩ := width?_eq_some hw
    exact .integer htake hrun hle
  | none =>
    dsimp only
    cases hf : fraction? rest with
    | some f =>
      obtain ⟨places, hplaces, hrun, hle⟩ := fraction?_eq_some hf
      dsimp only
      cases hv : width? 'f' (rest.drop f) with
      | some w =>
        obtain ⟨width, htake, hrun', hle'⟩ := width?_eq_some hv
        rw [List.length_drop] at hle'
        exact .float hplaces htake hrun hrun' (by omega)
      | none =>
        obtain ⟨d, places, rfl⟩ := List.exists_cons_of_ne_nil hrun.1
        have hrest : rest = '.' :: d :: (places ++ rest.drop f) := by
          conv => lhs; rw [← List.take_append_drop f rest, hplaces]
          rfl
        exact .unfinished hrest (hrun.2 d (.head _))
    | none =>
      dsimp only
      split
      · next hb =>
        rw [Bool.or_eq_true, decide_eq_true_eq] at hb
        exact .unfit hb
      · next hb =>
        rw [Bool.or_eq_true, decide_eq_true_eq, not_or, Bool.not_eq_true] at hb
        exact .number hb.1 (Nat.lt_of_not_le hb.2)

/-- What is read as a number is declared. -/
theorem numeral_declared (hd : IsRun Char.isDigit ds) (h : numeral negative ds rest = (.token t, n)) :
    ∃ k, n = (minus negative ++ ds).length + k ∧ k ≤ rest.length ∧
      Declared (minus negative ++ ds ++ rest.take k) (some t) ∧ t.Fits := by
  have outcome := numeral_cases negative ds rest
  rw [h] at outcome
  cases outcome with
  | @integer w width htake hrun hle =>
    refine ⟨w, rfl, hle, ?_, trivial⟩
    exact .intLiteral (by rw [htake]) (isSigned_minus negative hd) hrun
  | @float f w places width hplaces hwidth hrun hrun' hle =>
    refine ⟨f + w, rfl, hle, ?_, trivial⟩
    refine .floatLiteral ?_ (isSigned_minus negative hd) hrun hrun'
    rw [List.take_add, hplaces, hwidth]
    simp
  | number hneg hlt =>
    subst hneg
    exact ⟨0, rfl, Nat.zero_le _, by simpa [minus] using Declared.number hd, hlt⟩

/-- A number has all its digits, and is a literal if it has more than these. -/
theorem numeral_digits (h : numeral negative ds rest = (.token t, n)) : (minus negative ++ ds).length ≤ n ∧
    (n = (minus negative ++ ds).length → t = .number (digitsValue ds)) := by
  have outcome := numeral_cases negative ds rest
  rw [h] at outcome
  cases outcome with
  | @integer w _ htake =>
    refine ⟨Nat.le_add_right _ _, fun hn => ?_⟩
    obtain rfl : w = 0 := by omega
    cases htake
  | @float f w _ _ hplaces =>
    refine ⟨Nat.le_add_right _ _, fun hn => ?_⟩
    obtain rfl : f = 0 := by omega
    cases hplaces
  | number => exact ⟨Nat.le_refl _, fun _ => rfl⟩

theorem numeral_of_integer (negative : Bool) (ds : List Char) {ws : List Char} (hw : IsRun Char.isDigit ws)
    (h : '_' :: 'i' :: ws <+: rest) :
    ∃ w, numeral negative ds rest = (.token (.intLiteral (String.ofList (minus negative ++ ds ++ rest.take w))),
      (minus negative ++ ds).length + w) ∧ ws.length + 2 ≤ w := by
  obtain ⟨w, hr, hle⟩ := width?_of_run hw h
  exact ⟨w, by simp [numeral, hr, minus], hle⟩

theorem numeral_of_fraction (negative : Bool) (ds : List Char) {places ws : List Char}
    (hp : IsRun Char.isDigit places) (hw : IsRun Char.isDigit ws)
    (h : '.' :: places ++ '_' :: 'f' :: ws <+: rest) :
    ∃ w, numeral negative ds rest =
      (.token (.floatLiteral (String.ofList (minus negative ++ ds ++ rest.take (places.length + 1 + w)))),
        (minus negative ++ ds).length + (places.length + 1 + w)) ∧ ws.length + 2 ≤ w := by
  obtain ⟨hf, hrest⟩ := fraction?_of_run hp (by decide) h
  obtain ⟨w, hr, hle⟩ := width?_of_run hw hrest
  have hi : width? 'i' rest = none := by
    obtain ⟨tail, rfl⟩ := h
    rfl
  exact ⟨w, by simp [numeral, hi, hf, hr, minus], hle⟩

end Numbers

/-! ### What a text starts with -/

section First
variable {c : Char} {cs p : List Char} {k : Option Token} {t : Token} {n : Nat}

theorem isBlank_eq_false (h : c.isAlphanum) : isBlank c = false := by
  rw [Bool.eq_false_iff]
  intro hb
  simp only [isBlank, Bool.or_eq_true, beq_iff_eq] at hb
  rcases hb with ((rfl | rfl) | rfl) | rfl <;> revert h <;> decide

theorem isAlpha_of_isDigit (h : c.isDigit) : c.isAlpha = false := by
  delta Char.isAlpha Char.isUpper Char.isLower
  simp only [Char.isDigit, Bool.and_eq_true, Bool.or_eq_false_iff, Bool.and_eq_false_iff, decide_eq_true_eq,
    decide_eq_false_iff_not, ge_iff_le, UInt32.le_iff_toNat_le] at h ⊢
  simp at h ⊢
  omega

theorem first_letter (h : c.isAlpha) (cs : List Char) :
    first c cs = (.token (.ident (String.ofList (c :: cs.takeWhile isNameChar))), (cs.takeWhile isNameChar).length) := by
  have hb : isBlank c = false := isBlank_eq_false (by simp [Char.isAlphanum, h])
  simp [first, hb, h]

/-- The digits of a text, and what stands behind them. -/
theorem first_digit (h : c.isDigit) (cs : List Char) :
    first c cs = ((numeral false ((c :: cs).takeWhile Char.isDigit) ((c :: cs).dropWhile Char.isDigit)).1,
      (numeral false ((c :: cs).takeWhile Char.isDigit) ((c :: cs).dropWhile Char.isDigit)).2 - 1) := by
  have hb : isBlank c = false := isBlank_eq_false (by simp [Char.isAlphanum, h])
  simp [first, hb, isAlpha_of_isDigit h, h]

theorem first_point (cs : List Char) :
    first '.' cs = match cs with
      | '.' :: '.' :: _ => (.token .ellipsis, 2)
      | _ => (.unreadable, 0) :=
  rfl

theorem first_dash (cs : List Char) :
    first '-' cs = match cs with
      | '>' :: _ => (.token .arrow, 1)
      | _ => match cs.takeWhile Char.isDigit with
        | [] => (.unreadable, 0)
        | ds => ((numeral true ds (cs.dropWhile Char.isDigit)).1,
            (numeral true ds (cs.dropWhile Char.isDigit)).2 - 1) :=
  rfl

theorem first_minus {ds : List Char} (hd : ds ≠ []) (h : cs.takeWhile Char.isDigit = ds) :
    first '-' cs = ((numeral true ds (cs.dropWhile Char.isDigit)).1,
      (numeral true ds (cs.dropWhile Char.isDigit)).2 - 1) := by
  rw [first_dash]
  split
  · exact absurd h.symm hd
  · rw [h]
    split
    · exact absurd rfl hd
    · rfl

theorem sigil_token {make : String → Token} (h : sigil make cs = (.token t, n)) :
    IsRun isNameChar (cs.takeWhile isNameChar) ∧ t = make (String.ofList (cs.takeWhile isNameChar)) ∧
      n = (cs.takeWhile isNameChar).length := by
  unfold sigil at h
  split at h
  · cases h
  · next hne =>
    cases h
    exact ⟨isRun_takeWhile hne, rfl, rfl⟩

theorem sigil_of_run (make : String → Token) (hp : IsRun isNameChar p) (h : p <+: cs) :
    sigil make cs = (.token (make (String.ofList (cs.takeWhile isNameChar))), (cs.takeWhile isNameChar).length) := by
  have hle := length_le_takeWhile hp.2 h
  unfold sigil
  split
  · next he =>
    rw [he] at hle
    exact absurd (List.length_eq_zero_iff.mp (Nat.le_zero.mp hle)) hp.1
  · rfl

theorem parameter_token (h : parameter cs = (.token t, n)) :
    IsRun Char.isDigit (cs.takeWhile Char.isDigit) ∧ t = .arg (digitsValue (cs.takeWhile Char.isDigit)) ∧
      digitsValue (cs.takeWhile Char.isDigit) < Nat.pow 2 32 ∧ n = (cs.takeWhile Char.isDigit).length := by
  unfold parameter at h
  split at h
  · cases h
  · next hne =>
    split at h
    · next hlt =>
      cases h
      exact ⟨isRun_takeWhile hne, rfl, hlt, rfl⟩
    · cases h

theorem parameter_of_run (hp : IsRun Char.isDigit p) (h : p <+: cs) :
    parameter cs = (if digitsValue (cs.takeWhile Char.isDigit) < Nat.pow 2 32
      then .token (.arg (digitsValue (cs.takeWhile Char.isDigit))) else .unreadable,
      (cs.takeWhile Char.isDigit).length) := by
  have hle := length_le_takeWhile hp.2 h
  unfold parameter
  split
  · next he =>
    rw [he] at hle
    exact absurd (List.length_eq_zero_iff.mp (Nat.le_zero.mp hle)) hp.1
  · rfl

/-- A number at the start of a text, in terms of the characters behind the first. -/
theorem numeral_first (negative : Bool) {ds rest : List Char} (htext : c :: cs = minus negative ++ ds ++ rest)
    (hd : IsRun Char.isDigit ds) {r : Piece × Nat} (hr : numeral negative ds rest = r)
    (h : (r.1, r.2 - 1) = (.token t, n)) : n ≤ cs.length ∧ Declared (c :: cs.take n) (some t) ∧ t.Fits := by
  obtain ⟨piece, m⟩ := r
  cases h
  obtain ⟨k, rfl, hk, hdecl, hfits⟩ := numeral_declared hd hr
  have hpos : 0 < (minus negative ++ ds).length := by
    rw [List.length_append]
    exact Nat.add_pos_right _ (List.length_pos_iff.mpr hd.1)
  have hlen : cs.length + 1 = (minus negative ++ ds).length + rest.length := by
    rw [← List.length_append, ← htext, List.length_cons]
  have htake : c :: cs.take ((minus negative ++ ds).length + k - 1) = minus negative ++ ds ++ rest.take k := by
    rw [← List.take_succ_cons, Nat.sub_add_cancel (by omega), htext, List.take_length_add_append]
  refine ⟨by dsimp only; omega, ?_, hfits⟩
  dsimp only
  rwa [htake]

theorem takeWhile_digits (h : c.isDigit) (cs : List Char) : IsRun Char.isDigit ((c :: cs).takeWhile Char.isDigit) :=
  isRun_takeWhile (by simp [h])

/-- A token that is found is declared, and its number fits. -/
theorem first_token (h : first c cs = (.token t, n)) :
    n ≤ cs.length ∧ Declared (c :: cs.take n) (some t) ∧ t.Fits := by
  by_cases hb : isBlank c
  · simp [first, hb] at h
  by_cases ha : c.isAlpha
  · rw [first_letter ha] at h
    cases h
    refine ⟨(List.takeWhile_prefix _).length_le, ?_, trivial⟩
    rw [take_takeWhile]
    exact .ident ha fun _ hc => List.mem_takeWhile_imp hc
  by_cases hd : c.isDigit
  · rw [first_digit hd] at h
    exact numeral_first false (List.takeWhile_append_dropWhile).symm (takeWhile_digits hd cs) rfl h
  have mark {w : List Char} {t : Token} (hm : (c :: w, t) ∈ marks) (hw : w <+: cs) (ht : t.Fits) :
      w.length ≤ cs.length ∧ Declared (c :: cs.take w.length) (some t) ∧ t.Fits := by
    rw [← List.prefix_iff_eq_take.mp hw]
    exact ⟨hw.length_le, .mark hm, ht⟩
  unfold first at h
  rw [if_neg hb, if_neg ha, if_neg hd] at h
  split at h
  any_goals (cases h; exact mark (w := []) (by simp [marks]) List.nil_prefix trivial)
  · cases h
  · obtain ⟨hrun, rfl, rfl⟩ := sigil_token h
    exact ⟨(List.takeWhile_prefix _).length_le, by rw [take_takeWhile]; exact .var hrun, trivial⟩
  · obtain ⟨hrun, rfl, rfl⟩ := sigil_token h
    exact ⟨(List.takeWhile_prefix _).length_le, by rw [take_takeWhile]; exact .global hrun, trivial⟩
  · obtain ⟨hrun, rfl, hlt, rfl⟩ := parameter_token h
    exact ⟨(List.takeWhile_prefix _).length_le, by rw [take_takeWhile]; exact .arg hrun, hlt⟩
  · split at h
    · cases h
      exact mark (w := ['.', '.']) (by simp [marks]) ⟨_, rfl⟩ trivial
    · cases h
  · split at h
    · cases h
      exact mark (w := ['>']) (by simp [marks]) ⟨_, rfl⟩ trivial
    · split at h
      · cases h
      · next hne =>
        refine numeral_first true ?_ (isRun_takeWhile hne) rfl h
        simp [minus]
  · cases h

/-- What is skipped besides blanks is a comment. -/
theorem first_skipped (hb : isBlank c = false) (h : first c cs = (.skipped, n)) :
    c = ';' ∧ n = (cs.takeWhile (· != '\n')).length := by
  have no_numeral {negative : Bool} {ds rest : List Char} {m : Nat} :
      ((numeral negative ds rest).1, m) ≠ (.skipped, n) := fun he => by
    have outcome := numeral_cases negative ds rest
    generalize numeral negative ds rest = r at he outcome
    cases outcome <;> cases he
  have no_sigil {make : String → Token} : sigil make cs ≠ (.skipped, n) := fun he => by
    unfold sigil at he
    split at he <;> cases he
  have no_parameter : parameter cs ≠ (.skipped, n) := fun he => by
    unfold parameter at he
    split at he
    · cases he
    · split at he <;> cases he
  by_cases ha : c.isAlpha
  · rw [first_letter ha] at h
    cases h
  by_cases hd : c.isDigit
  · rw [first_digit hd] at h
    exact absurd h no_numeral
  unfold first at h
  rw [if_neg (by simp [hb]), if_neg ha, if_neg hd] at h
  split at h
  · cases h
    exact ⟨rfl, rfl⟩
  any_goals cases h
  · exact absurd h no_sigil
  · exact absurd h no_sigil
  · exact absurd h no_parameter
  · split at h <;> cases h
  · split at h
    · cases h
    · split at h
      · cases h
      · exact absurd h no_numeral

/-- A number behind an optional minus, at the start of a text that goes on with something else than a digit. -/
theorem isSigned_first {number rest : List Char} {x : Char} (hs : IsSigned number) (hx : x.isDigit = false)
    (h : number ++ x :: rest <+: c :: cs) : ∃ negative ds tail, minus negative ++ ds = number ∧ IsRun Char.isDigit ds ∧
      x :: rest <+: tail ∧
      first c cs = ((numeral negative ds tail).1, (numeral negative ds tail).2 - 1) := by
  obtain ⟨sign, ds, rfl, rfl | rfl, hd⟩ := hs
  · obtain ⟨hrun, htail⟩ := takeWhile_of_run hd.2 hx h
    refine ⟨false, ds, _, rfl, hd, htail, ?_⟩
    obtain ⟨d, ds, rfl⟩ := List.exists_cons_of_ne_nil hd.1
    have hc : d = c := (List.cons_prefix_cons.mp h).1
    rw [← hrun]
    exact first_digit (hc ▸ hd.2 d (.head _)) cs
  · rw [List.append_assoc, List.singleton_append, List.cons_prefix_cons] at h
    obtain ⟨rfl, h⟩ := h
    obtain ⟨hrun, htail⟩ := takeWhile_of_run hd.2 hx h
    exact ⟨true, ds, _, rfl, hd, htail, first_minus hd.1 hrun⟩

theorem first_mark (h : (c :: p, t) ∈ marks) (hp : p <+: cs) : first c cs = (.token t, p.length) := by
  obtain ⟨tail, rfl⟩ := hp
  simp only [marks, List.mem_cons, List.not_mem_nil, or_false, Prod.mk.injEq, List.cons.injEq] at h
  rcases h with ⟨⟨rfl, rfl⟩, rfl⟩ | ⟨⟨rfl, rfl⟩, rfl⟩ | ⟨⟨rfl, rfl⟩, rfl⟩ | ⟨⟨rfl, rfl⟩, rfl⟩ | ⟨⟨rfl, rfl⟩, rfl⟩ |
    ⟨⟨rfl, rfl⟩, rfl⟩ | ⟨⟨rfl, rfl⟩, rfl⟩ | ⟨⟨rfl, rfl⟩, rfl⟩ | ⟨⟨rfl, rfl⟩, rfl⟩ | ⟨⟨rfl, rfl⟩, rfl⟩ |
    ⟨⟨rfl, rfl⟩, rfl⟩ <;> rfl

theorem first_blank (h : isBlank c) (cs : List Char) : first c cs = (.skipped, 0) := by simp [first, h]

/-- Blanks are the only pieces that start with a blank. -/
theorem declared_blank (hb : isBlank c) (hk : Declared (c :: p) k) : k = none ∧ ∀ x ∈ p, isBlank x := by
  have signed {number rest : List Char} (hs : IsSigned number) (h : c :: p = number ++ rest) : False := by
    obtain ⟨sign, ds, rfl, rfl | rfl, hd⟩ := hs
    · obtain ⟨d, ds, rfl⟩ := List.exists_cons_of_ne_nil hd.1
      obtain rfl : c = d := (List.cons.inj h).1
      rw [isBlank_eq_false (by simp [Char.isAlphanum, hd.2 c (.head _)])] at hb
      cases hb
    · obtain rfl : c = '-' := (List.cons.inj h).1
      cases hb
  cases hk with
  | blanks hrun => exact ⟨rfl, fun x hx => hrun.2 x (.tail _ hx)⟩
  | mark hm =>
    have hf := first_mark hm List.prefix_rfl
    rw [first_blank hb] at hf
    cases hf
  | intLiteral htext hs => exact (signed hs htext).elim
  | floatLiteral htext hs => exact (signed hs (by simpa using htext)).elim
  | number hrun =>
    rw [isBlank_eq_false (by simp [Char.isAlphanum, hrun.2 c (.head _)])] at hb
    cases hb
  | ident hc =>
    rw [isBlank_eq_false (by simp [Char.isAlphanum, hc])] at hb
    cases hb
  | _ => cases hb

/-- No declared piece is longer than the one that is found, and one of the same length is the same. -/
theorem first_longest (hk : Declared (c :: p) k) (hp : p <+: cs) (hb : isBlank c = false)
    (hr : (first c cs).1 ≠ .unreadable) :
    p.length ≤ (first c cs).2 ∧ (p.length = (first c cs).2 → (first c cs).1 = Piece.of k) := by
  have run {q : Char → Bool} (make : String → Token) (hq : ∀ x ∈ p, q x)
      (hf : first c cs = (.token (make (String.ofList (cs.takeWhile q))), (cs.takeWhile q).length))
      (hk : k = some (make (String.ofList p))) :
      p.length ≤ (first c cs).2 ∧ (p.length = (first c cs).2 → (first c cs).1 = Piece.of k) := by
    rw [hf]
    refine ⟨length_le_takeWhile hq hp, fun hl => ?_⟩
    rw [hk, eq_takeWhile hp hl]
    rfl
  have literal {make : String → Token} {negative : Bool} {ds tail q : List Char} {m : Nat}
      (hf : first c cs = ((numeral negative ds tail).1, (numeral negative ds tail).2 - 1))
      (hn : numeral negative ds tail = (.token (make (String.ofList (minus negative ++ ds ++ tail.take m))),
        (minus negative ++ ds).length + m)) (hq : q <+: tail) (hm : q.length ≤ m)
      (htext : c :: p = minus negative ++ ds ++ q) (hk : k = some (make (String.ofList (c :: p)))) :
      p.length ≤ (first c cs).2 ∧ (p.length = (first c cs).2 → (first c cs).1 = Piece.of k) := by
    have hlen := congrArg List.length htext
    rw [List.length_cons, List.length_append] at hlen
    rw [hf, hn]
    dsimp only
    refine ⟨by omega, fun hl => ?_⟩
    have hqm : q = tail.take m := by
      have : q.length = m := by
        by_contra hne
        omega
      rw [← this]
      exact List.prefix_iff_eq_take.mp hq
    rw [hk, htext, hqm]
    rfl
  cases hk with
  | blanks hrun =>
    rw [hrun.2 c (.head _)] at hb
    cases hb
  | comment hcs =>
    have hf : first ';' cs = (.skipped, (cs.takeWhile (· != '\n')).length) := rfl
    rw [hf]
    exact ⟨length_le_takeWhile (fun x hx => by simpa using hcs x hx) hp, fun _ => rfl⟩
  | mark hm =>
    rw [first_mark hm hp]
    exact ⟨Nat.le_refl _, fun _ => rfl⟩
  | var hrun => exact run .var hrun.2 (sigil_of_run .var hrun hp) rfl
  | global hrun => exact run .global hrun.2 (sigil_of_run .global hrun hp) rfl
  | arg hrun =>
    have hf : first '$' cs = parameter cs := rfl
    rw [hf, parameter_of_run hrun hp] at hr ⊢
    refine ⟨length_le_takeWhile hrun.2 hp, fun hl => ?_⟩
    dsimp only at hr ⊢
    rw [eq_takeWhile hp hl]
    split at hr
    · next hlt => rw [if_pos hlt]; rfl
    · exact absurd rfl hr
  | @intLiteral _ number width htext hs hw =>
    obtain ⟨negative, ds, tail, rfl, hd, htail, hf⟩ := isSigned_first (x := '_') hs (by decide)
      (htext ▸ List.cons_prefix_cons.mpr ⟨rfl, hp⟩)
    obtain ⟨w, hn, hle⟩ := numeral_of_integer negative ds hw htail
    exact literal hf hn htail hle htext rfl
  | @floatLiteral _ number places width htext hs hpl hw =>
    have htext' : c :: p = number ++ '.' :: (places ++ '_' :: 'f' :: width) := by simpa using htext
    obtain ⟨negative, ds, tail, rfl, hd, htail, hf⟩ := isSigned_first (x := '.') hs (by decide)
      (htext' ▸ List.cons_prefix_cons.mpr ⟨rfl, hp⟩)
    obtain ⟨w, hn, hle⟩ := numeral_of_fraction negative ds hpl hw htail
    exact literal hf hn htail (by simp; omega) htext' rfl
  | number hrun =>
    have hc : c.isDigit := hrun.2 c (.head _)
    have hpre : c :: p <+: c :: cs := List.cons_prefix_cons.mpr ⟨rfl, hp⟩
    have hle := length_le_takeWhile hrun.2 hpre
    rw [first_digit hc] at hr ⊢
    cases hn : numeral false ((c :: cs).takeWhile Char.isDigit) ((c :: cs).dropWhile Char.isDigit) with
    | mk piece n =>
      rw [hn] at hr
      dsimp only at hr ⊢
      cases piece with
      | unreadable => exact absurd rfl hr
      | skipped =>
        have outcome := numeral_cases false ((c :: cs).takeWhile Char.isDigit) ((c :: cs).dropWhile Char.isDigit)
        rw [hn] at outcome
        cases outcome
      | token t =>
        obtain ⟨hmin, hexact⟩ := numeral_digits hn
        rw [minus, if_neg (by simp), List.nil_append] at hmin hexact
        rw [List.length_cons] at hle
        refine ⟨by omega, fun hl => ?_⟩
        rw [hexact (by omega), ← eq_takeWhile hpre (by rw [List.length_cons]; omega)]
        rfl
  | ident hc hcs =>
    exact run (fun name => .ident (String.ofList (c :: name.toList))) hcs (by simpa using first_letter hc cs) (by simp)

end First
end Lexeme
end StackAssembler.Script
