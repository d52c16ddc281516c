import Mathlib.Data.String.Basic
import StackAssembler.Proofs.Lexis

/-! A script is cut into pieces, each of which is the longest declared one at its place. The tokens are those that
stand for the pieces, and a text has tokens exactly if it can be cut. -/
namespace StackAssembler.Script
namespace Lexeme
open Text

/-- The longest declared piece at the start of a text. -/
structure Longest (text piece : List Char) (k : Option Token) : Prop where
  declared : Declared piece k
  start : piece <+: text
  longest : ∀ other k', Declared other k' → other <+: text → other.length ≤ piece.length

/-- The tokens of a text that starts at a byte offset when it is cut into longest pieces. -/
inductive Cut : Nat → List Char → List PlacedToken → Prop where
  | done {offset : Nat} : Cut offset [] []
  | skip {offset : Nat} {text piece : List Char} {ts : List PlacedToken} : Longest text piece none →
      Cut (offset + bytes piece) (text.drop piece.length) ts → Cut offset text ts
  | token {offset : Nat} {text piece : List Char} {t : Token} {ts : List PlacedToken} : Longest text piece (some t) →
      t.Fits → Cut (offset + bytes piece) (text.drop piece.length) ts →
      Cut offset text (⟨t, ⟨offset, offset + bytes piece⟩⟩ :: ts)

theorem Declared.ne_nil {cs : List Char} {k : Option Token} (h : Declared cs k) : cs ≠ [] := by
  rintro rfl
  cases h with
  | blanks h | number h => exact h.1 rfl
  | mark h => simp [marks] at h
  | intLiteral h | floatLiteral h => simp at h

namespace Longest
variable {c : Char} {cs text piece : List Char} {k : Option Token}

/-- The piece has the first character of the text. -/
theorem exists_cons (h : Longest (c :: cs) piece k) : ∃ p, piece = c :: p ∧ p <+: cs := by
  obtain ⟨d, p, rfl⟩ := List.exists_cons_of_ne_nil h.declared.ne_nil
  obtain ⟨rfl, hp⟩ := List.cons_prefix_cons.mp h.start
  exact ⟨p, rfl, hp⟩

theorem eq_of_run {q : Char → Bool} {p : List Char} {k' : Option Token} (h : Longest (c :: cs) (c :: p) k)
    (hq : ∀ x ∈ p, q x) (hd : Declared (c :: cs.takeWhile q) k') : p = cs.takeWhile q := by
  have hp : p <+: cs := (List.cons_prefix_cons.mp h.start).2
  have hle := h.longest _ _ hd (List.cons_prefix_cons.mpr ⟨rfl, List.takeWhile_prefix q⟩)
  simp only [List.length_cons] at hle
  exact eq_takeWhile hp (Nat.le_antisymm (length_le_takeWhile hq hp) (by omega))

end Longest

/-! ### What is unreadable -/

section Unreadable
variable {c : Char} {cs p : List Char} {k : Option Token} {n : Nat}

/-- Where no token is found, the longest piece has a number that does not fit, or digits that end at the point of a
fraction. -/
theorem unreadable_cases (hf : first c cs = (.unreadable, n)) (h : Longest (c :: cs) (c :: p) k) :
    (∃ t, k = some t ∧ ¬ t.Fits) ∨
      c.isDigit ∧ ∃ d tail, (c :: cs).drop (c :: p).length = '.' :: d :: tail ∧ d.isDigit := by
  have hp : p <+: cs := (List.cons_prefix_cons.mp h.start).2
  have found {r : Piece × Nat} (hr : first c cs = r) (hne : r.1 ≠ .unreadable) : False := by
    rw [hf] at hr
    exact hne (hr ▸ rfl)
  have hdecl := h.declared
  cases hdecl with
  | blanks hrun => exact (found (first_blank (hrun.2 c (.head _)) cs) nofun).elim
  | comment => exact (found (r := (.skipped, _)) rfl nofun).elim
  | mark hm => exact (found (first_mark hm hp) nofun).elim
  | var hrun => exact (found (sigil_of_run .var hrun hp) nofun).elim
  | global hrun => exact (found (sigil_of_run .global hrun hp) nofun).elim
  | arg hrun =>
    have hall := h.eq_of_run hrun.2 (.arg (isRun_takeWhile fun he => hrun.1 ?_))
    · refine Or.inl ⟨_, rfl, fun hfits => ?_⟩
      refine found (parameter_of_run hrun hp) ?_
      rw [← hall]
      dsimp only
      rw [if_pos (show digitsValue p < Nat.pow 2 32 from hfits)]
      nofun
    · have := length_le_takeWhile hrun.2 hp
      rw [he] at this
      exact List.length_eq_zero_iff.mp (Nat.le_zero.mp this)
  | intLiteral htext hs hw =>
    obtain ⟨negative, ds, tail, rfl, hd, htail, hfirst⟩ := isSigned_first (x := '_') hs (by decide) (htext ▸ h.start)
    obtain ⟨w, hn, _⟩ := numeral_of_integer negative ds hw htail
    exact (found hfirst (by rw [hn]; nofun)).elim
  | @floatLiteral _ number places width htext hs hpl hw =>
    have htext' : c :: p = number ++ '.' :: (places ++ '_' :: 'f' :: width) := by simpa using htext
    obtain ⟨negative, ds, tail, rfl, hd, htail, hfirst⟩ := isSigned_first (x := '.') hs (by decide) (htext' ▸ h.start)
    obtain ⟨w, hn, _⟩ := numeral_of_fraction negative ds hpl hw htail
    exact (found hfirst (by rw [hn]; nofun)).elim
  | number hrun =>
    have hc : c.isDigit := hrun.2 c (.head _)
    have hcons (xs : List Char) : (c :: xs).takeWhile Char.isDigit = c :: xs.takeWhile Char.isDigit := by simp [hc]
    have hdigits := Declared.number (takeWhile_digits hc cs)
    rw [hcons] at hdigits
    have hall : p = cs.takeWhile Char.isDigit := h.eq_of_run (fun x hx => hrun.2 x (.tail _ hx)) hdigits
    have hdrop : (c :: cs).drop (c :: p).length = (c :: cs).dropWhile Char.isDigit := by
      conv => lhs; rw [← List.takeWhile_append_dropWhile (p := Char.isDigit) (l := c :: cs), hcons, ← hall]
      exact List.drop_left
    rw [first_digit hc, hcons, ← hall] at hf
    have outcome := numeral_cases false (c :: p) ((c :: cs).dropWhile Char.isDigit)
    generalize numeral false (c :: p) ((c :: cs).dropWhile Char.isDigit) = r at hf outcome
    cases outcome with
    | unfinished hrest hdigit => exact Or.inr ⟨hc, _, _, hdrop.trans hrest, hdigit⟩
    | unfit hbad => exact Or.inl ⟨_, rfl, Nat.not_lt.mpr (hbad.resolve_left nofun)⟩
    | _ => cases hf
  | ident hc => exact (found (first_letter hc cs) nofun).elim

theorem Cut.cons_inv {offset : Nat} {us : List PlacedToken} (h : Cut offset (c :: cs) us) :
    ∃ p k, Longest (c :: cs) (c :: p) k ∧ (∀ t ∈ k, t.Fits) ∧
      ∃ ts, us = (k.map fun t => ⟨t, ⟨offset, offset + bytes (c :: p)⟩⟩).toList ++ ts ∧
        Cut (offset + bytes (c :: p)) ((c :: cs).drop (c :: p).length) ts := by
  cases h with
  | skip hl hcut =>
    obtain ⟨p, rfl, _⟩ := hl.exists_cons
    exact ⟨p, none, hl, nofun, _, rfl, hcut⟩
  | token hl hfits hcut =>
    obtain ⟨p, rfl, _⟩ := hl.exists_cons
    exact ⟨p, _, hl, fun t ht => Option.some.inj ht ▸ hfits, _, rfl, hcut⟩

/-- A text that starts with something unreadable cannot be cut. -/
theorem not_cut (hf : first c cs = (.unreadable, n)) {offset : Nat} {us : List PlacedToken} :
    ¬ Cut offset (c :: cs) us := by
  intro h
  obtain ⟨p, k, hl, hfits, ts, _, hcut⟩ := h.cons_inv
  rcases unreadable_cases hf hl with ⟨t, rfl, hnot⟩ | ⟨_, d, tail, hdrop, hd⟩
  · exact hnot (hfits t rfl)
  · -- No piece starts with a point in front of a digit.
    rw [hdrop] at hcut
    obtain ⟨p', k', hl', hfits', _⟩ := hcut.cons_inv
    have hpoint : first '.' (d :: tail) = (.unreadable, 0) := by
      have hne : d ≠ '.' := by
        rintro rfl
        cases hd
      rw [first_point]
      split
      · next he => exact absurd (List.cons.inj he).1 hne
      · rfl
    rcases unreadable_cases hpoint hl' with ⟨t, rfl, hnot⟩ | ⟨hdigit, _⟩
    · exact hnot (hfits' t rfl)
    · cases hdigit

end Unreadable
/-! ### Cutting -/

section Cutting
variable {c : Char} {cs p : List Char} {k : Option Token} {n offset : Nat} {us : List PlacedToken}

theorem cut_nil : Cut offset [] us ↔ us = [] := by
  constructor
  · intro h
    cases h with
    | done => rfl
    | skip hl => exact absurd (List.prefix_nil.mp hl.start) hl.declared.ne_nil
    | token hl => exact absurd (List.prefix_nil.mp hl.start) hl.declared.ne_nil
  · rintro rfl
    exact .done

/-- There is one way to go on when the longest piece can be read in one way only. -/
theorem Longest.cut_iff (hl : Longest (c :: cs) (c :: p) k) (hu : ∀ k', Declared (c :: p) k' → k' = k) :
    Cut offset (c :: cs) us ↔ (∀ t ∈ k, t.Fits) ∧
      ∃ ts, us = (k.map fun t => ⟨t, ⟨offset, offset + bytes (c :: p)⟩⟩).toList ++ ts ∧
        Cut (offset + bytes (c :: p)) ((c :: cs).drop (c :: p).length) ts := by
  constructor
  · intro h
    obtain ⟨p', k', hl', hfits, ts, hus, hcut⟩ := h.cons_inv
    have hle := hl.longest _ _ hl'.declared hl'.start
    have hge := hl'.longest _ _ hl.declared hl.start
    have hp : c :: p' = c :: p := by
      rw [List.prefix_iff_eq_take.mp hl'.start, List.prefix_iff_eq_take.mp hl.start, Nat.le_antisymm hle hge]
    obtain rfl : p' = p := (List.cons.inj hp).2
    obtain rfl : k' = k := hu k' hl'.declared
    exact ⟨hfits, ts, hus, hcut⟩
  · rintro ⟨hfits, ts, rfl, hcut⟩
    cases k with
    | none => exact .skip hl hcut
    | some t => exact .token hl (hfits t rfl) hcut

/-- What is found at the start of a text, apart from blanks, is the longest piece. -/
theorem longest_first (hb : isBlank c = false) (hf : first c cs = (Piece.of k, n)) :
    n ≤ cs.length ∧ Longest (c :: cs) (c :: cs.take n) k ∧ (∀ k', Declared (c :: cs.take n) k' → k' = k) ∧
      ∀ t ∈ k, t.Fits := by
  have hr : (first c cs).1 ≠ .unreadable := by
    rw [hf]
    cases k <;> nofun
  obtain ⟨hn, hdecl, hfits⟩ : n ≤ cs.length ∧ Declared (c :: cs.take n) k ∧ ∀ t ∈ k, t.Fits := by
    cases k with
    | some t =>
      obtain ⟨hn, hdecl, hfits⟩ := first_token hf
      exact ⟨hn, hdecl, fun u hu => Option.some.inj hu ▸ hfits⟩
    | none =>
      obtain ⟨rfl, rfl⟩ := first_skipped hb hf
      refine ⟨(List.takeWhile_prefix _).length_le, ?_, nofun⟩
      rw [take_takeWhile]
      exact .comment fun x hx => by simpa using List.mem_takeWhile_imp hx
  refine ⟨hn, ⟨hdecl, List.cons_prefix_cons.mpr ⟨rfl, List.take_prefix n cs⟩, fun other k' hd hs => ?_⟩,
    fun k' hd => ?_, hfits⟩
  · obtain ⟨d, p, rfl⟩ := List.exists_cons_of_ne_nil hd.ne_nil
    obtain ⟨rfl, hp⟩ := List.cons_prefix_cons.mp hs
    have hle := (first_longest hd hp hb hr).1
    rw [hf] at hle
    simpa [hn] using hle
  · have heq := (first_longest hd (List.take_prefix n cs) hb hr).2
    rw [hf, List.length_take, Nat.min_eq_left hn] at heq
    have heq : Piece.of k = Piece.of k' := heq rfl
    cases k <;> cases k' <;> cases heq <;> rfl

/-- A text that starts with a blank is cut behind the last of its first blanks. -/
theorem cut_run (hb : isBlank c) : Cut offset (c :: cs) us ↔
    Cut (offset + bytes (c :: cs.takeWhile isBlank)) (cs.dropWhile isBlank) us := by
  have hrun : IsRun isBlank (c :: cs.takeWhile isBlank) :=
    ⟨nofun, List.forall_mem_cons.mpr ⟨hb, fun _ hx => List.mem_takeWhile_imp hx⟩⟩
  have hl : Longest (c :: cs) (c :: cs.takeWhile isBlank) none := by
    refine ⟨.blanks hrun, List.cons_prefix_cons.mpr ⟨rfl, List.takeWhile_prefix _⟩, fun other k' hd hs => ?_⟩
    obtain ⟨d, p, rfl⟩ := List.exists_cons_of_ne_nil hd.ne_nil
    obtain ⟨rfl, hp⟩ := List.cons_prefix_cons.mp hs
    exact Nat.succ_le_succ (length_le_takeWhile (declared_blank hb hd).2 hp)
  have hdrop : (c :: cs).drop (c :: cs.takeWhile isBlank).length = cs.dropWhile isBlank := by
    rw [List.length_cons, List.drop_succ_cons]
    conv => lhs; arg 2; rw [← List.takeWhile_append_dropWhile (p := isBlank) (l := cs)]
    exact List.drop_left
  rw [hl.cut_iff fun k' hd => (declared_blank hb hd).1, hdrop]
  simp

/-- Blanks can be left out one by one. -/
theorem cut_blank (hb : isBlank c) : Cut offset (c :: cs) us ↔ Cut (offset + bytes [c]) cs us := by
  rw [cut_run hb]
  cases cs with
  | nil => rw [List.dropWhile_nil, cut_nil, cut_nil]
  | cons d cs =>
    by_cases hd : isBlank d
    · rw [cut_run hd]
      simp [hd, bytes, Nat.add_assoc]
    · simp [hd]

/-- The tokens of a text, all of which is readable, are those of its cut. -/
theorem scan_iff (offset : Nat) (cs : List Char) (us : List PlacedToken) :
    scan offset cs = us.map .ok ↔ Cut offset cs us := by
  induction offset, cs using scan.induct generalizing us with
  | case1 offset =>
    rw [cut_nil, scan]
    simp [eq_comm]
  | case2 offset c cs n lexeme stop hf ih =>
    rw [scan, hf]
    change scan stop (cs.drop n) = us.map .ok ↔ _
    rw [ih]
    cases hb : isBlank c with
    | true =>
      rw [first_blank hb] at hf
      cases hf
      exact (cut_blank hb).symm
    | false =>
      obtain ⟨hn, hl, hu, _⟩ := longest_first (k := none) hb hf
      rw [hl.cut_iff hu]
      simp [hn, stop, lexeme]
  | case3 offset c cs n lexeme stop t hf ih =>
    have hb : isBlank c = false := by
      rw [Bool.eq_false_iff]
      intro hb
      rw [first_blank hb] at hf
      cases hf
    obtain ⟨hn, hl, hu, hfits⟩ := longest_first (k := some t) hb hf
    rw [scan, hf, hl.cut_iff hu]
    change .ok ⟨t, ⟨offset, stop⟩⟩ :: scan stop (cs.drop n) = us.map .ok ↔ _
    have hdrop : (c :: cs).drop (c :: cs.take n).length = cs.drop n := by simp [hn]
    rw [hdrop]
    constructor
    · intro h
      cases us with
      | nil => cases h
      | cons u ts =>
        obtain ⟨hu, hts⟩ := List.cons.inj h
        exact ⟨hfits, ts, by rw [← Except.ok.inj hu]; rfl, (ih ts).mp hts⟩
    · rintro ⟨_, ts, rfl, hcut⟩
      rw [(ih ts).mpr hcut]
      rfl
  | case4 offset c cs n lexeme stop hf ih =>
    rw [scan, hf]
    constructor
    · intro h
      cases us <;> cases h
    · exact fun h => absurd h (not_cut hf)

end Cutting

/-! ### Where tokens stand -/

theorem bytes_append (xs ys : List Char) : bytes (xs ++ ys) = bytes xs + bytes ys := by
  induction xs with
  | nil => exact (Nat.zero_add _).symm
  | cons x xs ih =>
    change x.utf8Size + bytes (xs ++ ys) = x.utf8Size + bytes xs + bytes ys
    rw [ih, Nat.add_assoc]

theorem bytes_pos {cs : List Char} (h : cs ≠ []) : 0 < bytes cs := by
  obtain ⟨c, cs, rfl⟩ := List.exists_cons_of_ne_nil h
  exact Nat.lt_of_lt_of_le c.utf8Size_pos (Nat.le_add_right _ _)

theorem bytes_toList (s : String) : bytes s.toList = s.utf8ByteSize := by
  have hlen (cs : List Char) : bytes cs = String.utf8Len cs := by
    induction cs with
    | nil => rfl
    | cons c cs ih =>
      rw [String.utf8Len_cons, ← ih, Nat.add_comm]
      rfl
  rw [hlen, ← String.utf8ByteSize_ofList, String.ofList_toList]

/-- A token covers the bytes of a declared piece of the text. -/
def Covers (text : List Char) (offset : Nat) (t : PlacedToken) : Prop :=
  ∃ before piece after, text = before ++ piece ++ after ∧ Declared piece (some t.token) ∧
    t.span = ⟨offset + bytes before, offset + bytes before + bytes piece⟩

theorem Covers.behind {text rest piece : List Char} {offset : Nat} {t : PlacedToken} (hs : text = piece ++ rest)
    (h : Covers rest (offset + bytes piece) t) : Covers text offset t := by
  obtain ⟨before, p, after, rfl, hd, hspan⟩ := h
  refine ⟨piece ++ before, p, after, by simp [hs], hd, ?_⟩
  rw [hspan, bytes_append, Nat.add_assoc]

namespace Cut
variable {offset : Nat} {text : List Char} {us : List PlacedToken}

theorem covers (h : Cut offset text us) : ∀ t ∈ us, Covers text offset t := by
  induction h with
  | done => nofun
  | skip hl _ ih => exact fun t ht => (ih t ht).behind (List.prefix_iff_eq_append.mp hl.start).symm
  | @token offset text piece t ts hl _ _ ih =>
    have hs : text = piece ++ text.drop piece.length := (List.prefix_iff_eq_append.mp hl.start).symm
    refine List.forall_mem_cons.mpr ⟨⟨[], piece, _, hs, hl.declared, rfl⟩, fun u hu => (ih u hu).behind hs⟩

/-- Tokens stand one behind the other. -/
theorem pairwise (h : Cut offset text us) : us.Pairwise fun t u => t.span.stop ≤ u.span.start := by
  induction h with
  | done => exact .nil
  | skip _ _ ih => exact ih
  | token _ _ hcut ih =>
    refine .cons (fun u hu => ?_) ih
    obtain ⟨before, piece, after, _, _, hspan⟩ := hcut.covers u hu
    rw [hspan]
    exact Nat.le_add_right _ _

end Cut
end Lexeme

/-! ### The tokens of a script -/

private theorem mapM_readable {f : Except Unreadable PlacedToken → Except ScriptError PlacedToken}
    (hok : ∀ t, f (.ok t) = .ok t) (herror : ∀ u, ∃ e, f (.error u) = .error e)
    (xs : List (Except Unreadable PlacedToken)) (us : List PlacedToken) : xs.mapM f = .ok us ↔ xs = us.map .ok := by
  induction xs generalizing us with
  | nil =>
    cases us with
    | nil => exact ⟨fun _ => rfl, fun _ => rfl⟩
    | cons u us => exact ⟨nofun, nofun⟩
  | cons x xs ih =>
    rw [List.mapM_cons]
    cases x with
    | error u =>
      obtain ⟨e, he⟩ := herror u
      rw [he]
      cases us <;> exact ⟨nofun, nofun⟩
    | ok t =>
      rw [hok]
      cases hxs : xs.mapM f with
      | error e =>
        refine ⟨nofun, fun h => ?_⟩
        cases us with
        | nil => cases h
        | cons u us =>
          rw [(ih us).mpr (List.cons.inj h).2] at hxs
          cases hxs
      | ok ts =>
        obtain rfl := (ih ts).mp hxs
        constructor
        · intro h
          cases h
          rfl
        · intro h
          cases us with
          | nil => cases h
          | cons u us =>
            obtain ⟨ht, hts⟩ := List.cons.inj h
            cases ht
            rw [(ih us).mpr hts] at hxs
            cases hxs
            rfl

/-- The tokens of a readable script are those that are scanned, and the end of input. -/
theorem tokens_eq_ok {source : String} {ts : List PlacedToken} :
    tokens source = .ok ts ↔ ∃ us, Lexeme.scan 0 source.toList = us.map .ok ∧
      ts = us ++ [⟨.endOfInput, ⟨source.utf8ByteSize, source.utf8ByteSize⟩⟩] := by
  unfold tokens
  dsimp only
  generalize hm : (List.mapM _ (TokenStream.ofSource source).pending : Except ScriptError _) = r
  have readable (us : List PlacedToken) : r = .ok us ↔ Lexeme.scan 0 source.toList = us.map .ok := by
    rw [← hm]
    exact mapM_readable (fun _ => rfl) (fun _ => ⟨_, rfl⟩) _ us
  cases r with
  | error e =>
    refine ⟨nofun, fun ⟨us, hus, _⟩ => ?_⟩
    cases (readable us).mpr hus
  | ok vs =>
    constructor
    · intro h
      cases h
      exact ⟨vs, (readable vs).mp rfl, rfl⟩
    · rintro ⟨us, hus, rfl⟩
      cases (readable us).mpr hus
      rfl

/-- A script has tokens exactly if it can be cut into longest declared pieces with numbers that fit, and then they are
those of its cut, with the end of input behind them. Their byte ranges are not empty, they lie in the text, each at
the piece that it stands for, and they come one behind the other. -/
theorem tokens_eq_cut (source : String) :
    (∀ ts, tokens source = .ok ts ↔ ∃ us, Lexeme.Cut 0 source.toList us ∧
      ts = us ++ [⟨.endOfInput, ⟨source.utf8ByteSize, source.utf8ByteSize⟩⟩]) ∧
    ∀ us, Lexeme.Cut 0 source.toList us →
      (∀ t ∈ us, t.span.start < t.span.stop ∧ t.span.stop ≤ source.utf8ByteSize ∧
        Lexeme.Covers source.toList 0 t) ∧
      us.Pairwise fun t u => t.span.stop ≤ u.span.start := by
  constructor
  · intro ts
    simp only [tokens_eq_ok, Lexeme.scan_iff]
  · refine fun us h => ⟨fun t ht => ?_, h.pairwise⟩
    obtain ⟨before, piece, after, htext, hd, hspan⟩ := h.covers t ht
    have hpos := Lexeme.bytes_pos hd.ne_nil
    have hsize := Lexeme.bytes_toList source
    rw [htext, Lexeme.bytes_append, Lexeme.bytes_append] at hsize
    have hstart : t.span.start < t.span.stop ∧ t.span.stop ≤ source.utf8ByteSize := by
      rw [hspan]
      dsimp only
      omega
    exact ⟨hstart.1, hstart.2, h.covers t ht⟩

/-- Digits that go on like a literal, a literal that goes on like a name, a number in front of an ellipsis, an arrow in
front of a literal, and a comment. -/
theorem tokens_eq_cut_overlaps :
    let us : List PlacedToken := [⟨.number 10, ⟨0, 2⟩⟩, ⟨.underscore, ⟨2, 3⟩⟩, ⟨.ident "x", ⟨3, 4⟩⟩,
      ⟨.intLiteral "1_i8", ⟨5, 9⟩⟩, ⟨.ident "x", ⟨9, 10⟩⟩, ⟨.number 1, ⟨11, 12⟩⟩, ⟨.ellipsis, ⟨12, 15⟩⟩,
      ⟨.arrow, ⟨16, 18⟩⟩, ⟨.intLiteral "-1_i8", ⟨18, 23⟩⟩]
    Lexeme.Cut 0 "10_x 1_i8x 1... ->-1_i8;c".toList us ∧ us.Pairwise fun t u => t.span.stop ≤ u.span.start := by
  intro us
  obtain ⟨cut, stand⟩ := tokens_eq_cut "10_x 1_i8x 1... ->-1_i8;c"
  have hts : tokens "10_x 1_i8x 1... ->-1_i8;c" = .ok (us ++ [⟨.endOfInput, ⟨25, 25⟩⟩]) := by decide +kernel
  obtain ⟨vs, hcut, heq⟩ := (cut _).mp hts
  obtain rfl : us = vs := (List.append_inj' heq rfl).1
  exact ⟨hcut, (stand us hcut).2⟩

end StackAssembler.Script
