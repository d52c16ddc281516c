import StackAssembler.Proofs.Decimals
import StackAssembler.Proofs.LongestMatch

/-! Scripts written anew from their tokens. Spaces keep the tokens apart: none of them goes on over a space, and none
starts a comment. -/
namespace StackAssembler.Script
namespace Lexeme
open Text

/-! ### Texts of tokens -/

/-- A token as it stands in a script. The end of a line is a line feed there, and other tokens are shown as they are. -/
def written : Token → String
  | .newline => "\n"
  | t => t.text

/-- A token that some text has. -/
def Spelled (t : Token) : Prop := (∃ piece, Declared piece (some t)) ∧ t.Fits

theorem mark_written {cs : List Char} {t : Token} (h : (cs, t) ∈ marks) : (written t).toList = cs := by
  simp only [marks, List.mem_cons, Prod.mk.injEq, List.not_mem_nil, or_false] at h
  rcases h with h | h | h | h | h | h | h | h | h | h | h <;> rw [h.1, h.2] <;> rfl

/-- What is written for a token stands for it, however it was spelled. -/
theorem declared_written {piece : List Char} {t : Token} (h : Declared piece (some t)) :
    Declared (written t).toList (some t) := by
  cases h with
  | mark hm => exact mark_written hm ▸ .mark hm
  | @var cs hrun =>
    have htext : (written (.var (String.ofList cs))).toList = '%' :: cs := by simp [written, Token.text]
    exact htext ▸ .var hrun
  | @global cs hrun =>
    have htext : (written (.global (String.ofList cs))).toList = '@' :: cs := by simp [written, Token.text]
    exact htext ▸ .global hrun
  | @arg ds =>
    have htext : (written (.arg (digitsValue ds))).toList = '$' :: (toString (digitsValue ds)).toList := by
      simp [written, Token.text]
    have hdecl := Declared.arg (isRun_toString (digitsValue ds))
    rwa [digitsValue_toString, ← htext] at hdecl
  | intLiteral hcs hs hw =>
    rw [written, Token.text, String.toList_ofList]
    · exact .intLiteral hcs hs hw
    · exact nofun
  | floatLiteral hcs hs hp hw =>
    rw [written, Token.text, String.toList_ofList]
    · exact .floatLiteral hcs hs hp hw
    · exact nofun
  | number =>
    have hdecl := Declared.number (isRun_toString (digitsValue piece))
    rwa [digitsValue_toString] at hdecl
  | ident hc hcs =>
    rw [written, Token.text, String.toList_ofList]
    · exact .ident hc hcs
    · exact nofun

/-! ### Spaces -/

/-- Neither a blank nor the sign in front of a comment. -/
def isSolid (c : Char) : Bool := !isBlank c && c != ';'

theorem isSolid_of_isNameChar {c : Char} (h : isNameChar c) : isSolid c := by
  simp only [isNameChar, Bool.or_eq_true, beq_iff_eq] at h
  rcases h with (h | rfl) | rfl
  · have hne : c ≠ ';' := by
      rintro rfl
      revert h
      decide
    simp [isSolid, isBlank_eq_false h, hne]
  · decide
  · decide

theorem isSolid_of_isDigit {c : Char} (h : c.isDigit) : isSolid c :=
  isSolid_of_isNameChar (by simp [isNameChar, Char.isAlphanum, h])

theorem isSolid_of_isSigned {cs : List Char} (h : IsSigned cs) : ∀ c ∈ cs, isSolid c := by
  obtain ⟨sign, ds, rfl, hsign, hd⟩ := h
  refine List.forall_mem_append.mpr ⟨?_, fun c hc => isSolid_of_isDigit (hd.2 c hc)⟩
  rcases hsign with rfl | rfl
  · exact List.forall_mem_nil _
  · exact List.forall_mem_singleton.mpr rfl

/-- A token has no blank inside, and nothing of a comment. -/
theorem Declared.solid {cs : List Char} {t : Token} (h : Declared cs (some t)) : ∀ c ∈ cs, isSolid c := by
  have digits {ds : List Char} (hd : IsRun Char.isDigit ds) : ∀ c ∈ ds, isSolid c :=
    fun c hc => isSolid_of_isDigit (hd.2 c hc)
  have names {ns : List Char} (hn : ∀ c ∈ ns, isNameChar c) : ∀ c ∈ ns, isSolid c :=
    fun c hc => isSolid_of_isNameChar (hn c hc)
  cases h with
  | mark hm =>
    have hall : ∀ m ∈ marks, m.1.all isSolid := by decide
    exact List.all_eq_true.mp (hall _ hm)
  | var hrun | global hrun => exact List.forall_mem_cons.mpr ⟨rfl, names hrun.2⟩
  | arg hrun => exact List.forall_mem_cons.mpr ⟨rfl, digits hrun⟩
  | intLiteral hcs hs hw =>
    subst hcs
    refine List.forall_mem_append.mpr ⟨isSolid_of_isSigned hs, ?_⟩
    exact List.forall_mem_cons.mpr ⟨rfl, List.forall_mem_cons.mpr ⟨rfl, digits hw⟩⟩
  | floatLiteral hcs hs hp hw =>
    subst hcs
    rw [List.append_assoc]
    refine List.forall_mem_append.mpr ⟨isSolid_of_isSigned hs, List.forall_mem_append.mpr ⟨?_, ?_⟩⟩
    · exact List.forall_mem_cons.mpr ⟨rfl, digits hp⟩
    · exact List.forall_mem_cons.mpr ⟨rfl, List.forall_mem_cons.mpr ⟨rfl, digits hw⟩⟩
  | number hrun => exact digits hrun
  | ident hc hcs =>
    refine List.forall_mem_cons.mpr ⟨isSolid_of_isNameChar ?_, names hcs⟩
    simp [isNameChar, Char.isAlphanum, hc]

/-- What starts with a character of a token is a token. -/
theorem Declared.exists_token {c : Char} {cs : List Char} {k : Option Token} (h : Declared (c :: cs) k) (hc : isSolid c) :
    ∃ t, k = some t := by
  cases k with
  | some t => exact ⟨t, rfl⟩
  | none =>
    cases h with
    | blanks hrun => simp [isSolid, hrun.2 c (.head _)] at hc
    | comment => exact absurd hc (by decide)

/-- A token is read to its end where a space follows, or nothing. -/
theorem longest_of_space {piece rest : List Char} {t : Token} (h : Declared piece (some t))
    (hrest : ∀ c ∈ rest.head?, c = ' ') : Longest (piece ++ rest) piece (some t) := by
  refine ⟨h, List.prefix_append _ _, fun other k hd hs => ?_⟩
  by_contra hlt
  rcases List.prefix_or_prefix_of_prefix hs (List.prefix_append piece rest) with hle | ⟨more, rfl⟩
  · exact hlt hle.length_le
  · -- What is longer has the space that follows, but it starts like the token.
    have hmore : more <+: rest := (List.prefix_append_right_inj piece).mp hs
    obtain ⟨c, p, rfl⟩ := List.exists_cons_of_ne_nil h.ne_nil
    obtain ⟨t', rfl⟩ := hd.exists_token (h.solid c (.head _))
    cases more with
    | nil => simp at hlt
    | cons d ds =>
      obtain ⟨rest', rfl⟩ := hmore
      have hsolid := hd.solid d (by simp)
      rw [hrest d rfl] at hsolid
      exact absurd hsolid (by decide)

/-! ### Tokens with spaces between them -/

theorem Cut.spelled {offset : Nat} {text : List Char} {us : List PlacedToken} (h : Cut offset text us) :
    ∀ u ∈ us, Spelled u.token := by
  induction h with
  | done => exact List.forall_mem_nil _
  | skip _ _ ih => exact ih
  | token hl hfits _ ih => exact List.forall_mem_cons.mpr ⟨⟨⟨_, hl.declared⟩, hfits⟩, ih⟩

theorem cut_written (offset : Nat) {ts : List Token} (hts : ∀ t ∈ ts, Spelled t) :
    ∃ us, Cut offset ([' '].intercalate (ts.map fun t => (written t).toList)) us ∧ us.map (·.token) = ts := by
  induction ts generalizing offset with
  | nil => exact ⟨[], .done, rfl⟩
  | cons t ts ih =>
    obtain ⟨⟨⟨_, hpiece⟩, hfits⟩, hts⟩ := List.forall_mem_cons.mp hts
    have hwritten := declared_written hpiece
    cases ts with
    | nil =>
      have hend : ∀ c ∈ ([] : List Char).head?, c = ' ' := nofun
      have hl : Longest (written t).toList (written t).toList (some t) := by
        simpa using longest_of_space hwritten hend
      refine ⟨[⟨t, ⟨offset, offset + bytes (written t).toList⟩⟩], ?_, rfl⟩
      rw [List.map_singleton, List.intercalate_singleton]
      exact .token hl hfits (by rw [List.drop_length]; exact .done)
    | cons t' ts =>
      obtain ⟨us, hcut, hus⟩ := ih (offset + bytes (written t).toList + bytes [' ']) hts
      refine ⟨⟨t, ⟨offset, offset + bytes (written t).toList⟩⟩ :: us, ?_, by rw [List.map_cons, hus]⟩
      rw [List.map_cons] at hcut ⊢
      rw [List.map_cons, List.intercalate_cons_cons, List.append_assoc]
      refine .token (longest_of_space hwritten (by simp)) hfits ?_
      rw [List.drop_left]
      exact (cut_blank (by decide)).mpr hcut

end Lexeme

/-- The tokens of a script written with single spaces between them, and nothing for the end of input. -/
def respell (ts : List PlacedToken) : String :=
  " ".intercalate ((ts.filter (·.token ≠ .endOfInput)).map fun t => Lexeme.written t.token)

/-- No text stands for the end of input. -/
theorem Lexeme.Spelled.ne_endOfInput {t : Token} (h : Spelled t) : t ≠ .endOfInput := by
  rintro rfl
  obtain ⟨⟨_, hpiece⟩, -⟩ := h
  cases hpiece with
  | mark hm => simp [marks] at hm

theorem toList_respell {us : List PlacedToken} (h : ∀ u ∈ us, u.token ≠ .endOfInput) (span : Span) :
    (respell (us ++ [⟨.endOfInput, span⟩])).toList =
      [' '].intercalate ((us.map (·.token)).map fun t => (Lexeme.written t).toList) := by
  have hfilter : (us ++ [(⟨.endOfInput, span⟩ : PlacedToken)]).filter (·.token ≠ .endOfInput) = us := by
    rw [List.filter_append, List.filter_eq_self.mpr fun u hu => by simpa using h u hu]
    simp
  rw [respell, hfilter, String.toList_intercalate, List.map_map, List.map_map]
  rfl

/-- A script that is written anew from its tokens has the same tokens. -/
theorem tokens_respell {source : String} {ts : List PlacedToken} (h : tokens source = .ok ts) :
    ∃ us, tokens (respell ts) = .ok us ∧ us.map (·.token) = ts.map (·.token) := by
  obtain ⟨vs, hscan, rfl⟩ := tokens_eq_ok.mp h
  have hspelled := ((Lexeme.scan_iff 0 source.toList vs).mp hscan).spelled
  obtain ⟨us, hcut, hus⟩ := Lexeme.cut_written 0 (List.forall_mem_map.mpr hspelled)
  rw [← toList_respell fun v hv => (hspelled v hv).ne_endOfInput] at hcut
  refine ⟨_, tokens_eq_ok.mpr ⟨us, (Lexeme.scan_iff _ _ _).mpr hcut, rfl⟩, ?_⟩
  rw [List.map_append, List.map_append, hus]
  rfl

/-- Numbers with zeros in front, tokens without a space between them, a comment and an empty line. -/
theorem tokens_respell_crowded :
    ∃ ts us, tokens "add $001,%x;spill\n\n  010_x -1_i8x" = .ok ts ∧
      respell ts = "add $1 , %x \n \n 10 _ x -1_i8 x" ∧ tokens (respell ts) = .ok us ∧
      us.map (·.token) = [.ident "add", .arg 1, .comma, .var "x", .newline, .newline, .number 10, .underscore, .ident "x",
        .intLiteral "-1_i8", .ident "x", .endOfInput] := by
  have htext : (tokens "add $001,%x;spill\n\n  010_x -1_i8x").map respell =
      .ok "add $1 , %x \n \n 10 _ x -1_i8 x" := by decide +kernel
  have hkinds : (tokens "add $001,%x;spill\n\n  010_x -1_i8x").map (fun ts => ts.map (·.token)) =
      .ok [.ident "add", .arg 1, .comma, .var "x", .newline, .newline, .number 10, .underscore, .ident "x",
        .intLiteral "-1_i8", .ident "x", .endOfInput] := by decide +kernel
  cases hts : tokens "add $001,%x;spill\n\n  010_x -1_i8x" with
  | error e =>
    rw [hts] at htext
    cases htext
  | ok ts =>
    rw [hts] at htext hkinds
    obtain ⟨us, hus, hsame⟩ := tokens_respell hts
    exact ⟨ts, us, rfl, Except.ok.inj htext, hus, hsame.trans (Except.ok.inj hkinds)⟩

end StackAssembler.Script
