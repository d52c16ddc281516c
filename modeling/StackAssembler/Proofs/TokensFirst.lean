import StackAssembler.CommandLine
import StackAssembler.Proofs.Extents

/-! Reading all tokens before a script is parsed. No run of a readable script is changed by that, and no other script
runs: what parsing reports of it is its first unreadable piece, or stands in front of that. -/
namespace StackAssembler.Script
open CommandLine (Options plan)

/-- In front of an unreadable piece there are only tokens. -/
def Unreadable.IsFirst (u : Unreadable) (xs : List (Except Unreadable PlacedToken)) : Prop :=
  ∃ (ts : List PlacedToken) (rest : List (Except Unreadable PlacedToken)), xs = ts.map .ok ++ .error u :: rest

section
variable {u : Unreadable} {t : PlacedToken} {xs : List (Except Unreadable PlacedToken)}

theorem isFirst_cons_error {v : Unreadable} : u.IsFirst (.error v :: xs) ↔ u = v := by
  constructor
  · rintro ⟨ts, rest, h⟩
    cases ts with
    | nil => exact (Except.error.inj (List.cons.inj h).1).symm
    | cons t ts => cases (List.cons.inj h).1
  · rintro rfl
    exact ⟨[], xs, rfl⟩

theorem isFirst_cons_ok : u.IsFirst (.ok t :: xs) ↔ u.IsFirst xs := by
  constructor
  · rintro ⟨ts, rest, h⟩
    cases ts with
    | nil => cases (List.cons.inj h).1
    | cons t' ts => exact ⟨ts, rest, (List.cons.inj h).2⟩
  · rintro ⟨ts, rest, rfl⟩
    exact ⟨t :: ts, rest, rfl⟩

theorem Unreadable.IsFirst.mem (h : u.IsFirst xs) : .error u ∈ xs := by
  obtain ⟨ts, rest, rfl⟩ := h
  simp

/-- Taking tokens one by one fails at the first unreadable piece. -/
theorem mapM_eq_error {f : Except Unreadable PlacedToken → Except ScriptError PlacedToken}
    (hok : ∀ t, f (.ok t) = .ok t) (herror : ∀ u, f (.error u) = .error (.lexer u.text u.span)) {e : ScriptError} :
    xs.mapM f = .error e ↔ ∃ u : Unreadable, u.IsFirst xs ∧ e = .lexer u.text u.span := by
  induction xs with
  | nil =>
    refine ⟨nofun, fun ⟨u, h, _⟩ => ?_⟩
    cases h.mem
  | cons x xs ih =>
    rw [List.mapM_cons]
    cases x with
    | error v =>
      rw [herror]
      simp only [isFirst_cons_error, exists_eq_left]
      exact ⟨fun h => (Except.error.inj h).symm, fun h => h ▸ rfl⟩
    | ok t =>
      simp only [isFirst_cons_ok, ← ih, hok]
      cases xs.mapM f with
      | error e' => exact Iff.rfl
      | ok ts => exact ⟨nofun, nofun⟩

end

variable {source : String} {u : Unreadable}

/-- What is reported of the tokens is the first unreadable piece. -/
theorem tokens_eq_error {e : ScriptError} : tokens source = .error e ↔
    ∃ u : Unreadable, u.IsFirst (Lexeme.scan 0 source.toList) ∧ e = .lexer u.text u.span := by
  unfold tokens
  dsimp only
  generalize hm : (List.mapM _ (TokenStream.ofSource source).pending : Except ScriptError _) = r
  have reported : r = .error e ↔ ∃ u : Unreadable, u.IsFirst (Lexeme.scan 0 source.toList) ∧
      e = .lexer u.text u.span := by
    rw [← hm]
    exact mapM_eq_error (fun _ => rfl) fun _ => rfl
  rw [← reported]
  cases r with
  | error e' => exact Iff.rfl
  | ok ts => exact ⟨nofun, nofun⟩

/-! ### Parsing in front of an unreadable piece -/

/-- Reading does not get behind an unreadable piece. -/
def Invariant.before (u : Unreadable) : Invariant where
  left s := u.IsFirst s.pending ∧ s.pending.Pairwise fun i j => (itemSpan i).stop ≤ (itemSpan j).start
  place p := p.stop ≤ u.span.start
  error e := e = .lexer u.text u.span ∨ ∃ f p, e = .parser f p ∧ p.stop ≤ u.span.start
  next := by
    rintro ⟨pending, size, lastStop⟩ ⟨hfirst, hordered⟩
    match pending with
    | [] => cases hfirst.mem
    | .ok t :: rest =>
      have hrest := isFirst_cons_ok.mp hfirst
      obtain ⟨ht, hordered⟩ := List.pairwise_cons.mp hordered
      exact ⟨ht _ hrest.mem, hrest, hordered⟩
    | .error v :: rest =>
      rw [isFirst_cons_error] at hfirst
      exact .inl (hfirst ▸ rfl)
  peek := by
    rintro ⟨pending, size, lastStop⟩ hleft
    match pending with
    | [] => exact hleft
    | .ok t :: rest => exact hleft
    | .error v :: rest =>
      have hfirst := isFirst_cons_error.mp hleft.1
      exact .inl (hfirst ▸ rfl)
  fault f h := .inr ⟨f, _, rfl, h⟩

theorem parse_before (h : u.IsFirst (Lexeme.scan 0 source.toList)) :
    ∃ e, Parser.parse source = .error e ∧ (Invariant.before u).error e := by
  cases hparse : Parser.parse source with
  | error e =>
    have hleft : (Invariant.before u).left (TokenStream.ofSource source) := ⟨h, (scan_ordered 0 source.toList).2⟩
    exact ⟨e, rfl, (Parser.parse_reads _ hleft).2 e hparse⟩
  | ok script =>
    obtain ⟨ts, hts, -⟩ := Parser.parse_eq_ok.mp hparse
    have hmem := h.mem
    rw [hts] at hmem
    simp at hmem

/-! ### Runs -/

theorem run_of_tokens {ts : List PlacedToken} (h : tokens source = .ok ts) : run source true = run source false := by
  unfold run
  simp only [h]
  rfl

theorem run_of_tokens_error {e : ScriptError} (h : tokens source = .error e) : run source true = (.error e, {}) := by
  unfold run
  simp only [h]
  rfl

theorem run_of_parse_error {e : ScriptError} (h : Parser.parse source = .error e) :
    run source false = (.error e, {}) := by
  unfold run
  simp only [h]
  rfl

/-- Whatever else is asked for, reading all tokens first changes nothing for a readable script. For any other one it
reports the first unreadable piece; and without it that piece is reported or a fault at a token in front of it. -/
theorem run_tokensFirst (source : String) :
    (∀ ts, tokens source = .ok ts → run source true = run source false ∧
      ∀ o : Options, (plan { o with dumpTokens := true } (.ok source)).result =
        (plan { o with dumpTokens := false } (.ok source)).result) ∧
    ∀ e, tokens source = .error e → ∃ (u : Unreadable) (e' : ScriptError),
      u.IsFirst (Lexeme.scan 0 source.toList) ∧ e = .lexer u.text u.span ∧
      (e' = e ∨ ∃ f p, e' = .parser f p ∧ p.stop ≤ u.span.start) ∧
      run source true = (.error e, {}) ∧ run source false = (.error e', {}) ∧
      ∀ o : Options, (plan { o with dumpTokens := true } (.ok source)).result = .error e.chain ∧
        (plan { o with dumpTokens := false } (.ok source)).result = .error e'.chain := by
  constructor
  · intro ts hts
    have hrun := run_of_tokens hts
    refine ⟨hrun, fun o => ?_⟩
    unfold plan
    simp only [hrun]
  · intro e he
    obtain ⟨u, hu, rfl⟩ := tokens_eq_error.mp he
    obtain ⟨e', hparse, he'⟩ := parse_before hu
    have hfirst := run_of_tokens_error he
    have hplain := run_of_parse_error hparse
    refine ⟨u, e', hu, rfl, he', hfirst, hplain, fun o => ?_⟩
    unfold plan
    simp only [hfirst, hplain]
    exact ⟨rfl, rfl⟩

/-- A script that is readable, and a word that is no statement in front of a character that starts no token. -/
theorem run_tokensFirst_overtaken :
    (∃ ts, tokens "module m" = .ok ts ∧ run "module m" true = run "module m" false) ∧
    run "halt ?" true = (.error (.lexer "?" ⟨5, 6⟩), {}) ∧
    run "halt ?" false = (.error (.parser (.unknownStatement "halt") ⟨0, 4⟩), {}) := by
  have hts : tokens "module m" = .ok [⟨.ident "module", ⟨0, 6⟩⟩, ⟨.ident "m", ⟨7, 8⟩⟩, ⟨.endOfInput, ⟨8, 8⟩⟩] := by
    decide +kernel
  have he : tokens "halt ?" = .error (.lexer "?" ⟨5, 6⟩) := by decide +kernel
  have hparse : Parser.parse "halt ?" = .error (.parser (.unknownStatement "halt") ⟨0, 4⟩) := by decide +kernel
  obtain ⟨_, _, _, _, _, hfirst, _⟩ := (run_tokensFirst "halt ?").2 _ he
  exact ⟨⟨_, hts, ((run_tokensFirst "module m").1 _ hts).1⟩, hfirst, run_of_parse_error hparse⟩

end StackAssembler.Script
