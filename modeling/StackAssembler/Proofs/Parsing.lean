import Mathlib.Data.List.Forall2
import StackAssembler.Proofs.LongestMatch
import StackAssembler.Proofs.Phrases

/-! A script is read exactly if each of its lines that is not empty forms a statement, and as those statements. -/
namespace StackAssembler.Script.Parser
open IR Build Grammar TokenStream

section Statements
variable {α : Type} {s s' : TokenStream}

theorem function_ok {c : Command} (hend : AtEnd s') :
    function s = .ok c s' ↔ ∃ ts, Took s ts s' ∧ Follows Evaluates .function ts c := by
  rw [function_eq]
  simp only [bind_ok, functionName_ok, expect_ok (k := .lparen) (by decide), expect_ok (k := .rparen) (by decide),
    pure_ok, Prod.exists]
  constructor
  · rintro ⟨f, t₁, ⟨_, h₁⟩, ⟨_, _⟩, t₂, ⟨h₂, rfl⟩, types, v, t₃, hp, ⟨_, _⟩, t₄, ⟨h₄, rfl⟩, r, _, hr, rfl, rfl⟩
    obtain ⟨ts, h₃, hp⟩ := (parameterList_ok ⟨_, h₄.sees, rfl⟩).mp hp
    obtain ⟨us, h₅, hr⟩ := (resultType_ok hend).mp hr
    exact ⟨_, took_mark.mpr ⟨t₃, t₄, took_cons.mpr ⟨t₁, h₁, took_cons.mpr ⟨t₂, h₂, h₃⟩⟩, h₄, h₅⟩, .function hp hr⟩
  · rintro ⟨_, h, hform⟩
    cases hform with
    | function hp hr =>
      obtain ⟨t₃, t₄, h, h₄, h₅⟩ := took_mark.mp h
      obtain ⟨t₁, h₁, h⟩ := took_cons.mp h
      obtain ⟨t₂, h₂, h₃⟩ := took_cons.mp h
      exact ⟨_, t₁, ⟨_, h₁⟩, _, t₂, ⟨h₂, rfl⟩, _, _, t₃, (parameterList_ok ⟨_, h₄.sees, rfl⟩).mpr ⟨_, h₃, hp⟩, _, t₄,
        ⟨h₄, rfl⟩, _, s', (resultType_ok hend).mpr ⟨_, h₅, hr⟩, rfl, rfl⟩

theorem call_ok {c : Command} : call s = .ok c s' ↔ ∃ ts, Took s ts s' ∧ Follows Evaluates .call ts c := by
  rw [call_eq]
  simp only [bind_ok, functionName_ok, expect_ok (k := .lparen) (by decide), expect_ok (k := .rparen) (by decide),
    pure_ok]
  constructor
  · rintro ⟨f, t₁, ⟨_, h₁⟩, ⟨_, _⟩, t₂, ⟨h₂, rfl⟩, args, t₃, ha, ⟨_, _⟩, t₄, ⟨h₄, rfl⟩, rfl, rfl⟩
    obtain ⟨ts, h₃, ha⟩ := (argumentList_ok ⟨_, h₄.sees, rfl⟩).mp ha
    exact ⟨_, (took_cons.mpr ⟨t₁, h₁, took_cons.mpr ⟨t₂, h₂, h₃⟩⟩).append h₄, .call ha⟩
  · rintro ⟨_, h, hform⟩
    cases hform with
    | call ha =>
      obtain ⟨t₃, h, h₄⟩ := took_append.mp h
      obtain ⟨t₁, h₁, h⟩ := took_cons.mp h
      obtain ⟨t₂, h₂, h₃⟩ := took_cons.mp h
      exact ⟨_, t₁, ⟨_, h₁⟩, _, t₂, ⟨h₂, rfl⟩, _, t₃, (argumentList_ok ⟨_, h₄.sees, rfl⟩).mpr ⟨_, h₃, ha⟩, _, s',
        ⟨h₄, rfl⟩, rfl, rfl⟩

/-- Whether an operand is left out can be seen before it is read. -/
theorem operandGiven_bind_ok {R : Bool → OperandExpr → Reading α} {a : α} :
    (do let explicit ← atOperand
        let e ← optionalOperand
        R explicit e) s = .ok a s' ↔
      (∃ ts e t, Took s ts t ∧ OperandForm Evaluates ts e ∧ R true e t = .ok a s') ∨
        Ahead s (isOperandStart · = false) ∧ R false .stack s = .ok a s' := by
  simp only [bind_ok, atOperand_ok, optionalOperand_ok]
  constructor
  · rintro ⟨b, _, ⟨rfl, x, hx, rfl⟩, e, t, ⟨ts, h, hform, hahead⟩, hR⟩
    cases hform with
    | elided =>
      obtain rfl := took_nil.mp h
      have hb := (Ahead.iff_of_sees hx).mp (hahead rfl)
      rw [hb] at hR
      exact .inr ⟨hahead rfl, hR⟩
    | given he =>
      obtain ⟨y, rest, rfl, hstart⟩ := he.starts
      rw [hx.unique h.sees, hstart] at hR
      exact .inl ⟨_, e, t, h, he, hR⟩
  · rintro (⟨ts, e, t, h, he, hR⟩ | ⟨hahead, hR⟩)
    · obtain ⟨y, rest, rfl, hstart⟩ := he.starts
      exact ⟨true, s, ⟨rfl, _, h.sees, hstart⟩, e, t, ⟨_, h, .given he, nofun⟩, hR⟩
    · exact ⟨false, s, ⟨rfl, hahead⟩, .stack, s, ⟨[], took_nil.mpr rfl, .elided, fun _ => hahead⟩, hR⟩

theorem condBr_ok {c : Command} (hend : AtEnd s') :
    condBr s = .ok c s' ↔ ∃ ts, Took s ts s' ∧ Follows Evaluates .condbr ts c := by
  have targets_ok {t : TokenStream} {cond : OperandExpr} :
      (do let onTrue ← target
          let _ ← expect .comma
          let onFalse ← target
          return .condBr cond onTrue onFalse : Reading Command) t = .ok c s' ↔
      ∃ us x vs onTrue onFalse, Took t (us ++ ⟨.comma, x⟩ :: vs) s' ∧ TargetForm us onTrue ∧ TargetForm vs onFalse ∧
        c = .condBr cond onTrue onFalse := by
    simp only [bind_ok, target_ok, expect_ok (k := .comma) (by decide), pure_ok]
    constructor
    · rintro ⟨x, t₁, ⟨us, h₁, hx⟩, ⟨_, span⟩, t₂, ⟨h₂, rfl⟩, y, _, ⟨vs, h₃, hy⟩, rfl, rfl⟩
      exact ⟨us, span, vs, x, y, took_mark.mpr ⟨t₁, t₂, h₁, h₂, h₃⟩, hx, hy, rfl⟩
    · rintro ⟨us, span, vs, x, y, h, hx, hy, rfl⟩
      obtain ⟨t₁, t₂, h₁, h₂, h₃⟩ := took_mark.mp h
      exact ⟨x, t₁, ⟨us, h₁, hx⟩, _, t₂, ⟨h₂, rfl⟩, y, s', ⟨vs, h₃, hy⟩, rfl, rfl⟩
  unfold condBr
  rw [operandGiven_bind_ok]
  simp only [if_true, Bool.false_eq_true, if_false, accept_bind_ok (k := .comma) (by decide), choose_ok atTarget_ok,
    targets_ok, pure_ok]
  constructor
  · rintro (⟨ts, e, t, h, he, ⟨span, u, h', us, x, vs, onTrue, onFalse, h'', hx, hy, rfl⟩ | ⟨_, rfl, rfl⟩⟩ |
      ⟨_, ⟨_, us, x, vs, onTrue, onFalse, h, hx, hy, rfl⟩ | ⟨_, rfl, rfl⟩⟩)
    · exact ⟨_, took_mark.mpr ⟨t, u, h, h', h''⟩, by simpa using Follows.condBrFull he hx hy⟩
    · exact ⟨ts, h, .condBr (.given he)⟩
    · exact ⟨_, h, .condBrTargets hx hy⟩
    · exact ⟨[], took_nil.mpr rfl, .condBr .elided⟩
  · rintro ⟨ts, h, hform⟩
    cases hform with
    | condBr hcond =>
      cases hcond with
      | elided =>
        obtain rfl := took_nil.mp h
        exact .inr ⟨hend.ahead rfl rfl, .inr ⟨hend.ahead rfl rfl, rfl, rfl⟩⟩
      | given he => exact .inl ⟨ts, _, s', h, he, .inr ⟨hend.ahead nofun nofun, rfl, rfl⟩⟩
    | condBrFull he hx hy =>
      rw [List.append_assoc] at h
      obtain ⟨t, u, h, h', h''⟩ := took_mark.mp h
      exact .inl ⟨_, _, t, h, he, .inl ⟨_, u, h', _, _, _, _, _, h'', hx, hy, rfl⟩⟩
    | condBrTargets hx hy =>
      obtain ⟨x, rest, rfl, hstart⟩ := hx.starts
      refine .inr ⟨⟨_, h.sees, ?_⟩, .inl ⟨⟨_, h.sees, hstart⟩, _, _, _, _, _, h, hx, hy, rfl⟩⟩
      exact not_isOperandStart hstart

theorem alloc_ok {c : Command} (hend : AtEnd s') :
    command .alloc s = .ok c s' ↔ ∃ ts, Took s ts s' ∧ Follows Evaluates .alloc ts c := by
  simp only [command, bind_ok (P := type), type_ok, choose_ok check_ok]
  simp only [bind_ok, variableName_ok, pure_ok]
  constructor
  · rintro ⟨e, t, ⟨ts, h, he, _⟩, ⟨_, w, _, ⟨span, h'⟩, rfl, rfl⟩ | ⟨_, rfl, rfl⟩⟩
    · exact ⟨_, h.append h', .allocNamed he⟩
    · exact ⟨ts, h, .alloc he⟩
  · rintro ⟨_, h, hform⟩
    cases hform with
    | alloc he => exact ⟨_, s', ⟨_, h, he, hend.ahead nofun nofun⟩, .inr ⟨hend.ahead rfl rfl, rfl, rfl⟩⟩
    | allocNamed he =>
      obtain ⟨t, h, h'⟩ := took_append.mp h
      exact ⟨_, t, ⟨_, h, he, _, h'.sees, nofun⟩, .inl ⟨⟨_, h'.sees, rfl⟩, _, s', ⟨_, h'⟩, rfl, rfl⟩⟩

theorem load_ok {c : Command} (hend : AtEnd s') :
    command .load s = .ok c s' ↔ ∃ ts, Took s ts s' ∧ Follows Evaluates .load ts c := by
  simp only [command, bind_ok, type_ok, optionalOperand_ok, pure_ok]
  constructor
  · rintro ⟨e, t, ⟨ts, h, he, _⟩, v, _, ⟨us, h', hv, _⟩, rfl, rfl⟩
    exact ⟨_, h.append h', .load he hv⟩
  · rintro ⟨_, h, hform⟩
    cases hform with
    | load he hv =>
      obtain ⟨t, h, h'⟩ := took_append.mp h
      have hahead : Ahead t (· ≠ .star) := by
        cases hv with
        | elided =>
          obtain rfl := took_nil.mp h'
          exact hend.ahead nofun nofun
        | given hv =>
          obtain ⟨x, rest, rfl, hstart⟩ := hv.starts
          exact ⟨_, h'.sees, fun hx => by rw [hx] at hstart; cases hstart⟩
      exact ⟨_, t, ⟨_, h, he, hahead⟩, _, s', ⟨_, h', hv, fun _ => hend.ahead rfl rfl⟩, rfl, rfl⟩

theorem cmp_ok {c : Command} (hend : AtEnd s') :
    command .cmp s = .ok c s' ↔ ∃ ts, Took s ts s' ∧ Follows Evaluates .cmp ts c := by
  simp only [command, bind_ok, Prod.exists, predicate_ok, operandPair_ok, pure_ok]
  constructor
  · rintro ⟨p, t, ⟨span, h⟩, l, r, _, ⟨ts, h', hp, _⟩, rfl, rfl⟩
    exact ⟨_, took_cons.mpr ⟨t, h, h'⟩, .cmp hp⟩
  · rintro ⟨_, h, hform⟩
    cases hform with
    | cmp hp =>
      obtain ⟨t, h, h'⟩ := took_cons.mp h
      exact ⟨_, t, ⟨_, h⟩, _, _, s', ⟨_, h', hp, fun _ => hend.ahead rfl rfl⟩, rfl, rfl⟩

theorem cast_ok {kind : Conversion} {c : Command} (hend : AtEnd s') :
    command (.cast kind) s = .ok c s' ↔ ∃ ts, Took s ts s' ∧ Follows Evaluates (.cast kind) ts c := by
  simp only [command, bind_ok, optionalOperand_ok, keyword_ok, type_ok, pure_ok]
  constructor
  · rintro ⟨v, t, ⟨ts, h, hv, _⟩, _, u, ⟨span, h'⟩, e, _, ⟨us, h'', he, _⟩, rfl, rfl⟩
    exact ⟨_, took_mark.mpr ⟨t, u, h, h', h''⟩, .cast hv he⟩
  · rintro ⟨_, h, hform⟩
    cases hform with
    | cast hv he =>
      obtain ⟨t, u, h, h', h''⟩ := took_mark.mp h
      exact ⟨_, t, ⟨_, h, hv, fun _ => ⟨_, h'.sees, rfl⟩⟩, (), u, ⟨_, h'⟩, _, s',
        ⟨_, h'', he, hend.ahead nofun nofun⟩, rfl, rfl⟩

section Shapes
variable {P : Reading α} {F : List PlacedToken → α → Prop} {make : α → Command} {k : Keyword} {c : Command}

/-- A word that one phrase follows. -/
theorem phrase_ok (hP : ∀ {a}, P s = .ok a s' ↔ ∃ ts, Took s ts s' ∧ F ts a)
    (hk : ∀ {ts}, Follows Evaluates k ts c ↔ ∃ a, F ts a ∧ c = make a) :
    (do return make (← P)) s = .ok c s' ↔ ∃ ts, Took s ts s' ∧ Follows Evaluates k ts c := by
  simp only [bind_ok, pure_ok, hk]
  constructor
  · rintro ⟨a, _, ha, rfl, rfl⟩
    obtain ⟨ts, h, ha⟩ := hP.mp ha
    exact ⟨ts, h, a, ha, rfl⟩
  · rintro ⟨ts, h, a, ha, rfl⟩
    exact ⟨a, s', hP.mpr ⟨ts, h, ha⟩, rfl, rfl⟩

/-- A word that one phrase follows, or nothing. -/
theorem choice_ok {look : Reading Bool} {q : Token → Bool} {default : Command}
    (hlook : ∀ {b s''}, look s = .ok b s'' ↔ s'' = s ∧ Ahead s fun t => q t = b)
    (hP : ∀ {a}, P s = .ok a s' ↔ ∃ ts, Took s ts s' ∧ F ts a)
    (hstart : ∀ {ts a}, F ts a → ∃ t rest, ts = t :: rest ∧ q t.token) (hend : Ahead s' (q · = false))
    (hk : ∀ {ts}, Follows Evaluates k ts c ↔ (∃ a, F ts a ∧ c = make a) ∨ ts = [] ∧ c = default) :
    (do if ← look then return make (← P) else return default) s = .ok c s' ↔
      ∃ ts, Took s ts s' ∧ Follows Evaluates k ts c := by
  rw [choose_ok hlook]
  simp only [bind_ok, pure_ok, hk]
  constructor
  · rintro (⟨_, a, _, ha, rfl, rfl⟩ | ⟨_, rfl, rfl⟩)
    · obtain ⟨ts, h, ha⟩ := hP.mp ha
      exact ⟨ts, h, .inl ⟨a, ha, rfl⟩⟩
    · exact ⟨[], took_nil.mpr rfl, .inr ⟨rfl, rfl⟩⟩
  · rintro ⟨ts, h, ⟨a, ha, rfl⟩ | ⟨rfl, rfl⟩⟩
    · obtain ⟨t, rest, rfl, ht⟩ := hstart ha
      exact .inl ⟨⟨_, h.sees, ht⟩, a, s', hP.mpr ⟨_, h, ha⟩, rfl, rfl⟩
    · obtain rfl := took_nil.mp h
      exact .inr ⟨hend, rfl, rfl⟩

/-- A word that stands alone. -/
theorem alone_ok {c' : Command} (hk : ∀ {ts}, Follows Evaluates k ts c ↔ ts = [] ∧ c = c') :
    (pure c' : Reading Command) s = .ok c s' ↔ ∃ ts, Took s ts s' ∧ Follows Evaluates k ts c := by
  simp only [pure_ok, hk]
  constructor
  · rintro ⟨rfl, rfl⟩
    exact ⟨[], took_nil.mpr rfl, rfl, rfl⟩
  · rintro ⟨_, h, rfl, rfl⟩
    exact ⟨rfl, took_nil.mp h⟩

end Shapes

theorem took_token {x : Token} : (∃ span, Took s [⟨x, span⟩] s') ↔ ∃ ts, Took s ts s' ∧ ∃ span, ts = [⟨x, span⟩] := by
  constructor
  · exact fun ⟨span, h⟩ => ⟨_, h, span, rfl⟩
  · rintro ⟨_, h, span, rfl⟩
    exact ⟨span, h⟩

/-- By cases on the word: what follows it is taken to the end of the line, and is what may follow it. -/
theorem command_ok {k : Keyword} {c : Command} (hend : AtEnd s') :
    command k s = .ok c s' ↔ ∃ ts, Took s ts s' ∧ Follows Evaluates k ts c := by
  have pair {p : OperandExpr × OperandExpr} :
      operandPair s = .ok p s' ↔ ∃ ts, Took s ts s' ∧ OperandPair Evaluates ts p.1 p.2 := by
    rw [operandPair_ok]
    exact exists_congr fun ts => and_congr_right fun _ => and_iff_left fun _ => hend.ahead rfl rfl
  have edges {es : List (OperandExpr × TargetExpr)} : (itemBound >>= commaList edge) s = .ok es s' ↔
      ∃ ts, Took s ts s' ∧ CommaList (EdgeForm Evaluates) ts es := by
    rw [itemBound_bind_ok, commaList_ok edge_ok (fun _ => nofun) (Nat.lt_succ_self _)]
    exact exists_congr fun ts => and_congr_right fun _ => and_iff_left (hend.ahead nofun nofun)
  cases k with
  | function => exact function_ok hend
  | alloc => exact alloc_ok hend
  | load => exact load_ok hend
  | cmp => exact cmp_ok hend
  | condbr => exact condBr_ok hend
  | call => exact call_ok
  | cast kind => exact cast_ok hend
  | module =>
    refine phrase_ok (name_ok.trans took_token) ⟨?_, ?_⟩
    · rintro ⟨⟩
      exact ⟨_, ⟨_, rfl⟩, rfl⟩
    · rintro ⟨_, ⟨_, rfl⟩, rfl⟩
      exact .module
  | use =>
    refine phrase_ok (functionName_ok.trans took_token) ⟨?_, ?_⟩
    · rintro ⟨⟩
      exact ⟨_, ⟨_, rfl⟩, rfl⟩
    · rintro ⟨_, ⟨_, rfl⟩, rfl⟩
      exact .use
  | block =>
    refine phrase_ok (name_ok.trans took_token) ⟨?_, ?_⟩
    · rintro ⟨⟩
      exact ⟨_, ⟨_, rfl⟩, rfl⟩
    · rintro ⟨_, ⟨_, rfl⟩, rfl⟩
      exact .block
  | setBlock =>
    refine phrase_ok (name_ok.trans took_token) ⟨?_, ?_⟩
    · rintro ⟨⟩
      exact ⟨_, ⟨_, rfl⟩, rfl⟩
    · rintro ⟨_, ⟨_, rfl⟩, rfl⟩
      exact .setBlock
  | store =>
    refine phrase_ok pair ⟨?_, ?_⟩
    · rintro ⟨⟩
      exact ⟨(_, _), ‹_›, rfl⟩
    · rintro ⟨_, hp, rfl⟩
      exact .store hp
  | binary op =>
    refine phrase_ok pair ⟨?_, ?_⟩
    · rintro ⟨⟩
      exact ⟨(_, _), ‹_›, rfl⟩
    · rintro ⟨_, hp, rfl⟩
      exact .binary hp
  | phi =>
    refine phrase_ok edges ⟨?_, ?_⟩
    · rintro ⟨⟩
      exact ⟨_, ‹_›, rfl⟩
    · rintro ⟨_, hes, rfl⟩
      exact .phi hes
  | push =>
    refine phrase_ok operand_ok ⟨?_, ?_⟩
    · rintro ⟨⟩
      exact ⟨_, ‹_›, rfl⟩
    · rintro ⟨_, he, rfl⟩
      exact .push he
  | br =>
    refine choice_ok atTarget_ok target_ok TargetForm.starts (hend.ahead rfl rfl) ⟨?_, ?_⟩
    · rintro ⟨⟩
      · exact .inr ⟨rfl, rfl⟩
      · exact .inl ⟨_, ‹_›, rfl⟩
    · rintro (⟨_, he, rfl⟩ | ⟨rfl, rfl⟩)
      · exact .brTarget he
      · exact .br
  | ret =>
    refine choice_ok atOperand_ok operand_ok OperandForm.starts (hend.ahead rfl rfl) ⟨?_, ?_⟩
    · rintro ⟨⟩
      · exact .inr ⟨rfl, rfl⟩
      · exact .inl ⟨_, ‹_›, rfl⟩
    · rintro (⟨_, he, rfl⟩ | ⟨rfl, rfl⟩)
      · exact .retValue he
      · exact .ret
  | pop =>
    refine choice_ok check_ok (number_ok.trans took_token) ?_ (hend.ahead rfl rfl) ⟨?_, ?_⟩
    · rintro _ _ ⟨_, rfl⟩
      exact ⟨_, _, rfl, rfl⟩
    · rintro ⟨⟩
      · exact .inr ⟨rfl, rfl⟩
      · exact .inl ⟨_, ⟨_, rfl⟩, rfl⟩
    · rintro (⟨_, ⟨_, rfl⟩, rfl⟩ | ⟨rfl, rfl⟩)
      · exact .popCount
      · exact .pop
  | keepStack => exact alone_ok ⟨fun h => by cases h; exact ⟨rfl, rfl⟩, fun ⟨h, h'⟩ => h ▸ h' ▸ .keepStack⟩
  | inspect => exact alone_ok ⟨fun h => by cases h; exact ⟨rfl, rfl⟩, fun ⟨h, h'⟩ => h ▸ h' ▸ .inspect⟩
  | last => exact alone_ok ⟨fun h => by cases h; exact ⟨rfl, rfl⟩, fun ⟨h, h'⟩ => h ▸ h' ▸ .last⟩

theorem statement_ok {st : Statement} (hend : AtEnd s') :
    statement s = .ok st s' ↔ ∃ ts, Took s ts s' ∧ Forms Evaluates ts st := by
  unfold statement
  rw [next_bind_ok fun _ _ => throw_ok]
  constructor
  · rintro ⟨⟨x, span⟩, u, h, hf⟩
    cases x with
    | ident w =>
      dsimp only at hf
      cases hk : Keyword.ofWord? w with
      | some k =>
        rw [hk] at hf
        obtain rfl := Keyword.ofWord?_eq_some.mp hk
        simp only [bind_ok, get_ok, pure_ok] at hf
        obtain ⟨c, _, hc, _, _, ⟨rfl, rfl⟩, rfl, rfl⟩ := hf
        obtain ⟨ts, h', hform⟩ := (command_ok hend).mp hc
        refine ⟨_, took_cons.mpr ⟨u, h, h'⟩, ?_⟩
        rw [h'.lastStop, h.lastStop]
        exact .mk hform
      | none =>
        rw [hk] at hf
        exact absurd hf throw_ok
    | _ => exact absurd hf throw_ok
  · rintro ⟨_, h, hform⟩
    cases hform with
    | @mk k span ts c hform =>
      obtain ⟨u, h, h'⟩ := took_cons.mp h
      refine ⟨_, u, h, ?_⟩
      dsimp only
      rw [Keyword.ofWord?_eq_some.mpr rfl]
      refine bind_ok.mpr ⟨c, s', (command_ok hend).mpr ⟨ts, h', hform⟩, bind_ok.mpr ⟨s', s', rfl, ?_⟩⟩
      rw [h'.lastStop, h.lastStop]
      rfl

/-! ### Scripts -/

/-- A stream without a token for the end of input has it only behind its last token. -/
def Endless (s : TokenStream) : Prop := ∀ t, .ok t ∈ s.pending → t.token ≠ .endOfInput

theorem Endless.took {ts : List PlacedToken} (hs : Endless s) (h : Took s ts s') : Endless s' := fun t ht =>
  hs t (h.pending ▸ List.mem_append_right _ ht)

theorem sameKind_endOfInput {t : Token} : t.sameKind .endOfInput = true ↔ t = .endOfInput := by
  cases t <;> simp [Token.sameKind]

theorem Endless.ahead_end (hs : Endless s) : Ahead s (·.sameKind .endOfInput = true) ↔ s.pending = [] := by
  simp only [sameKind_endOfInput]
  constructor
  · rintro ⟨x, hx, rfl⟩
    generalize he : Token.endOfInput = x at hx
    cases hx with
    | token hp => exact absurd he.symm (hs _ (hp ▸ .head _))
    | done hp => exact hp
  · exact fun hp => ⟨_, .done hp, rfl⟩

theorem endOfStatement_ok : endOfStatement s = .ok () s' ↔
    (Ahead s (·.sameKind .endOfInput = true) ∧ s' = s) ∨ ∃ span, Took s [⟨.newline, span⟩] s' := by
  unfold endOfStatement
  rw [choose_ok check_ok, pure_ok, only_ok (fun _ => .newline) nofun fun _ _ => rfl]
  · constructor
    · rintro (⟨hahead, _, rfl⟩ | ⟨_, h⟩)
      · exact .inl ⟨hahead, rfl⟩
      · exact .inr h
    · rintro (⟨hahead, rfl⟩ | ⟨span, h⟩)
      · exact .inl ⟨hahead, rfl, rfl⟩
      · exact .inr ⟨⟨_, h.sees, rfl⟩, span, h⟩
  · rintro ⟨x, span⟩ h
    cases x <;> first | exact ⟨_, rfl⟩ | exact absurd rfl (h ())

theorem atEnd_of_endOfStatement (h : endOfStatement s = .ok () s') : AtEnd s := by
  rcases endOfStatement_ok.mp h with ⟨hahead, _⟩ | ⟨span, h⟩
  · exact hahead.imp fun _ ht => .inr (sameKind_endOfInput.mp ht)
  · exact ⟨_, h.sees, .inl rfl⟩

/-- A statement and the end of its line: a line, and the newline behind it if there is one. -/
theorem line_ok {st : Statement} (hs : Endless s) :
    (∃ t, statement s = .ok st t ∧ endOfStatement t = .ok () s') ↔ ∃ line, Forms Evaluates line st ∧
      (Took s line s' ∧ s'.pending = [] ∨ ∃ span, Took s (line ++ [⟨.newline, span⟩]) s') := by
  constructor
  · rintro ⟨t, hst, hend⟩
    obtain ⟨line, h, hform⟩ := (statement_ok (atEnd_of_endOfStatement hend)).mp hst
    rcases endOfStatement_ok.mp hend with ⟨hahead, rfl⟩ | ⟨span, h'⟩
    · exact ⟨line, hform, .inl ⟨h, (hs.took h).ahead_end.mp hahead⟩⟩
    · exact ⟨line, hform, .inr ⟨span, h.append h'⟩⟩
  · rintro ⟨line, hform, ⟨h, hp⟩ | ⟨span, h⟩⟩
    · refine ⟨s', (statement_ok ⟨_, .done hp, .inr rfl⟩).mpr ⟨line, h, hform⟩, ?_⟩
      exact endOfStatement_ok.mpr (.inl ⟨(hs.took h).ahead_end.mpr hp, rfl⟩)
    · obtain ⟨t, h, h'⟩ := took_append.mp h
      refine ⟨t, (statement_ok ⟨_, h'.sees, .inl rfl⟩).mpr ⟨line, h, hform⟩, ?_⟩
      exact endOfStatement_ok.mpr (.inr ⟨span, h'⟩)

/-- One step of reading the statements, unless there is nothing but the end of a line to take. -/
theorem statements_succ_ok {fuel : Nat} {script : List Statement} (hs : Endless s) :
    statements (fuel + 1) s = .ok script s' ↔
      (∃ span u, Took s [⟨.newline, span⟩] u ∧ statements fuel u = .ok script s') ∨
      (s.pending = [] ∧ script = [] ∧ s' = s) ∨
      ∃ line st u more, Forms Evaluates line st ∧
        (Took s line u ∧ u.pending = [] ∨ ∃ span, Took s (line ++ [⟨.newline, span⟩]) u) ∧
        statements fuel u = .ok more s' ∧ script = st :: more := by
  simp only [statements, accept_bind_ok (k := .newline) (by decide), choose_ok check_ok, hs.ahead_end, pure_ok]
  simp only [bind_ok, pure_ok]
  constructor
  · rintro (h | ⟨_, ⟨hp, rfl, rfl⟩ | ⟨_, st, t, hst, ⟨⟩, u, hend, more, _, hmore, rfl, rfl⟩⟩)
    · exact .inl h
    · exact .inr (.inl ⟨hp, rfl, rfl⟩)
    · obtain ⟨line, hform, hu⟩ := (line_ok hs).mp ⟨t, hst, hend⟩
      exact .inr (.inr ⟨line, st, u, more, hform, hu, hmore, rfl⟩)
  · rintro (h | ⟨hp, rfl, rfl⟩ | ⟨line, st, u, more, hform, hu, hmore, rfl⟩)
    · exact .inl h
    · exact .inr ⟨⟨_, .done hp, nofun⟩, .inl ⟨hp, rfl, rfl⟩⟩
    · obtain ⟨t, hst, hend⟩ := (line_ok hs).mpr ⟨line, hform, hu⟩
      obtain ⟨w, hw⟩ : ∃ w, Sees s (.ident w) := by
        cases hform
        rcases hu with ⟨h, _⟩ | ⟨_, h⟩ <;> exact ⟨_, h.sees⟩
      exact .inr ⟨⟨_, hw, nofun⟩, .inr ⟨⟨_, hw, rfl⟩, st, t, hst, (), u, hend, more, s', hmore, rfl, rfl⟩⟩

/-- By induction on the tokens: each line that is not empty is one statement. -/
theorem statements_ok {fuel : Nat} {script : List Statement} (hs : Endless s) (hfuel : s.pending.length < fuel) :
    (∃ s', statements fuel s = .ok script s') ↔
      ∃ us, s.pending = us.map .ok ∧ List.Forall₂ (Forms Evaluates) (lines us) script := by
  induction fuel generalizing s script with
  | zero => exact absurd hfuel (Nat.not_lt_zero _)
  | succ fuel ih =>
    have shorter {x : PlacedToken} {ts : List PlacedToken} {u : TokenStream} (h : Took s (x :: ts) u) :
        u.pending.length < fuel := Nat.lt_of_lt_of_le h.length_lt (Nat.le_of_lt_succ hfuel)
    simp only [statements_succ_ok hs]
    constructor
    · rintro ⟨s', ⟨span, u, h, hrest⟩ | ⟨hp, rfl, rfl⟩ | ⟨line, st, u, more, hform, hu, hmore, rfl⟩⟩
      · obtain ⟨us, hus, hforms⟩ := (ih (hs.took h) (shorter h)).mp ⟨s', hrest⟩
        exact ⟨_ :: us, by rw [h.pending, hus]; rfl, by rwa [lines_newline]⟩
      · exact ⟨[], hp, .nil⟩
      · have hinline := hform.inline fun _ _ => Evaluates.ne_newline
        obtain ⟨x, rest, rfl⟩ : ∃ x rest, line = x :: rest := by
          cases hform
          exact ⟨_, _, rfl⟩
        rcases hu with ⟨h, hp⟩ | ⟨span, h⟩
        · obtain ⟨us, hus, hforms⟩ := (ih (hs.took h) (shorter h)).mp ⟨s', hmore⟩
          obtain rfl : us = [] := by simpa using hus.symm.trans hp
          refine ⟨x :: rest, by simpa [hp] using h.pending, ?_⟩
          rw [lines_of_inline hinline nofun]
          exact .cons hform hforms
        · obtain ⟨us, hus, hforms⟩ := (ih (hs.took h) (shorter h)).mp ⟨s', hmore⟩
          refine ⟨x :: rest ++ ⟨.newline, span⟩ :: us, by simpa [hus] using h.pending, ?_⟩
          rw [lines_append hinline nofun]
          exact .cons hform hforms
    · rintro ⟨us, hp, hforms⟩
      rcases lines_cases us with rfl | ⟨span, rest, rfl⟩ | ⟨line, hne, hline, hus⟩
      · cases hforms
        exact ⟨s, .inr (.inl ⟨hp, rfl, rfl⟩)⟩
      · obtain ⟨u, h, hu⟩ := exists_took [⟨.newline, span⟩] rest hp
        rw [lines_newline] at hforms
        obtain ⟨s', hrest⟩ := (ih (hs.took h) (shorter h)).mpr ⟨rest, hu, hforms⟩
        exact ⟨s', .inl ⟨span, u, h, hrest⟩⟩
      · obtain ⟨x, line, rfl⟩ := List.exists_cons_of_ne_nil hne
        rcases hus with rfl | ⟨span, rest, rfl⟩
        · rw [lines_of_inline hline hne] at hforms
          cases hforms with
          | cons hform hforms =>
            obtain ⟨u, h, hu⟩ := exists_took (x :: line) [] (by simpa using hp)
            obtain ⟨s', hmore⟩ := (ih (hs.took h) (shorter h)).mpr ⟨[], hu, hforms⟩
            exact ⟨s', .inr (.inr ⟨_, _, u, _, hform, .inl ⟨h, hu⟩, hmore, rfl⟩)⟩
        · rw [lines_append hline hne] at hforms
          cases hforms with
          | cons hform hforms =>
            obtain ⟨u, h, hu⟩ := exists_took (x :: line ++ [⟨.newline, span⟩]) rest (by simpa using hp)
            obtain ⟨s', hmore⟩ := (ih (hs.took h) (shorter h)).mpr ⟨rest, hu, hforms⟩
            exact ⟨s', .inr (.inr ⟨_, _, u, _, hform, .inr ⟨span, h⟩, hmore, rfl⟩)⟩

end Statements

/-- Each token that is scanned stands for a declared piece. -/
theorem scan_declared {offset : Nat} {cs : List Char} {t : PlacedToken} (h : .ok t ∈ Lexeme.scan offset cs) :
    ∃ piece, Lexeme.Declared piece (some t.token) := by
  induction offset, cs using Lexeme.scan.induct with
  | case1 offset =>
    rw [Lexeme.scan] at h
    cases h
  | case2 offset c cs n lexeme stop hf ih =>
    rw [Lexeme.scan, hf] at h
    exact ih h
  | case3 offset c cs n lexeme stop x hf ih =>
    rw [Lexeme.scan, hf] at h
    rcases List.mem_cons.mp h with heq | h
    · cases heq
      exact ⟨_, (Lexeme.first_token hf).2.1⟩
    · exact ih h
  | case4 offset c cs n lexeme stop hf ih =>
    rw [Lexeme.scan, hf] at h
    rcases List.mem_cons.mp h with heq | h
    · cases heq
    · exact ih h

theorem endless_ofSource (source : String) : Endless (TokenStream.ofSource source) := by
  intro t ht he
  obtain ⟨piece, hpiece⟩ := scan_declared ht
  rw [he] at hpiece
  cases hpiece with
  | mark hm => simp [Lexeme.marks] at hm

/-- In tokens that are scanned, what is read from a literal is what it stands for. -/
theorem forall₂_forms_iff {us : List PlacedToken} {script : List Statement}
    (hus : ∀ t ∈ us, ∃ piece, Lexeme.Declared piece (some t.token)) :
    List.Forall₂ (Forms Evaluates) (lines us) script ↔ List.Forall₂ (Forms LiteralForm) (lines us) script := by
  constructor
  · intro h
    have hlines : ∀ line ∈ lines us, Refines Evaluates LiteralForm line := fun line hline t ht e he =>
      let ⟨_, hpiece⟩ := hus t (subset_of_mem_lines hline ht)
      he.literalForm hpiece
    exact ((List.forall₂_and_left _ _).mpr ⟨hlines, h⟩).imp fun _ _ ⟨hr, hform⟩ => hform.imp hr
  · exact fun h => h.imp fun _ _ hform => hform.imp fun _ _ _ => LiteralForm.evaluates

/-- A script is read exactly if it is readable and its lines are statements. -/
theorem parse_eq_ok {source : String} {script : List Statement} :
    parse source = .ok script ↔ ∃ us, Lexeme.scan 0 source.toList = us.map .ok ∧
      List.Forall₂ (Forms LiteralForm) (lines us) script := by
  have hread : parse source = .ok script ↔ ∃ s', statements ((TokenStream.ofSource source).pending.length + 1)
      (TokenStream.ofSource source) = .ok script s' := by
    unfold parse
    dsimp only
    split
    · next found s' heq => simp [heq]
    · next e s' heq => simp [heq]
  rw [hread, statements_ok (endless_ofSource source) (Nat.lt_succ_self _)]
  refine exists_congr fun us => and_congr_right fun hus => forall₂_forms_iff fun t ht => ?_
  have hmem : .ok t ∈ Lexeme.scan 0 source.toList := by
    rw [show Lexeme.scan 0 source.toList = us.map .ok from hus]
    exact List.mem_map_of_mem ht
  exact scan_declared hmem

/-- A script is accepted exactly if it has tokens and each of its lines that is not empty forms a statement; and then
it is those statements, in order. -/
theorem parse_iff_forms (source : String) :
    (∀ script, parse source = .ok script ↔
      ∃ ts, tokens source = .ok ts ∧ List.Forall₂ (Forms LiteralForm) (lines ts.dropLast) script) ∧
    ∀ ts, tokens source = .ok ts →
      ((∃ script, parse source = .ok script) ↔ ∀ line ∈ lines ts.dropLast, ∃ st, Forms LiteralForm line st) := by
  have accepted (script : List Statement) : parse source = .ok script ↔
      ∃ ts, tokens source = .ok ts ∧ List.Forall₂ (Forms LiteralForm) (lines ts.dropLast) script := by
    simp only [parse_eq_ok, tokens_eq_ok]
    constructor
    · rintro ⟨us, hus, hforms⟩
      exact ⟨_, ⟨us, hus, rfl⟩, by rwa [List.dropLast_concat]⟩
    · rintro ⟨_, ⟨us, hus, rfl⟩, hforms⟩
      rw [List.dropLast_concat] at hforms
      exact ⟨us, hus, hforms⟩
  refine ⟨accepted, fun ts hts => ?_⟩
  have hsame : (∃ script, parse source = .ok script) ↔
      ∃ script, List.Forall₂ (Forms LiteralForm) (lines ts.dropLast) script := by
    refine exists_congr fun script => (accepted script).trans ⟨?_, fun h => ⟨ts, hts, h⟩⟩
    rintro ⟨_, hts', h⟩
    rw [hts] at hts'
    cases hts'
    exact h
  rw [hsame]
  generalize lines ts.dropLast = ls
  induction ls with
  | nil => exact ⟨fun _ => nofun, fun _ => ⟨[], .nil⟩⟩
  | cons line ls ih =>
    rw [List.forall_mem_cons]
    refine Iff.trans ?_ (and_congr_right' ih)
    constructor
    · rintro ⟨_, h⟩
      cases h with
      | cons h hs => exact ⟨⟨_, h⟩, _, hs⟩
    · rintro ⟨⟨st, h⟩, script, hs⟩
      exact ⟨st :: script, .cons h hs⟩

/-- A type with stars in front of an operand, and a branch without its condition. -/
theorem parse_iff_forms_elided :
    let load : List PlacedToken :=
      [⟨.ident "load", ⟨0, 4⟩⟩, ⟨.ident "i8", ⟨5, 7⟩⟩, ⟨.star, ⟨7, 8⟩⟩, ⟨.var "p", ⟨9, 11⟩⟩]
    let branch : List PlacedToken := [⟨.ident "condbr", ⟨13, 19⟩⟩, ⟨.plus, ⟨20, 21⟩⟩, ⟨.number 1, ⟨21, 22⟩⟩,
      ⟨.comma, ⟨22, 23⟩⟩, ⟨.ident "end", ⟨24, 27⟩⟩]
    (∃ st, Forms LiteralForm load st) ∧ ∃ st, Forms LiteralForm branch st := by
  intro load branch
  have hts : tokens "load i8* %p\n\ncondbr +1, end" = .ok (load ++ [⟨.newline, ⟨11, 12⟩⟩, ⟨.newline, ⟨12, 13⟩⟩] ++
      branch ++ [⟨.endOfInput, ⟨27, 27⟩⟩]) := by decide +kernel
  have hparse : parse "load i8* %p\n\ncondbr +1, end" = .ok [
      ⟨.load ⟨"i8", 1, ⟨5, 8⟩⟩ (.var "p" ⟨9, 11⟩), ⟨0, 11⟩⟩,
      ⟨.condBr .stack (.next 1) (.named "end" ⟨24, 27⟩), ⟨13, 27⟩⟩] := by decide +kernel
  have hforms := ((parse_iff_forms "load i8* %p\n\ncondbr +1, end").2 _ hts).mp ⟨_, hparse⟩
  exact ⟨hforms load (by decide), hforms branch (by decide)⟩

end StackAssembler.Script.Parser
