import StackAssembler.Proofs.Taking

/-! What each reader takes from a stream of tokens: exactly the phrases of the grammar. A reader with a choice looks at
the token that comes next, and the other phrases do not start with it. -/
namespace StackAssembler.Script.Parser
open IR Build Grammar TokenStream

variable {α β : Type} {s s' : TokenStream}

/-- A reader of one token that has to be of a certain form takes such tokens and no others. -/
theorem only_ok {f : PlacedToken → Reading α} (make : α → Token) {a : α} (hend : ∀ a, make a ≠ .endOfInput)
    (hmake : ∀ a span, f ⟨make a, span⟩ = pure a) (hother : ∀ t, (∀ a, t.token ≠ make a) → ∃ e, f t = throw e) :
    (next >>= f) s = .ok a s' ↔ ∃ span, Took s [⟨make a, span⟩] s' := by
  have fails {t : PlacedToken} {u : TokenStream} (ht : ∀ a, t.token ≠ make a) : f t u ≠ .ok a s' := by
    obtain ⟨e, he⟩ := hother t ht
    rw [he]
    exact throw_ok
  rw [next_bind_ok fun span u => fails fun a h => hend a h.symm]
  constructor
  · rintro ⟨⟨x, span⟩, u, h, hf⟩
    by_cases hx : ∃ b, x = make b
    · obtain ⟨b, rfl⟩ := hx
      rw [hmake] at hf
      obtain ⟨rfl, rfl⟩ := pure_ok.mp hf
      exact ⟨span, h⟩
    · exact absurd hf (fails fun b hb => hx ⟨b, hb⟩)
  · exact fun ⟨span, h⟩ => ⟨_, s', h, by rw [hmake]; rfl⟩

theorem name_ok {w : String} : name s = .ok w s' ↔ ∃ span, Took s [⟨.ident w, span⟩] s' := by
  refine only_ok .ident nofun (fun _ _ => rfl) ?_
  rintro ⟨x, span⟩ h
  cases x <;> first | exact ⟨_, rfl⟩ | exact absurd rfl (h _)

theorem functionName_ok {w : String} : functionName s = .ok w s' ↔ ∃ span, Took s [⟨.global w, span⟩] s' := by
  refine only_ok .global nofun (fun _ _ => rfl) ?_
  rintro ⟨x, span⟩ h
  cases x <;> first | exact ⟨_, rfl⟩ | exact absurd rfl (h _)

theorem variableName_ok {w : String} : variableName s = .ok w s' ↔ ∃ span, Took s [⟨.var w, span⟩] s' := by
  refine only_ok .var nofun (fun _ _ => rfl) ?_
  rintro ⟨x, span⟩ h
  cases x <;> first | exact ⟨_, rfl⟩ | exact absurd rfl (h _)

theorem number_ok {n : Nat} : number s = .ok n s' ↔ ∃ span, Took s [⟨.number n, span⟩] s' := by
  refine only_ok .number nofun (fun _ _ => rfl) ?_
  rintro ⟨x, span⟩ h
  cases x <;> first | exact ⟨_, rfl⟩ | exact absurd rfl (h _)

theorem keyword_ok {w : String} {a : Unit} :
    keyword w s = .ok a s' ↔ ∃ span, Took s [⟨.ident w, span⟩] s' := by
  refine only_ok (fun _ => .ident w) nofun (fun _ _ => if_pos rfl) ?_
  exact fun t h => ⟨_, if_neg (h ())⟩

theorem predicate_ok {p : Predicate} : predicate s = .ok p s' ↔ ∃ span, Took s [⟨.ident p.name, span⟩] s' := by
  refine only_ok (fun p : Predicate => .ident p.name) nofun (fun p span => ?_) ?_
  · dsimp only
    rw [Predicate.ofName?_eq_some.mpr rfl]
  · rintro ⟨x, span⟩ h
    cases x <;> first
      | exact ⟨_, rfl⟩
      | skip
    next w =>
    dsimp only at h ⊢
    cases hw : Predicate.ofName? w with
    | some p => exact absurd (congrArg Token.ident (Predicate.ofName?_eq_some.mp hw).symm) (h p)
    | none => exact ⟨_, rfl⟩

theorem literal_ok {read : String → Except SyntaxFault OperandExpr} {text : String} {t : PlacedToken}
    {e : OperandExpr} :
    literal read text t s = .ok e s' ↔ read text = .ok e ∧ s' = s := by
  unfold literal
  cases read text with
  | ok x => 
    rw [pure_ok, Except.ok.injEq, eq_comm]
  | error f => exact ⟨nofun, nofun⟩

theorem operand_ok {e : OperandExpr} :
    operand s = .ok e s' ↔ ∃ ts, Took s ts s' ∧ OperandForm Evaluates ts e := by
  unfold operand
  rw [next_bind_ok fun _ _ => throw_ok]
  constructor
  · rintro ⟨⟨x, span⟩, u, h, hf⟩
    refine ⟨[⟨x, span⟩], ?_⟩
    cases x with
    | underscore => 
      obtain ⟨rfl, rfl⟩ := pure_ok.mp hf
      exact ⟨h, .stack⟩
    | var w => 
      obtain ⟨rfl, rfl⟩ := pure_ok.mp hf
      exact ⟨h, .var⟩
    | arg n => 
      obtain ⟨rfl, rfl⟩ := pure_ok.mp hf
      exact ⟨h, .arg⟩
    | intLiteral text => 
      obtain ⟨he, rfl⟩ := literal_ok.mp hf
      exact ⟨h, .literal (.int he)⟩
    | floatLiteral text => 
      obtain ⟨he, rfl⟩ := literal_ok.mp hf
      exact ⟨h, .literal (.float he)⟩
    | _ => cases hf
  · rintro ⟨ts, h, hform⟩
    cases hform with
    | stack | var | arg => exact ⟨_, s', h, rfl⟩
    | literal hlit => 
      cases hlit with
      | int he | float he => exact ⟨_, s', h, literal_ok.mpr ⟨he, rfl⟩⟩

theorem atOperand_ok {b : Bool} : atOperand s = .ok b s' ↔ s' = s ∧ Ahead s fun t => isOperandStart t = b := look_ok

theorem atTarget_ok {b : Bool} : atTarget s = .ok b s' ↔ s' = s ∧ Ahead s fun t => isTargetStart t = b := look_ok

theorem not_isOperandStart {t : Token} (h : isTargetStart t) : isOperandStart t = false := by
  cases t <;> first | rfl | cases h

theorem stars_ok {fuel n : Nat} (hfuel : s.pending.length ≤ fuel) : stars fuel s = .ok n s' ↔
    ∃ ts, Took s ts s' ∧ (∀ t ∈ ts, t.token = .star) ∧ ts.length = n ∧ Ahead s' (· ≠ .star) := by
  induction fuel generalizing s n with
  | zero =>
    have hp : s.pending = [] := List.length_eq_zero_iff.mp (Nat.le_zero.mp hfuel)
    rw [stars, pure_ok]
    constructor
    · rintro ⟨rfl, rfl⟩
      exact ⟨[], took_nil.mpr rfl, nofun, rfl, _, .done hp, nofun⟩
    · rintro ⟨ts, h, _, rfl, _⟩
      obtain rfl : ts = [] := by simpa using (List.append_eq_nil_iff.mp (h.pending.symm.trans hp)).1
      exact ⟨rfl, took_nil.mp h⟩
  | succ fuel ih =>
    have shorter {x : PlacedToken} {u : TokenStream} (h : Took s [x] u) : u.pending.length ≤ fuel :=
      Nat.le_of_lt_succ (Nat.lt_of_lt_of_le h.length_lt hfuel)
    rw [stars, accept_bind_ok (by decide)]
    constructor
    · rintro (⟨span, u, ht, h⟩ | ⟨hahead, h⟩)
      · obtain ⟨m, _, hm, h⟩ := bind_ok.mp h
        obtain ⟨rfl, rfl⟩ := pure_ok.mp h
        obtain ⟨ts, hts, hall, rfl, hahead⟩ := (ih (shorter ht)).mp hm
        exact ⟨_, took_cons.mpr ⟨u, ht, hts⟩, List.forall_mem_cons.mpr ⟨rfl, hall⟩, rfl, hahead⟩
      · obtain ⟨rfl, rfl⟩ := pure_ok.mp h
        exact ⟨[], took_nil.mpr rfl, nofun, rfl, hahead⟩
    · rintro ⟨ts, hts, hall, rfl, hahead⟩
      cases ts with
      | nil =>
        obtain rfl := took_nil.mp hts
        exact .inr ⟨hahead, rfl⟩
      | cons t ts =>
        obtain ⟨⟨x, span⟩, rfl⟩ : ∃ t', t' = t := ⟨t, rfl⟩
        obtain rfl : x = .star := hall _ (.head _)
        obtain ⟨u, ht, hts⟩ := took_cons.mp hts
        refine .inl ⟨span, u, ht, bind_ok.mpr ⟨ts.length, s', (ih (shorter ht)).mpr ?_, rfl⟩⟩
        exact ⟨ts, hts, fun x hx => hall x (.tail _ hx), rfl, hahead⟩

theorem type_ok {e : TypeExpr} :
    type s = .ok e s' ↔ ∃ ts, Took s ts s' ∧ TypeForm ts e ∧ Ahead s' (· ≠ .star) := by
  unfold type
  rw [next_bind_ok fun _ _ => throw_ok]
  constructor
  · rintro ⟨⟨x, span⟩, u, h, hf⟩
    cases x with
    | ident w =>
      simp only [bind_ok, get_ok, pure_ok] at hf
      obtain ⟨_, _, ⟨rfl, rfl⟩, n, _, hn, _, _, ⟨rfl, rfl⟩, rfl, rfl⟩ := hf
      obtain ⟨ts, hts, hall, rfl, hahead⟩ := (stars_ok le_rfl).mp hn
      refine ⟨_, took_cons.mpr ⟨_, h, hts⟩, ?_, hahead⟩
      rw [hts.lastStop, h.lastStop]
      exact .mk hall
    | _ => cases hf
  · rintro ⟨ts, hts, hform, hahead⟩
    cases hform with
    | @mk base span stars hall =>
      obtain ⟨u, h, hts⟩ := took_cons.mp hts
      refine ⟨_, u, h, ?_⟩
      simp only [bind_ok, get_ok, pure_ok]
      refine ⟨_, _, ⟨rfl, rfl⟩, stars.length, s', (stars_ok le_rfl).mpr ⟨stars, hts, hall, rfl, hahead⟩, _, _,
        ⟨rfl, rfl⟩, ?_, rfl⟩
      rw [hts.lastStop, h.lastStop]
      rfl

theorem optionalOperand_ok {e : OperandExpr} : optionalOperand s = .ok e s' ↔
    ∃ ts, Took s ts s' ∧ OptionalOperand Evaluates ts e ∧ (ts = [] → Ahead s' (isOperandStart · = false)) := by
  unfold optionalOperand
  rw [choose_ok atOperand_ok, operand_ok, pure_ok]
  constructor
  · rintro (⟨_, ts, h, hform⟩ | ⟨hahead, rfl, rfl⟩)
    · refine ⟨ts, h, .given hform, ?_⟩
      rintro rfl
      cases hform
    · exact ⟨[], took_nil.mpr rfl, .elided, fun _ => hahead⟩
  · rintro ⟨ts, h, hform, hahead⟩
    cases hform with
    | elided =>
      obtain rfl := took_nil.mp h
      exact .inr ⟨hahead rfl, rfl, rfl⟩
    | given hform =>
      obtain ⟨t, rest, rfl, hstart⟩ := hform.starts
      exact .inl ⟨⟨_, h.sees, hstart⟩, _, h, hform⟩

/-- A phrase, a mark and another phrase are taken one after the other. -/
theorem took_mark {ts us : List PlacedToken} {x : PlacedToken} :
    Took s (ts ++ x :: us) s' ↔ ∃ t u, Took s ts t ∧ Took t [x] u ∧ Took u us s' := by
  rw [took_append]
  refine exists_congr fun t => ?_
  rw [took_cons]
  exact ⟨fun ⟨h, u, h', h''⟩ => ⟨u, h, h', h''⟩, fun ⟨u, h, h', h''⟩ => ⟨h, u, h', h''⟩⟩

theorem operandPair_ok {l r : OperandExpr} : operandPair s = .ok (l, r) s' ↔
    ∃ ts, Took s ts s' ∧ OperandPair Evaluates ts l r ∧ (ts = [] → Ahead s' (isOperandStart · = false)) := by
  unfold operandPair
  rw [choose_ok atOperand_ok]
  simp only [bind_ok, operand_ok, expect_ok (k := .comma) (by decide), pure_ok, Prod.mk.injEq]
  constructor
  · rintro (⟨_, _, t, ⟨ts, h, hl⟩, ⟨_, span⟩, u, ⟨h', rfl⟩, _, _, ⟨us, h'', hr⟩, ⟨rfl, rfl⟩, rfl⟩ |
      ⟨hahead, ⟨rfl, rfl⟩, rfl⟩)
    · refine ⟨_, took_mark.mpr ⟨t, u, h, h', h''⟩, .given hl hr, fun he => ?_⟩
      simp at he
    · exact ⟨[], took_nil.mpr rfl, .elided, fun _ => hahead⟩
  · rintro ⟨_, h, hform, hahead⟩
    cases hform with
    | elided =>
      obtain rfl := took_nil.mp h
      exact .inr ⟨hahead rfl, ⟨rfl, rfl⟩, rfl⟩
    | given hl hr =>
      obtain ⟨t, u, h, h', h''⟩ := took_mark.mp h
      obtain ⟨x, rest, rfl, hstart⟩ := hl.starts
      exact .inl ⟨⟨_, h.sees, hstart⟩, l, t, ⟨_, h, hl⟩, _, u, ⟨h', rfl⟩, r, s', ⟨_, h'', hr⟩, ⟨rfl, rfl⟩, rfl⟩

theorem target_ok {e : TargetExpr} : target s = .ok e s' ↔ ∃ ts, Took s ts s' ∧ TargetForm ts e := by
  unfold target
  rw [accept_bind_ok (by decide), next_bind_ok fun _ _ => throw_ok]
  simp only [bind_ok, number_ok, pure_ok]
  constructor
  · rintro (⟨span, u, h, n, _, ⟨span', h'⟩, rfl, rfl⟩ | ⟨_, ⟨x, span⟩, u, h, hf⟩)
    · exact ⟨_, took_cons.mpr ⟨u, h, h'⟩, .next⟩
    · cases x <;> cases hf
      exact ⟨_, h, .named⟩
  · rintro ⟨ts, h, hform⟩
    cases hform with
    | named => exact .inr ⟨⟨_, h.sees, nofun⟩, _, s', h, rfl⟩
    | next =>
      obtain ⟨u, h, h'⟩ := took_cons.mp h
      exact .inl ⟨_, u, h, _, s', ⟨_, h'⟩, rfl, rfl⟩

/-- By induction on the items that can still follow: each takes a token at least. -/
theorem commaList_ok {item : Reading α} {F : List PlacedToken → α → Prop}
    (hitem : ∀ {s s' x}, item s = .ok x s' ↔ ∃ ts, Took s ts s' ∧ F ts x) (hne : ∀ x, ¬ F [] x) {fuel : Nat}
    {xs : List α} (hfuel : s.pending.length < fuel) :
    commaList item fuel s = .ok xs s' ↔ ∃ ts, Took s ts s' ∧ CommaList F ts xs ∧ Ahead s' (· ≠ .comma) := by
  induction fuel generalizing s xs with
  | zero => exact absurd hfuel (Nat.not_lt_zero _)
  | succ fuel ih =>
    have fewer {ts : List PlacedToken} {t u : TokenStream} {x : α} {span : Span} (hx : F ts x) (h : Took s ts t)
        (h' : Took t [⟨.comma, span⟩] u) : u.pending.length < fuel := by
      have hpos : 0 < ts.length := List.length_pos_iff.mpr fun he => hne x (he ▸ hx)
      have hs := h.length_eq
      have ht := h'.length_eq
      simp only [List.length_singleton] at ht
      omega
    rw [commaList]
    simp only [bind_ok (P := item), hitem, accept_bind_ok (k := .comma) (by decide)]
    constructor
    · rintro ⟨x, t, ⟨ts, h, hx⟩, ⟨span, u, h', hmore⟩ | ⟨hahead, hlast⟩⟩
      · obtain ⟨ys, _, hys, hmore⟩ := bind_ok.mp hmore
        obtain ⟨rfl, rfl⟩ := pure_ok.mp hmore
        obtain ⟨us, h'', hform, hahead⟩ := (ih (fewer hx h h')).mp hys
        exact ⟨_, took_mark.mpr ⟨t, u, h, h', h''⟩, .more hx hform, hahead⟩
      · obtain ⟨rfl, rfl⟩ := pure_ok.mp hlast
        exact ⟨ts, h, .one hx, hahead⟩
    · rintro ⟨ts, h, hform, hahead⟩
      cases hform with
      | one hx => exact ⟨_, s', ⟨ts, h, hx⟩, .inr ⟨hahead, rfl⟩⟩
      | more hx hform =>
        obtain ⟨t, u, h, h', h''⟩ := took_mark.mp h
        refine ⟨_, t, ⟨_, h, hx⟩, .inl ⟨_, u, h', bind_ok.mpr ⟨_, s', (ih (fewer hx h h')).mpr ?_, rfl⟩⟩⟩
        exact ⟨_, h'', hform, hahead⟩

theorem edge_ok {e : OperandExpr × TargetExpr} :
    edge s = .ok e s' ↔ ∃ ts, Took s ts s' ∧ EdgeForm Evaluates ts e := by
  unfold edge
  simp only [bind_ok, operand_ok, target_ok, expect_ok (k := .lbracket) (by decide),
    expect_ok (k := .comma) (by decide), expect_ok (k := .rbracket) (by decide), pure_ok]
  constructor
  · rintro ⟨⟨_, _⟩, t₁, ⟨h₁, rfl⟩, v, t₂, ⟨ts, h₂, hv⟩, ⟨_, _⟩, t₃, ⟨h₃, rfl⟩, b, t₄, ⟨us, h₄, hb⟩, ⟨_, _⟩, t₅,
      ⟨h₅, rfl⟩, rfl, rfl⟩
    exact ⟨_, ((took_cons.mpr ⟨_, h₁, h₂⟩).append (took_cons.mpr ⟨_, h₃, h₄⟩)).append h₅, .mk hv hb⟩
  · rintro ⟨_, h, ⟨hv, hb⟩⟩
    obtain ⟨t₄, h, h₅⟩ := took_append.mp h
    obtain ⟨t₂, t₃, h, h₃, h₄⟩ := took_mark.mp h
    obtain ⟨t₁, h₁, h₂⟩ := took_cons.mp h
    exact ⟨_, t₁, ⟨h₁, rfl⟩, _, t₂, ⟨_, h₂, hv⟩, _, t₃, ⟨h₃, rfl⟩, _, t₄, ⟨_, h₄, hb⟩, _, s', ⟨h₅, rfl⟩, rfl, rfl⟩

theorem itemBound_bind_ok {P : Nat → Reading α} {a : α} :
    (itemBound >>= P) s = .ok a s' ↔ P (s.pending.length + 1) s = .ok a s' := by
  unfold itemBound
  simp only [bind_ok, get_ok, pure_ok]
  constructor
  · rintro ⟨_, _, ⟨_, _, ⟨rfl, rfl⟩, rfl, rfl⟩, h⟩
    exact h
  · exact fun h => ⟨_, _, ⟨_, _, ⟨rfl, rfl⟩, rfl, rfl⟩, h⟩

/-! ### Parameters and arguments -/

/-- By induction on the types that can still follow. -/
theorem parameters_ok {fuel : Nat} {types : List TypeExpr} {variadic : Bool} (hfuel : s.pending.length < fuel)
    (hend : Ahead s' fun t => t ≠ .star ∧ t ≠ .comma) : parameters fuel s = .ok (types, variadic) s' ↔
      ∃ ts, Took s ts s' ∧ ParameterForm ts types variadic ∧ ts ≠ [] := by
  induction fuel generalizing s types with
  | zero => exact absurd hfuel (Nat.not_lt_zero _)
  | succ fuel ih =>
    have fewer {ts : List PlacedToken} {t u : TokenStream} {e : TypeExpr} {span : Span} (he : TypeForm ts e)
        (h : Took s ts t) (h' : Took t [⟨.comma, span⟩] u) : u.pending.length < fuel := by
      obtain ⟨_, _, _, rfl⟩ := he.starts
      have hs := h.length_eq
      have ht := h'.length_eq
      simp only [List.length_cons] at hs ht
      omega
    rw [parameters, accept_bind_ok (by decide)]
    simp only [bind_ok (P := type), type_ok, accept_bind_ok (k := .comma) (by decide)]
    constructor
    · rintro (⟨span, u, h, hf⟩ | ⟨_, e, t, ⟨ts, h, he, _⟩, ⟨span, u, h', hmore⟩ | ⟨_, hlast⟩⟩)
      · obtain ⟨heq, rfl⟩ := pure_ok.mp hf
        cases heq
        exact ⟨_, h, .dots, nofun⟩
      · obtain ⟨⟨es, v⟩, _, hes, hf⟩ := bind_ok.mp hmore
        obtain ⟨heq, rfl⟩ := pure_ok.mp hf
        cases heq
        obtain ⟨us, h'', hform, hne⟩ := (ih (fewer he h h')).mp hes
        exact ⟨_, took_mark.mpr ⟨t, u, h, h', h''⟩, .cons he hform hne, by simp⟩
      · obtain ⟨heq, rfl⟩ := pure_ok.mp hlast
        cases heq
        exact ⟨_, h, .types (.one he), he.ne_nil⟩
    · rintro ⟨ts, h, hform, hne⟩
      obtain ⟨span, rfl, rfl, rfl⟩ | ⟨e, he, rfl, rfl⟩ | ⟨us, e, es, span, vs, he, hrest, hne', rfl, rfl⟩ :=
        hform.uncons hne
      · exact .inl ⟨_, s', h, rfl⟩
      · obtain ⟨_, _, _, rfl⟩ := he.starts
        exact .inr ⟨⟨_, h.sees, nofun⟩, e, s', ⟨_, h, he, hend.imp fun _ => And.left⟩,
          .inr ⟨hend.imp fun _ => And.right, rfl⟩⟩
      · obtain ⟨_, _, _, rfl⟩ := he.starts
        obtain ⟨t, u, h', h'', h'''⟩ := took_mark.mp h
        exact .inr ⟨⟨_, h.sees, nofun⟩, e, t, ⟨_, h', he, _, h''.sees, nofun⟩, .inl ⟨_, u, h'',
          bind_ok.mpr ⟨(es, variadic), s', (ih (fewer he h' h'')).mpr ⟨_, h''', hrest, hne'⟩, rfl⟩⟩⟩

/-- What is between the parentheses of a function statement. -/
def parameterList : Reading (List TypeExpr × Bool) := do
  if ← check .rparen then return ([], false) else parameters (← itemBound)

def argumentList : Reading (List OperandExpr) := do
  if ← check .rparen then return [] else commaList operand (← itemBound)

/-- What may stand behind the closing parenthesis. -/
def resultType (close : PlacedToken) : Reading TypeExpr := do
  if ← accept .arrow then type else return ⟨"void", 0, close.span⟩

theorem ite_bind {c : Prop} [Decidable c] (P Q : Reading α) (R : α → Reading β) :
    (if c then P else Q) >>= R = if c then P >>= R else Q >>= R := by
  split <;> rfl

theorem function_eq : function = do
    let f ← functionName
    let _ ← expect .lparen
    let p ← parameterList
    let close ← expect .rparen
    let result ← resultType close
    return .function f result p.1 p.2 := by
  simp only [function, parameterList, resultType, bind_assoc, ite_bind]

theorem call_eq : call = do
    let f ← functionName
    let _ ← expect .lparen
    let args ← argumentList
    let _ ← expect .rparen
    return .call f args := by
  simp only [call, argumentList, bind_assoc, ite_bind]

theorem parameterList_ok {types : List TypeExpr} {variadic : Bool} (hend : Ahead s' (· = .rparen)) :
    parameterList s = .ok (types, variadic) s' ↔ ∃ ts, Took s ts s' ∧ ParameterForm ts types variadic := by
  unfold parameterList
  rw [choose_ok check_ok, pure_ok, itemBound_bind_ok,
    parameters_ok (Nat.lt_succ_self _) (hend.imp fun t ht => ht ▸ ⟨nofun, nofun⟩)]
  constructor
  · rintro (⟨_, heq, rfl⟩ | ⟨_, ts, h, hform, _⟩)
    · cases heq
      exact ⟨[], took_nil.mpr rfl, .none⟩
    · exact ⟨ts, h, hform⟩
  · rintro ⟨ts, h, hform⟩
    by_cases hne : ts = []
    · subst hne
      obtain rfl := took_nil.mp h
      obtain ⟨rfl, rfl⟩ := hform.nil_inv
      exact .inl ⟨hend.imp fun t ht => by rw [ht]; rfl, rfl, rfl⟩
    · refine .inr ⟨?_, ts, h, hform, hne⟩
      obtain ⟨span, rfl, _⟩ | ⟨e, he, _⟩ | ⟨us, e, es, span, vs, he, _, _, rfl, _⟩ := hform.uncons hne
      · exact ⟨_, h.sees, rfl⟩
      all_goals
        obtain ⟨_, _, _, rfl⟩ := he.starts
        exact ⟨_, h.sees, rfl⟩

theorem argumentList_ok {args : List OperandExpr} (hend : Ahead s' (· = .rparen)) :
    argumentList s = .ok args s' ↔ ∃ ts, Took s ts s' ∧ ArgumentForm Evaluates ts args := by
  unfold argumentList
  rw [choose_ok check_ok, pure_ok, itemBound_bind_ok,
    commaList_ok operand_ok (fun _ => nofun) (Nat.lt_succ_self _)]
  constructor
  · rintro (⟨_, rfl, rfl⟩ | ⟨_, ts, h, hform, _⟩)
    · exact ⟨[], took_nil.mpr rfl, .none⟩
    · exact ⟨ts, h, .some hform⟩
  · rintro ⟨ts, h, hform⟩
    cases hform with
    | none =>
      obtain rfl := took_nil.mp h
      exact .inl ⟨hend.imp fun t ht => by rw [ht]; rfl, rfl, rfl⟩
    | some hform =>
      obtain ⟨e, us, rest, he, rfl⟩ := hform.starts
      obtain ⟨t, us, rfl, ht⟩ := he.starts
      refine .inr ⟨⟨_, h.sees, ?_⟩, _, h, hform, hend.imp fun t ht => ht ▸ nofun⟩
      cases hx : t.token <;> first | rfl | rw [hx] at ht; cases ht

/-- At the end of a line, no phrase goes on. -/
def AtEnd (s : TokenStream) : Prop := Ahead s fun t => t = .newline ∨ t = .endOfInput

theorem AtEnd.ahead {p : Token → Prop} (h : AtEnd s) (hn : p .newline) (he : p .endOfInput) : Ahead s p :=
  h.imp fun _ ht => ht.elim (fun ht => ht ▸ hn) fun ht => ht ▸ he

theorem resultType_ok {close : PlacedToken} {e : TypeExpr} (hend : AtEnd s') :
    resultType close s = .ok e s' ↔ ∃ ts, Took s ts s' ∧ ResultForm close.span ts e := by
  unfold resultType
  rw [accept_bind_ok (by decide), pure_ok]
  simp only [type_ok]
  constructor
  · rintro (⟨span, u, h, ts, h', he, _⟩ | ⟨_, rfl, rfl⟩)
    · exact ⟨_, took_cons.mpr ⟨u, h, h'⟩, .arrow he⟩
    · exact ⟨[], took_nil.mpr rfl, .void⟩
  · rintro ⟨ts, h, hform⟩
    cases hform with
    | void =>
      obtain rfl := took_nil.mp h
      exact .inr ⟨hend.ahead nofun nofun, rfl, rfl⟩
    | arrow he =>
      obtain ⟨u, h, h'⟩ := took_cons.mp h
      exact .inl ⟨_, u, h, _, h', he, hend.ahead nofun nofun⟩

end StackAssembler.Script.Parser
