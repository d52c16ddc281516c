import StackAssembler.Proofs.Extents

/-! Where a statement stands, and the types, variables and blocks that it mentions. What a line mentions can be read off
its tokens without the grammar. Its statement records the same, in the same order and with the same places. -/
namespace StackAssembler.Script
open IR Build

/-- A name with the stars behind it, or a variable. -/
inductive Mention where
  | name (text : String) (stars : Nat)
  | var (text : String)
  deriving DecidableEq, Repr

/-- From where the first token starts to where the last one stops. -/
def PlacedToken.hull (t : PlacedToken) (ts : List PlacedToken) : Span :=
  ⟨t.span.start, ((t :: ts).getLast (List.cons_ne_nil t ts)).span.stop⟩

/-- The names and variables among some tokens. A name reaches to the last star behind it. -/
def mentionsOf : List PlacedToken → List (Mention × Span)
  | [] => []
  | t :: ts =>
    match t.token with
    | .ident w =>
      let stars := ts.takeWhile (·.token = .star)
      (.name w stars.length, t.hull stars) :: mentionsOf ts
    | .var x => (.var x, t.span) :: mentionsOf ts
    | _ => mentionsOf ts

/-! ### What statements record -/

def TypeExpr.mention (e : TypeExpr) : Mention × Option Span := (.name e.base e.pointers, some e.span)

def OperandExpr.mentions : OperandExpr → List (Mention × Option Span)
  | .var x s => [(.var x, some s)]
  | _ => []

def TargetExpr.mentions : TargetExpr → List (Mention × Option Span)
  | .named w s => [(.name w 0, some s)]
  | .next _ => []

/-- The names and variables of a command behind its word, in the order in which they are written. Types, operands and
targets have a place. -/
def Command.mentions : Command → List (Mention × Option Span)
  | .module w | .block w | .setBlock w => [(.name w 0, none)]
  | .function _ result params _ => params.map TypeExpr.mention ++ [result.mention]
  | .alloc t x => t.mention :: x.toList.map fun x => (.var x, none)
  | .load t v => t.mention :: v.mentions
  | .store l r | .binary _ l r => l.mentions ++ r.mentions
  | .compare p l r => (.name p.name 0, none) :: (l.mentions ++ r.mentions)
  | .cast _ v t => v.mentions ++ [(.name "to" 0, none), t.mention]
  | .phi es => es.flatMap fun e => e.1.mentions ++ e.2.mentions
  | .condBr c t f => c.mentions ++ (t.mentions ++ f.mentions)
  | .br d => d.mentions
  | .call _ args => args.flatMap OperandExpr.mentions
  | .ret (some v) | .push v => v.mentions
  | _ => []

/-- What is recorded is what there is, with the same place if it has one. -/
def Agrees (found : Mention × Span) (recorded : Mention × Option Span) : Prop :=
  found.1 = recorded.1 ∧ ∀ s ∈ recorded.2, s = found.2

/-- What is recorded of some tokens. -/
def Records (ts : List PlacedToken) (ms : List (Mention × Option Span)) : Prop :=
  List.Forall₂ Agrees (mentionsOf ts) ms

/-- A statement stands where its line does, and records what the line mentions behind its word. The result of a function
may be left out. It then is recorded where the parenthesis is closed. -/
structure Recorded (line : List PlacedToken) (st : Statement) : Prop where
  span : ∃ t ts, line = t :: ts ∧ st.span = t.hull ts
  mentions : Records line.tail st.command.mentions ∨ ∃ f params variadic close,
    st.command = .function f ⟨"void", 0, close⟩ params variadic ∧ line.getLast? = some ⟨.rparen, close⟩ ∧
      Records line.tail (params.map TypeExpr.mention)

section
variable {ts us : List PlacedToken} {ms ns : List (Mention × Option Span)} {t : PlacedToken}

/-! ### Parts of a line -/

/-- No star comes first. -/
def Starless (ts : List PlacedToken) : Prop := ∀ t ∈ ts.head?, t.token ≠ .star

theorem starless_cons (h : t.token ≠ .star) : Starless (t :: ts) := by
  rintro _ ⟨⟩
  exact h

theorem takeWhile_append_starless (h : Starless us) :
    (ts ++ us).takeWhile (·.token = .star) = ts.takeWhile (·.token = .star) := by
  induction ts with
  | nil =>
    cases us with
    | nil => rfl
    | cons u us => simpa using h u rfl
  | cons t ts ih => rw [List.cons_append, List.takeWhile_cons, List.takeWhile_cons, ih]

theorem mentionsOf_append (h : Starless us) : mentionsOf (ts ++ us) = mentionsOf ts ++ mentionsOf us := by
  induction ts with
  | nil => rfl
  | cons t ts ih =>
    simp only [List.cons_append, mentionsOf, takeWhile_append_starless h, ih]
    split <;> rfl

theorem mentionsOf_stars (h : ∀ t ∈ ts, t.token = .star) : mentionsOf ts = [] := by
  induction ts with
  | nil => rfl
  | cons t ts ih =>
    obtain ⟨ht, hts⟩ := List.forall_mem_cons.mp h
    simp only [mentionsOf, ht, ih hts]

theorem agrees_self {m : Mention} {s : Span} : Agrees (m, s) (m, some s) :=
  ⟨rfl, fun _ h => (Option.some.inj h).symm⟩

theorem agrees_none {m : Mention} {s : Span} : Agrees (m, s) (m, none) := ⟨rfl, nofun⟩

namespace Records

theorem none : Records [] [] := .nil

theorem append (h : Records ts ms) (h' : Records us ns) (hus : Starless us) : Records (ts ++ us) (ms ++ ns) := by
  rw [Records, mentionsOf_append hus]
  exact List.rel_append h h'

theorem single {m : Mention} {s : Span} {recorded : Mention × Option Span} (hts : mentionsOf ts = [(m, s)])
    (h : Agrees (m, s) recorded) : Records ts [recorded] := by
  rw [Records, hts]
  exact .cons h .nil

/-- A token that mentions nothing may stand in front. -/
theorem silent (h : Records ts ms) (ht : mentionsOf (t :: ts) = mentionsOf ts) : Records (t :: ts) ms := by
  rwa [Records, ht]

/-- A word may stand in front whose place is not recorded. -/
theorem word {w : String} {s : Span} (h : Records ts ms) (hts : Starless ts) :
    Records (⟨.ident w, s⟩ :: ts) ((.name w 0, .none) :: ms) := by
  have hword : Records [⟨.ident w, s⟩] [(.name w 0, .none)] := single rfl agrees_none
  exact hword.append h hts

/-- A token that mentions nothing may stand between two phrases. -/
theorem between (h : Records ts ms) (h' : Records us ns) (ht : t.token ≠ .star)
    (hnone : mentionsOf (t :: us) = mentionsOf us) : Records (ts ++ t :: us) (ms ++ ns) :=
  h.append (h'.silent hnone) (starless_cons ht)

/-- A token that mentions nothing may stand behind a phrase. -/
theorem concat (h : Records ts ms) (ht : t.token ≠ .star) (hnone : mentionsOf [t] = []) : Records (ts ++ [t]) ms := by
  simpa using h.between none ht hnone

end Records
end

/-! ### Phrases -/

namespace Grammar
variable {ts us : List PlacedToken} {ms ns : List (Mention × Option Span)} {t : PlacedToken}

theorem extent_eq_hull (t : PlacedToken) (ts : List PlacedToken) : extent (t :: ts) = t.hull ts := by
  have stop (n : Nat) : stopAfter n (t :: ts) = ((t :: ts).getLast (List.cons_ne_nil t ts)).span.stop := by
    induction ts generalizing n t with
    | nil => rfl
    | cons u us ih => exact ih u t.span.stop
  exact congrArg (Span.mk t.span.start) (stop 0)

theorem TypeForm.records {e : TypeExpr} (h : TypeForm ts e) : Records ts [e.mention] := by
  cases h with
  | @mk base span stars hstars =>
    have hall : stars.takeWhile (·.token = .star) = stars := by simpa using hstars
    have hmentions : mentionsOf (⟨.ident base, span⟩ :: stars) =
        [(.name base stars.length, PlacedToken.hull ⟨.ident base, span⟩ stars)] := by
      simp only [mentionsOf, hall, mentionsOf_stars hstars]
    exact .single hmentions (extent_eq_hull _ _ ▸ agrees_self)

theorem TargetForm.records {e : TargetExpr} (h : TargetForm ts e) : Records ts e.mentions := by
  cases h with
  | named => exact .single rfl agrees_self
  | next => exact .none

theorem OperandForm.records {e : OperandExpr} (h : OperandForm LiteralForm ts e) : Records ts e.mentions := by
  cases h with
  | var => exact .single rfl agrees_self
  | stack | arg => exact .none
  | literal h => cases h <;> exact .none

/-- A list mentions what its items mention. -/
theorem CommaList.records {α : Type} {F : List PlacedToken → α → Prop} (f : α → List (Mention × Option Span))
    {xs : List α} (hF : ∀ ts x, F ts x → Records ts (f x)) (h : CommaList F ts xs) : Records ts (xs.flatMap f) := by
  induction h with
  | one h => simpa using hF _ _ h
  | more h _ ih => exact (hF _ _ h).between ih nofun rfl

theorem ParameterForm.records {types : List TypeExpr} {variadic : Bool} (h : ParameterForm ts types variadic) :
    Records ts (types.map TypeExpr.mention) := by
  have list {ts : List PlacedToken} {types : List TypeExpr} (h : CommaList TypeForm ts types) :
      Records ts (types.map TypeExpr.mention) := by
    rw [List.map_eq_flatMap]
    exact h.records _ fun _ _ => TypeForm.records
  cases h with
  | none | dots => exact .none
  | types h => exact list h
  | @typesDots ts types s s' h =>
    have hdots : Records (ts ++ [⟨.comma, s⟩, ⟨.ellipsis, s'⟩]) (types.map TypeExpr.mention ++ []) :=
      (list h).between (.silent .none rfl) nofun rfl
    simpa using hdots

theorem OptionalOperand.records {e : OperandExpr} (h : OptionalOperand LiteralForm ts e) : Records ts e.mentions := by
  cases h with
  | elided => exact .none
  | given h => exact h.records

/-! Nothing but a type has stars behind its name. -/

theorem TypeForm.starless {e : TypeExpr} (h : TypeForm ts e) : Starless ts := by
  cases h with
  | mk => exact starless_cons nofun

theorem OperandForm.starless {e : OperandExpr} (h : OperandForm LiteralForm ts e) (us : List PlacedToken) :
    Starless (ts ++ us) := by
  cases h with
  | stack | var | arg => exact starless_cons nofun
  | literal h => cases h <;> exact starless_cons nofun

theorem OptionalOperand.starless {e : OperandExpr} (h : OptionalOperand LiteralForm ts e) : Starless ts := by
  cases h with
  | elided => rintro _ ⟨⟩
  | given h => simpa using h.starless []

theorem OperandPair.starless {l r : OperandExpr} (h : OperandPair LiteralForm ts l r) : Starless ts := by
  cases h with
  | elided => rintro _ ⟨⟩
  | given h => exact h.starless _

theorem OperandPair.records {l r : OperandExpr} (h : OperandPair LiteralForm ts l r) :
    Records ts (l.mentions ++ r.mentions) := by
  cases h with
  | elided => exact .none
  | given h h' => exact h.records.between h'.records nofun rfl

theorem EdgeForm.records {e : OperandExpr × TargetExpr} (h : EdgeForm LiteralForm ts e) :
    Records ts (e.1.mentions ++ e.2.mentions) := by
  cases h with
  | @mk ts us _ _ s s' s'' h h' =>
    have value : Records (⟨.lbracket, s⟩ :: ts) _ := h.records
    have edge : Records (⟨.lbracket, s⟩ :: ts ++ ⟨.comma, s'⟩ :: us) _ := value.between h'.records nofun rfl
    exact edge.concat nofun rfl

/-- What follows the word of a statement, when it is no function. -/
theorem Follows.records {k : Keyword} {c : Command} (h : Follows LiteralForm k ts c) (hk : k ≠ .function) :
    Records ts c.mentions := by
  cases h with
  | function => exact absurd rfl hk
  | module | block | setBlock => exact .single rfl agrees_none
  | alloc h => exact h.records
  | allocNamed h => exact h.records.append (.single rfl agrees_none) (starless_cons nofun)
  | load h h' => exact h.records.append h'.records h'.starless
  | store h | binary h => exact h.records
  | cmp h => exact h.records.word h.starless
  | cast h h' => exact h.records.append (h'.records.word h'.starless) (starless_cons nofun)
  | phi h => exact h.records _ fun _ _ => EdgeForm.records
  | condBr h => simpa [Command.mentions, TargetExpr.mentions] using h.records
  | @condBrFull ts us vs _ _ _ s s' h h' h'' =>
    have targets : Records (us ++ ⟨.comma, s'⟩ :: vs) _ := h'.records.between h''.records nofun rfl
    rw [List.append_assoc]
    exact h.records.between targets nofun rfl
  | condBrTargets h h' => exact h.records.between h'.records nofun rfl
  | brTarget h => exact h.records
  | @call _ ts args s s' s'' h =>
    cases h with
    | none => exact .none
    | some h =>
      have list : Records ts _ := h.records OperandExpr.mentions fun _ _ => OperandForm.records
      exact ((list.silent rfl).silent rfl).concat nofun rfl
  | retValue h | push h => exact h.records
  | _ => exact .none

/-- A statement is recorded as its line has it. -/
theorem Forms.recorded {line : List PlacedToken} {st : Statement} (h : Forms LiteralForm line st) :
    Recorded line st := by
  cases h with
  | @mk k s ts c h =>
    refine ⟨⟨_, ts, rfl, extent_eq_hull ⟨.ident k.word, s⟩ ts⟩, ?_⟩
    by_cases hk : k = .function
    · subst hk
      cases h with
      | @function f ts us params _ result s s' close h h' =>
        have params : Records (⟨.global f, s⟩ :: ⟨.lparen, s'⟩ :: ts) _ := (h.records.silent rfl).silent rfl
        cases h' with
        | void =>
          refine .inr ⟨_, _, _, _, rfl, ?_, params.concat nofun rfl⟩
          rw [← List.cons_append, List.getLast?_concat]
        | arrow h' => exact .inl (params.between (h'.records.silent rfl) nofun rfl)
    · exact .inl (h.records hk)

end Grammar

/-- An accepted script has one statement for each line with tokens, in order. It reaches from the start of the first
token of its line to the end of the last one, and records what the line mentions, each at its own place. -/
theorem statements_recorded {source : String} {script : List Statement} (h : Parser.parse source = .ok script) :
    ∃ ts, tokens source = .ok ts ∧ script.length = (Grammar.lines ts.dropLast).length ∧
      ∀ (k : Nat) (line : List PlacedToken) (st : Statement), (Grammar.lines ts.dropLast)[k]? = some line →
        script[k]? = some st → Recorded line st := by
  obtain ⟨us, hus, hforms⟩ := Parser.parse_eq_ok.mp h
  refine ⟨_, tokens_eq_ok.mpr ⟨us, hus, rfl⟩, ?_⟩
  rw [List.dropLast_concat]
  refine ⟨hforms.length_eq.symm, fun k line st hline hst => ?_⟩
  obtain ⟨hk, rfl⟩ := List.getElem?_eq_some_iff.mp hline
  obtain ⟨hk', rfl⟩ := List.getElem?_eq_some_iff.mp hst
  exact ((List.forall₂_iff_get.mp hforms).2 k hk hk').recorded

/-- Stars behind a blank, in front of a line without tokens and a function without a result. -/
theorem statements_recorded_stars :
    let load : List PlacedToken := [⟨.ident "load", ⟨0, 4⟩⟩, ⟨.ident "i8", ⟨5, 7⟩⟩, ⟨.star, ⟨7, 8⟩⟩, ⟨.star, ⟨9, 10⟩⟩,
      ⟨.var "p", ⟨11, 13⟩⟩]
    let function : List PlacedToken := [⟨.ident "function", ⟨21, 29⟩⟩, ⟨.global "f", ⟨30, 32⟩⟩, ⟨.lparen, ⟨32, 33⟩⟩,
      ⟨.ident "i8", ⟨33, 35⟩⟩, ⟨.rparen, ⟨35, 36⟩⟩]
    Recorded load ⟨.load ⟨"i8", 2, ⟨5, 10⟩⟩ (.var "p" ⟨11, 13⟩), ⟨0, 13⟩⟩ ∧
      Recorded function ⟨.function "f" ⟨"void", 0, ⟨35, 36⟩⟩ [⟨"i8", 0, ⟨33, 35⟩⟩] false, ⟨21, 36⟩⟩ := by
  intro load function
  have hts : tokens "load i8* * %p ; %q\n \nfunction @f(i8)" = .ok (load ++ [⟨.newline, ⟨18, 19⟩⟩,
      ⟨.newline, ⟨20, 21⟩⟩] ++ function ++ [⟨.endOfInput, ⟨36, 36⟩⟩]) := by decide +kernel
  have hparse : Parser.parse "load i8* * %p ; %q\n \nfunction @f(i8)" = .ok [
      ⟨.load ⟨"i8", 2, ⟨5, 10⟩⟩ (.var "p" ⟨11, 13⟩), ⟨0, 13⟩⟩,
      ⟨.function "f" ⟨"void", 0, ⟨35, 36⟩⟩ [⟨"i8", 0, ⟨33, 35⟩⟩] false, ⟨21, 36⟩⟩] := by decide +kernel
  obtain ⟨ts, hts', -, hrecorded⟩ := statements_recorded hparse
  rw [hts] at hts'
  cases hts'
  exact ⟨hrecorded 0 load _ (by decide) rfl, hrecorded 1 function _ (by decide) rfl⟩

end StackAssembler.Script
