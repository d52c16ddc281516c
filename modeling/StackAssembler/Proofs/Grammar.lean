import StackAssembler.Script.Parser
import StackAssembler.Proofs.Lexis
import StackAssembler.Proofs.Pieces

/-! The grammar of scripts: which tokens form a statement, and which one. A line is what stands between two ends of
lines, and each line that is not empty has to form one statement. -/
namespace StackAssembler.Script
namespace Grammar
open IR Build Lexeme

/-- Where the last token stops, or `stop` without a token. -/
def stopAfter (stop : Nat) (ts : List PlacedToken) : Nat := ts.foldl (fun _ t => t.span.stop) stop

/-! ### Literals -/

/-- What a literal stands for: an integer that fits into 128 bits with its sign, of a width from 1 to 128, or a
decimal fraction of width 16, 32 or 64. -/
inductive LiteralForm : Token → OperandExpr → Prop where
  | int {text : String} {negative : Bool} {digits width : List Char} {value : Int} :
      text = String.ofList (minus negative ++ digits ++ '_' :: 'i' :: width) →
      IsRun Char.isDigit digits → IsRun Char.isDigit width →
      value = (if negative then -(Text.digitsValue digits : Int) else Text.digitsValue digits) →
      -(Nat.pow 2 127 : Int) ≤ value → value < (Nat.pow 2 127 : Int) →
      1 ≤ Text.digitsValue width → Text.digitsValue width ≤ 128 →
      LiteralForm (.intLiteral text) (.int value (Text.digitsValue width))
  | float {text : String} {negative : Bool} {whole places width : List Char} :
      text = String.ofList (minus negative ++ whole ++ '.' :: places ++ '_' :: 'f' :: width) →
      IsRun Char.isDigit whole → IsRun Char.isDigit places → IsRun Char.isDigit width →
      Text.digitsValue width ∈ [16, 32, 64] →
      LiteralForm (.floatLiteral text)
        (.float (Binary.ofDecimal negative (Text.digitsValue (whole ++ places)) places.length)
          (Text.digitsValue width))

/-! ### Phrases -/

/-- A name with stars behind it. -/
inductive TypeForm : List PlacedToken → TypeExpr → Prop where
  | mk {base : String} {span : Span} {stars : List PlacedToken} : (∀ t ∈ stars, t.token = .star) →
      TypeForm (⟨.ident base, span⟩ :: stars) ⟨base, stars.length, ⟨span.start, stopAfter span.stop stars⟩⟩

/-- The name of a block, or a plus and a number. -/
inductive TargetForm : List PlacedToken → TargetExpr → Prop where
  | named {name : String} {span : Span} : TargetForm [⟨.ident name, span⟩] (.named name span)
  | next {n : Nat} {s s' : Span} : TargetForm [⟨.plus, s⟩, ⟨.number n, s'⟩] (.next n)

/-- One or more phrases with commas between them. -/
inductive CommaList {α : Type} (F : List PlacedToken → α → Prop) : List PlacedToken → List α → Prop where
  | one {ts : List PlacedToken} {x : α} : F ts x → CommaList F ts [x]
  | more {ts us : List PlacedToken} {x : α} {xs : List α} {s : Span} : F ts x → CommaList F us xs →
      CommaList F (ts ++ ⟨.comma, s⟩ :: us) (x :: xs)

/-- Parameter types with commas between them, which may end in dots; or dots alone; or nothing. -/
inductive ParameterForm : List PlacedToken → List TypeExpr → Bool → Prop where
  | none : ParameterForm [] [] false
  | dots {s : Span} : ParameterForm [⟨.ellipsis, s⟩] [] true
  | types {ts : List PlacedToken} {types : List TypeExpr} : CommaList TypeForm ts types → ParameterForm ts types false
  | typesDots {ts : List PlacedToken} {types : List TypeExpr} {s s' : Span} : CommaList TypeForm ts types →
      ParameterForm (ts ++ [⟨.comma, s⟩, ⟨.ellipsis, s'⟩]) types true

/-- An arrow and a type. Without them the result is void, and stands where the parenthesis is closed. -/
inductive ResultForm (close : Span) : List PlacedToken → TypeExpr → Prop where
  | void : ResultForm close [] ⟨"void", 0, close⟩
  | arrow {s : Span} {ts : List PlacedToken} {type : TypeExpr} : TypeForm ts type →
      ResultForm close (⟨.arrow, s⟩ :: ts) type

theorem TypeForm.starts {ts : List PlacedToken} {e : TypeExpr} (h : TypeForm ts e) :
    ∃ w span rest, ts = ⟨.ident w, span⟩ :: rest := by
  cases h
  exact ⟨_, _, _, rfl⟩

theorem TypeForm.ne_nil {ts : List PlacedToken} {e : TypeExpr} (h : TypeForm ts e) : ts ≠ [] := by
  cases h
  nofun

namespace ParameterForm
variable {ts us : List PlacedToken} {type : TypeExpr} {types : List TypeExpr} {variadic : Bool} {s : Span}

/-- A type goes in front of a list of parameters. -/
theorem cons (h : TypeForm ts type) (h' : ParameterForm us types variadic) (hne : us ≠ []) :
    ParameterForm (ts ++ ⟨.comma, s⟩ :: us) (type :: types) variadic := by
  cases h' with
  | none => exact absurd rfl hne
  | dots => exact .typesDots (.one h)
  | types h' => exact .types (.more h h')
  | @typesDots us _ s s' h' => simpa using @ParameterForm.typesDots _ _ s s' (.more h h')

/-- A list of parameters is dots, a type, or a type in front of such a list. -/
theorem uncons (h : ParameterForm ts types variadic) (hne : ts ≠ []) :
    (∃ s, ts = [⟨.ellipsis, s⟩] ∧ types = [] ∧ variadic = true) ∨
      (∃ type, TypeForm ts type ∧ types = [type] ∧ variadic = false) ∨
      ∃ us type rest s vs, TypeForm us type ∧ ParameterForm vs rest variadic ∧ vs ≠ [] ∧
        ts = us ++ ⟨.comma, s⟩ :: vs ∧ types = type :: rest := by
  cases h with
  | none => exact absurd rfl hne
  | dots => exact .inl ⟨_, rfl, rfl, rfl⟩
  | types h =>
    cases h with
    | one h => exact .inr (.inl ⟨_, h, rfl, rfl⟩)
    | @more _ us _ _ _ h h' =>
      have hne : us ≠ [] := by
        cases h' with
        | one h' => exact h'.ne_nil
        | more => simp
      exact .inr (.inr ⟨_, _, _, _, us, h, .types h', hne, rfl, rfl⟩)
  | typesDots h =>
    cases h with
    | one h => exact .inr (.inr ⟨_, _, _, _, _, h, .dots, nofun, rfl, rfl⟩)
    | more h h' => exact .inr (.inr ⟨_, _, _, _, _, h, .typesDots h', by simp, List.append_assoc _ _ _, rfl⟩)

theorem nil_inv (h : ParameterForm [] types variadic) : types = [] ∧ variadic = false := by
  generalize hts : ([] : List PlacedToken) = ts at h
  cases h with
  | none => exact ⟨rfl, rfl⟩
  | dots => cases hts
  | types h =>
    cases h with
    | one h => exact absurd hts.symm h.ne_nil
    | more => simp at hts
  | typesDots => simp at hts

end ParameterForm

/-- A list with commas starts with its first item. -/
theorem CommaList.starts {α : Type} {F : List PlacedToken → α → Prop} {ts : List PlacedToken} {xs : List α}
    (h : CommaList F ts xs) : ∃ x us rest, F us x ∧ ts = us ++ rest := by
  cases h with
  | one h => exact ⟨_, _, [], h, (List.append_nil _).symm⟩
  | more h => exact ⟨_, _, _, h, rfl⟩

theorem TargetForm.starts {ts : List PlacedToken} {e : TargetExpr} (h : TargetForm ts e) :
    ∃ t rest, ts = t :: rest ∧ Parser.isTargetStart t.token := by
  cases h <;> exact ⟨_, _, rfl, rfl⟩

/- What literals stand for is left open: the grammar of statements does not depend on it. -/
section
variable (Lit : Token → OperandExpr → Prop)

inductive OperandForm : List PlacedToken → OperandExpr → Prop where
  | stack {s : Span} : OperandForm [⟨.underscore, s⟩] .stack
  | var {name : String} {s : Span} : OperandForm [⟨.var name, s⟩] (.var name s)
  | arg {n : Nat} {s : Span} : OperandForm [⟨.arg n, s⟩] (.arg n)
  | literal {t : Token} {s : Span} {e : OperandExpr} : Lit t e → OperandForm [⟨t, s⟩] e

/-- An operand that comes from the stack when it is left out. -/
inductive OptionalOperand : List PlacedToken → OperandExpr → Prop where
  | elided : OptionalOperand [] .stack
  | given {ts : List PlacedToken} {e : OperandExpr} : OperandForm Lit ts e → OptionalOperand ts e

/-- Two operands with a comma between them, which come from the stack when they are left out. -/
inductive OperandPair : List PlacedToken → OperandExpr → OperandExpr → Prop where
  | elided : OperandPair [] .stack .stack
  | given {ts us : List PlacedToken} {lhs rhs : OperandExpr} {s : Span} : OperandForm Lit ts lhs →
      OperandForm Lit us rhs → OperandPair (ts ++ ⟨.comma, s⟩ :: us) lhs rhs

/-- A value and the block that it comes from, in brackets. -/
inductive EdgeForm : List PlacedToken → OperandExpr × TargetExpr → Prop where
  | mk {ts us : List PlacedToken} {value : OperandExpr} {block : TargetExpr} {s s' s'' : Span} :
      OperandForm Lit ts value → TargetForm us block →
      EdgeForm (⟨.lbracket, s⟩ :: ts ++ ⟨.comma, s'⟩ :: us ++ [⟨.rbracket, s''⟩]) (value, block)

inductive ArgumentForm : List PlacedToken → List OperandExpr → Prop where
  | none : ArgumentForm [] []
  | some {ts : List PlacedToken} {args : List OperandExpr} : CommaList (OperandForm Lit) ts args →
      ArgumentForm ts args

/-! ### Statements -/

/-- What may follow the word of a statement, and the statement that this makes. -/
inductive Follows : Keyword → List PlacedToken → Command → Prop where
  | module {name : String} {s : Span} : Follows .module [⟨.ident name, s⟩] (.module name)
  | function {f : String} {ts us : List PlacedToken} {params : List TypeExpr} {variadic : Bool} {result : TypeExpr}
      {s s' close : Span} : ParameterForm ts params variadic → ResultForm close us result →
      Follows .function (⟨.global f, s⟩ :: ⟨.lparen, s'⟩ :: ts ++ ⟨.rparen, close⟩ :: us)
        (.function f result params variadic)
  | use {f : String} {s : Span} : Follows .use [⟨.global f, s⟩] (.use f)
  | block {name : String} {s : Span} : Follows .block [⟨.ident name, s⟩] (.block name)
  | setBlock {name : String} {s : Span} : Follows .setBlock [⟨.ident name, s⟩] (.setBlock name)
  | alloc {ts : List PlacedToken} {type : TypeExpr} : TypeForm ts type → Follows .alloc ts (.alloc type none)
  | allocNamed {ts : List PlacedToken} {type : TypeExpr} {name : String} {s : Span} : TypeForm ts type →
      Follows .alloc (ts ++ [⟨.var name, s⟩]) (.alloc type (some name))
  | load {ts us : List PlacedToken} {type : TypeExpr} {source : OperandExpr} : TypeForm ts type →
      OptionalOperand Lit us source → Follows .load (ts ++ us) (.load type source)
  | store {ts : List PlacedToken} {value dest : OperandExpr} : OperandPair Lit ts value dest →
      Follows .store ts (.store value dest)
  | binary {op : BinaryOp} {ts : List PlacedToken} {lhs rhs : OperandExpr} : OperandPair Lit ts lhs rhs →
      Follows (.binary op) ts (.binary op lhs rhs)
  | cmp {pred : Predicate} {ts : List PlacedToken} {lhs rhs : OperandExpr} {s : Span} : OperandPair Lit ts lhs rhs →
      Follows .cmp (⟨.ident pred.name, s⟩ :: ts) (.compare pred lhs rhs)
  | cast {kind : Conversion} {ts us : List PlacedToken} {value : OperandExpr} {type : TypeExpr} {s : Span} :
      OptionalOperand Lit ts value → TypeForm us type →
      Follows (.cast kind) (ts ++ ⟨.ident "to", s⟩ :: us) (.cast kind value type)
  | phi {ts : List PlacedToken} {edges : List (OperandExpr × TargetExpr)} : CommaList (EdgeForm Lit) ts edges →
      Follows .phi ts (.phi edges)
  | condBr {ts : List PlacedToken} {cond : OperandExpr} : OptionalOperand Lit ts cond →
      Follows .condbr ts (.condBr cond (.next 1) (.next 2))
  | condBrFull {ts us vs : List PlacedToken} {cond : OperandExpr} {onTrue onFalse : TargetExpr} {s s' : Span} :
      OperandForm Lit ts cond → TargetForm us onTrue → TargetForm vs onFalse →
      Follows .condbr (ts ++ ⟨.comma, s⟩ :: us ++ ⟨.comma, s'⟩ :: vs) (.condBr cond onTrue onFalse)
  | condBrTargets {us vs : List PlacedToken} {onTrue onFalse : TargetExpr} {s : Span} :
      TargetForm us onTrue → TargetForm vs onFalse →
      Follows .condbr (us ++ ⟨.comma, s⟩ :: vs) (.condBr .stack onTrue onFalse)
  | br : Follows .br [] (.br (.next 1))
  | brTarget {ts : List PlacedToken} {dest : TargetExpr} : TargetForm ts dest → Follows .br ts (.br dest)
  | call {f : String} {ts : List PlacedToken} {args : List OperandExpr} {s s' s'' : Span} : ArgumentForm Lit ts args →
      Follows .call (⟨.global f, s⟩ :: ⟨.lparen, s'⟩ :: ts ++ [⟨.rparen, s''⟩]) (.call f args)
  | ret : Follows .ret [] (.ret none)
  | retValue {ts : List PlacedToken} {value : OperandExpr} : OperandForm Lit ts value →
      Follows .ret ts (.ret (some value))
  | push {ts : List PlacedToken} {value : OperandExpr} : OperandForm Lit ts value → Follows .push ts (.push value)
  | pop : Follows .pop [] (.pop 1)
  | popCount {n : Nat} {s : Span} : Follows .pop [⟨.number n, s⟩] (.pop n)
  | keepStack : Follows .keepStack [] .keepStack
  | inspect : Follows .inspect [] .inspect
  | last : Follows .last [] .last

/-- A statement is its word and what follows it, and reaches from the one to the end of the other. -/
inductive Forms : List PlacedToken → Statement → Prop where
  | mk {k : Keyword} {s : Span} {ts : List PlacedToken} {c : Command} : Follows Lit k ts c →
      Forms (⟨.ident k.word, s⟩ :: ts) ⟨c, ⟨s.start, stopAfter s.stop ts⟩⟩

end

/-! ### Words -/

/-- The lines with tokens. -/
def lines (ts : List PlacedToken) : List (List PlacedToken) :=
  (ts.splitOnP (·.token = .newline)).filter (· ≠ [])

/-! ### Lines -/

/-- Tokens without the end of a line among them. -/
def Inline (ts : List PlacedToken) : Prop := ∀ t ∈ ts, t.token ≠ .newline

@[simp] theorem inline_nil : Inline [] := nofun

@[simp] theorem inline_cons {t : PlacedToken} {ts : List PlacedToken} :
    Inline (t :: ts) ↔ t.token ≠ .newline ∧ Inline ts := List.forall_mem_cons

@[simp] theorem inline_append {ts us : List PlacedToken} : Inline (ts ++ us) ↔ Inline ts ∧ Inline us :=
  List.forall_mem_append

theorem lines_of_inline {ts : List PlacedToken} (h : Inline ts) (hne : ts ≠ []) : lines ts = [ts] := by
  rw [lines, List.splitOnP_eq_singleton fun t ht => decide_eq_false (h t ht)]
  simp [hne]

theorem lines_newline {s : Span} {ts : List PlacedToken} : lines (⟨.newline, s⟩ :: ts) = lines ts := by
  rw [lines, List.splitOnP_cons_eq_if_modifyHead, if_pos (decide_eq_true rfl)]
  rfl

theorem lines_append {s : Span} {ts us : List PlacedToken} (h : Inline ts) (hne : ts ≠ []) :
    lines (ts ++ ⟨.newline, s⟩ :: us) = ts :: lines us := by
  rw [lines, List.splitOnP_append_cons_of_forall_mem fun t ht => decide_eq_false (h t ht)]
  · simp [hne, lines]
  · rfl

/-- A line is a part of the tokens, in their order. -/
theorem sublist_of_mem_lines {line ts : List PlacedToken} (h : line ∈ lines ts) : line.Sublist ts := by
  replace h := (List.mem_filter.mp h).1
  induction ts generalizing line with
  | nil =>
    obtain rfl := List.mem_singleton.mp h
    exact List.Sublist.refl _
  | cons t ts ih =>
    rw [List.splitOnP_cons_eq_if_modifyHead] at h
    split at h
    · rcases List.mem_cons.mp h with rfl | h
      · exact List.nil_sublist _
      · exact (ih h).cons t
    · cases hs : ts.splitOnP (·.token = .newline) with
      | nil => exact absurd hs (List.splitOnP_ne_nil _ _)
      | cons l ls =>
        rw [hs, List.modifyHead_cons] at h
        rcases List.mem_cons.mp h with rfl | h
        · exact (ih (hs ▸ .head _)).cons_cons t
        · exact (ih (hs ▸ .tail _ h)).cons t

theorem subset_of_mem_lines {line ts : List PlacedToken} (h : line ∈ lines ts) : line ⊆ ts :=
  (sublist_of_mem_lines h).subset

/-- Tokens start with the end of a line, or with a line that is not empty and reaches to the end of the tokens or to
the next end of a line. -/
theorem lines_cases (ts : List PlacedToken) :
    ts = [] ∨ (∃ s rest, ts = ⟨.newline, s⟩ :: rest) ∨
      ∃ line, line ≠ [] ∧ Inline line ∧ (ts = line ∨ ∃ s rest, ts = line ++ ⟨.newline, s⟩ :: rest) := by
  induction ts with
  | nil => exact .inl rfl
  | cons t ts ih =>
    obtain ⟨x, s⟩ := t
    by_cases hx : x = .newline
    · exact .inr (.inl ⟨s, ts, hx ▸ rfl⟩)
    · have single : Inline [⟨x, s⟩] := inline_cons.mpr ⟨hx, inline_nil⟩
      refine .inr (.inr ?_)
      rcases ih with rfl | ⟨s', rest, rfl⟩ | ⟨line, -, hline, rfl | ⟨s', rest, rfl⟩⟩
      · exact ⟨[⟨x, s⟩], nofun, single, .inl rfl⟩
      · exact ⟨[⟨x, s⟩], nofun, single, .inr ⟨s', rest, rfl⟩⟩
      · exact ⟨⟨x, s⟩ :: ts, nofun, inline_cons.mpr ⟨hx, hline⟩, .inl rfl⟩
      · exact ⟨⟨x, s⟩ :: line, nofun, inline_cons.mpr ⟨hx, hline⟩, .inr ⟨s', rest, rfl⟩⟩

/-! ### A statement stands on one line -/

section
variable {Lit : Token → OperandExpr → Prop} {ts : List PlacedToken}

theorem TypeForm.inline {e : TypeExpr} (h : TypeForm ts e) : Inline ts := by
  cases h with
  | mk hstars => exact inline_cons.mpr ⟨nofun, fun t ht => by rw [hstars t ht]; nofun⟩

theorem TargetForm.inline {e : TargetExpr} (h : TargetForm ts e) : Inline ts := by
  cases h <;> simp

theorem CommaList.inline {α : Type} {F : List PlacedToken → α → Prop} {xs : List α} (h : CommaList F ts xs)
    (hF : ∀ ts x, F ts x → Inline ts) : Inline ts := by
  induction h with
  | one h => exact hF _ _ h
  | more h _ ih => simp [hF _ _ h, ih]

theorem ParameterForm.inline {types : List TypeExpr} {variadic : Bool} (h : ParameterForm ts types variadic) :
    Inline ts := by
  cases h with
  | none | dots => simp
  | types h => exact h.inline fun _ _ => TypeForm.inline
  | typesDots h => simp [h.inline fun _ _ => TypeForm.inline]

theorem ResultForm.inline {close : Span} {e : TypeExpr} (h : ResultForm close ts e) : Inline ts := by
  cases h with
  | void => simp
  | arrow h => simp [h.inline]

variable (hlit : ∀ t e, Lit t e → t ≠ .newline)
include hlit

theorem OperandForm.inline {e : OperandExpr} (h : OperandForm Lit ts e) : Inline ts := by
  cases h with
  | literal h => simp [hlit _ _ h]
  | _ => simp

theorem OptionalOperand.inline {e : OperandExpr} (h : OptionalOperand Lit ts e) : Inline ts := by
  cases h with
  | elided => simp
  | given h => exact h.inline hlit

theorem OperandPair.inline {l r : OperandExpr} (h : OperandPair Lit ts l r) : Inline ts := by
  cases h with
  | elided => simp
  | given h h' => simp [h.inline hlit, h'.inline hlit]

theorem EdgeForm.inline {e : OperandExpr × TargetExpr} (h : EdgeForm Lit ts e) : Inline ts := by
  cases h with
  | mk h h' => simp [h.inline hlit, h'.inline]

theorem ArgumentForm.inline {es : List OperandExpr} (h : ArgumentForm Lit ts es) : Inline ts := by
  cases h with
  | none => simp
  | some h => exact h.inline fun _ _ => OperandForm.inline hlit

theorem Follows.inline {k : Keyword} {c : Command} (h : Follows Lit k ts c) : Inline ts := by
  cases h with
  | function h h' => simp [h.inline, h'.inline]
  | alloc h => exact h.inline
  | allocNamed h => simp [h.inline]
  | load h h' => simp [h.inline, h'.inline hlit]
  | store h | binary h => exact h.inline hlit
  | cmp h => simp [h.inline hlit]
  | cast h h' => simp [h.inline hlit, h'.inline]
  | phi h => exact h.inline fun _ _ => EdgeForm.inline hlit
  | condBr h => exact h.inline hlit
  | condBrFull h h' h'' => simp [h.inline hlit, h'.inline, h''.inline]
  | condBrTargets h h' => simp [h.inline, h'.inline]
  | brTarget h => exact h.inline
  | call h => simp [h.inline hlit]
  | retValue h | push h => exact h.inline hlit
  | _ => simp

theorem Forms.inline {st : Statement} (h : Forms Lit ts st) : Inline ts := by
  cases h with
  | mk h => simp [h.inline hlit]

end

/-! ### Readings of literals -/

section
variable {Lit Lit' : Token → OperandExpr → Prop} {ts : List PlacedToken}

theorem CommaList.imp {α : Type} {F G : List PlacedToken → α → Prop} {xs : List α} (h : CommaList F ts xs)
    (hFG : ∀ us x, us ⊆ ts → F us x → G us x) : CommaList G ts xs := by
  induction h with
  | one h => exact .one (hFG _ _ (List.Subset.refl _) h)
  | more h _ ih =>
    refine .more (hFG _ _ (by simp) h) (ih fun us x hus => hFG us x fun t ht => ?_)
    exact List.mem_append_right _ (.tail _ (hus ht))

/-- Whether a reading of literals can be replaced by another one in some tokens. -/
def Refines (Lit Lit' : Token → OperandExpr → Prop) (ts : List PlacedToken) : Prop :=
  ∀ t ∈ ts, ∀ e, Lit t.token e → Lit' t.token e

@[simp] theorem refines_cons {t : PlacedToken} : Refines Lit Lit' (t :: ts) ↔
    (∀ e, Lit t.token e → Lit' t.token e) ∧ Refines Lit Lit' ts := List.forall_mem_cons

@[simp] theorem refines_append {us : List PlacedToken} :
    Refines Lit Lit' (ts ++ us) ↔ Refines Lit Lit' ts ∧ Refines Lit Lit' us := List.forall_mem_append

theorem OperandForm.imp {e : OperandExpr} (h : OperandForm Lit ts e) (hr : Refines Lit Lit' ts) :
    OperandForm Lit' ts e := by
  cases h with
  | stack => exact .stack
  | var => exact .var
  | arg => exact .arg
  | literal h => exact .literal (hr _ (.head _) _ h)

theorem OptionalOperand.imp {e : OperandExpr} (h : OptionalOperand Lit ts e) (hr : Refines Lit Lit' ts) :
    OptionalOperand Lit' ts e := by
  cases h with
  | elided => exact .elided
  | given h => exact .given (h.imp hr)

theorem OperandPair.imp {l r : OperandExpr} (h : OperandPair Lit ts l r) (hr : Refines Lit Lit' ts) :
    OperandPair Lit' ts l r := by
  cases h with
  | elided => exact .elided
  | given h h' =>
    simp only [refines_append, refines_cons] at hr
    exact .given (h.imp hr.1) (h'.imp hr.2.2)

theorem EdgeForm.imp {e : OperandExpr × TargetExpr} (h : EdgeForm Lit ts e) (hr : Refines Lit Lit' ts) :
    EdgeForm Lit' ts e := by
  cases h with
  | mk h h' =>
    simp only [List.cons_append, refines_append, refines_cons] at hr
    exact .mk (h.imp hr.2.1.1) h'

theorem ArgumentForm.imp {es : List OperandExpr} (h : ArgumentForm Lit ts es) (hr : Refines Lit Lit' ts) :
    ArgumentForm Lit' ts es := by
  cases h with
  | none => exact .none
  | some h => exact .some (h.imp fun us x hus h => h.imp fun t ht => hr t (hus ht))

theorem Follows.imp {k : Keyword} {c : Command} (h : Follows Lit k ts c) (hr : Refines Lit Lit' ts) :
    Follows Lit' k ts c := by
  cases h with
  | load h h' => exact .load h (h'.imp (refines_append.mp hr).2)
  | store h => exact .store (h.imp hr)
  | binary h => exact .binary (h.imp hr)
  | cmp h => exact .cmp (h.imp (refines_cons.mp hr).2)
  | cast h h' => exact .cast (h.imp (refines_append.mp hr).1) h'
  | phi h => exact .phi (h.imp fun us x hus h => h.imp fun t ht => hr t (hus ht))
  | condBr h => exact .condBr (h.imp hr)
  | condBrFull h h' h'' =>
    rw [List.append_assoc] at hr
    exact .condBrFull (h.imp (refines_append.mp hr).1) h' h''
  | call h =>
    simp only [List.cons_append, refines_append, refines_cons] at hr
    exact .call (h.imp hr.2.2.1)
  | retValue h => exact .retValue (h.imp hr)
  | push h => exact .push (h.imp hr)
  | _ => constructor <;> assumption

theorem Forms.imp {st : Statement} (h : Forms Lit ts st) (hr : Refines Lit Lit' ts) : Forms Lit' ts st := by
  cases h with
  | mk h => exact .mk (h.imp (refines_cons.mp hr).2)

end

/-- A literal stands for what is read from it. -/
inductive Evaluates : Token → OperandExpr → Prop where
  | int {text : String} {e : OperandExpr} : Literal.integer text = .ok e → Evaluates (.intLiteral text) e
  | float {text : String} {e : OperandExpr} : Literal.float text = .ok e → Evaluates (.floatLiteral text) e

theorem Evaluates.ne_newline {t : Token} {e : OperandExpr} (h : Evaluates t e) : t ≠ .newline := by
  cases h <;> nofun

theorem OperandForm.starts {ts : List PlacedToken} {e : OperandExpr} (h : OperandForm Evaluates ts e) :
    ∃ t rest, ts = t :: rest ∧ Parser.isOperandStart t.token := by
  cases h with
  | literal hlit => cases hlit <;> exact ⟨_, _, rfl, rfl⟩
  | _ => exact ⟨_, _, rfl, rfl⟩

theorem IsRun.forall_ne {ds : List Char} (h : IsRun Char.isDigit ds) {c : Char} (hc : c.isDigit = false) :
    ∀ d ∈ ds, d ≠ c := by
  rintro d hd rfl
  rw [h.2 d hd] at hc
  cases hc

/-- A number and its width are told apart. -/
theorem split_eq_ok (number : List Char) {width : List Char} {c : Char} (hw : IsRun Char.isDigit width) (hc : c ≠ '_')
    {r : List Char × Nat} :
    Literal.split (String.ofList (number ++ '_' :: c :: width)) = .ok r ↔
      Text.digitsValue width < Nat.pow 2 32 ∧ r = (number, Text.digitsValue width) := by
  have hcut : Text.cutLast '_' (number ++ '_' :: c :: width) = (number, c :: width) :=
    Text.cutLast_append number (List.forall_mem_ne'.mp (List.forall_mem_cons.mpr ⟨hc, IsRun.forall_ne hw rfl⟩))
  rw [Literal.split, String.toList_ofList, hcut]
  change (if Text.digitsValue width < Nat.pow 2 32 then _ else _) = _ ↔ _
  split
  · next h => simp [h, eq_comm]
  · next h => simp [h]

theorem sign_minus {negative : Bool} {ds rest : List Char} (hd : IsRun Char.isDigit ds) :
    Literal.sign (minus negative ++ (ds ++ rest)) = (negative, ds ++ rest) := by
  cases negative with
  | true => rfl
  | false =>
    obtain ⟨d, ds, rfl⟩ := List.exists_cons_of_ne_nil hd.1
    have hne : d ≠ '-' := IsRun.forall_ne hd rfl d (.head _)
    change Literal.sign (d :: (ds ++ rest)) = _
    unfold Literal.sign
    split
    · next heq => exact absurd (List.cons.inj heq).1 hne
    · rfl

theorem integer_eq_ok {negative : Bool} {ds width : List Char} (hd : IsRun Char.isDigit ds)
    (hw : IsRun Char.isDigit width) {e : OperandExpr} :
    Literal.integer (String.ofList (minus negative ++ ds ++ '_' :: 'i' :: width)) = .ok e ↔
      ∃ value : Int, value = (if negative then -(Text.digitsValue ds : Int) else Text.digitsValue ds) ∧
        -(Nat.pow 2 127 : Int) ≤ value ∧ value < (Nat.pow 2 127 : Int) ∧ 1 ≤ Text.digitsValue width ∧
        Text.digitsValue width ≤ 128 ∧ e = .int value (Text.digitsValue width) := by
  rw [Literal.integer]
  cases hs : Literal.split (String.ofList (minus negative ++ ds ++ '_' :: 'i' :: width)) with
  | error f =>
    refine ⟨nofun, fun ⟨_, _, _, _, _, hle, _⟩ => ?_⟩
    have hlt : Text.digitsValue width < Nat.pow 2 32 := Nat.lt_of_le_of_lt hle (by decide)
    have := (split_eq_ok (minus negative ++ ds) (c := 'i') hw (by decide)).mpr ⟨hlt, rfl⟩
    rw [hs] at this
    cases this
  | ok r =>
    obtain ⟨_, rfl⟩ := (split_eq_ok _ hw (by decide)).mp hs
    have hvalue : Literal.integerValue (minus negative ++ ds) =
        if negative then -(Text.digitsValue ds : Int) else Text.digitsValue ds := by
      rw [Literal.integerValue, ← List.append_nil ds, sign_minus hd]
    change (if _ then _ else if _ then _ else _) = _ ↔ _
    rw [← hvalue]
    generalize Literal.integerValue (minus negative ++ ds) = value
    constructor
    · intro h
      split at h
      · cases h
      · split at h
        · cases h
        · cases h
          exact ⟨value, rfl, by omega, by omega, by omega, by omega, rfl⟩
    · rintro ⟨_, rfl, hlow, hhigh, hpos, hle, rfl⟩
      rw [if_neg (by omega), if_neg (by omega)]
      rfl

theorem float_eq_ok {negative : Bool} {whole places width : List Char} (hd : IsRun Char.isDigit whole)
    (hw : IsRun Char.isDigit width) {e : OperandExpr} :
    Literal.float (String.ofList (minus negative ++ whole ++ '.' :: places ++ '_' :: 'f' :: width)) = .ok e ↔
      Text.digitsValue width ∈ [16, 32, 64] ∧
        e = .float (Binary.ofDecimal negative (Text.digitsValue (whole ++ places)) places.length)
          (Text.digitsValue width) := by
  rw [Literal.float]
  cases hs : Literal.split (String.ofList (minus negative ++ whole ++ '.' :: places ++ '_' :: 'f' :: width)) with
  | error f =>
    refine ⟨nofun, fun ⟨hmem, _⟩ => ?_⟩
    have hlt : Text.digitsValue width < Nat.pow 2 32 := by
      simp only [List.mem_cons, List.not_mem_nil, or_false] at hmem
      rcases hmem with h | h | h <;> rw [h] <;> decide
    have := (split_eq_ok (minus negative ++ whole ++ '.' :: places) (c := 'f') hw (by decide)).mpr
      ⟨hlt, rfl⟩
    rw [hs] at this
    cases this
  | ok r =>
    obtain ⟨_, rfl⟩ := (split_eq_ok _ hw (by decide)).mp hs
    have hrun : '.' ∉ whole := List.forall_mem_ne'.mp (IsRun.forall_ne hd rfl)
    change (if _ then _ else _) = _ ↔ _
    rw [Literal.decimalBits, List.append_assoc, sign_minus hd]
    dsimp only
    rw [Text.cutFirst_append hrun]
    simp only [List.mem_cons, List.not_mem_nil, or_false]
    split
    · next h =>
      constructor
      · intro he
        cases he
        exact ⟨h, rfl⟩
      · rintro ⟨_, rfl⟩
        rfl
    · next h => exact ⟨nofun, fun ⟨h', _⟩ => absurd h' h⟩

/-- What is read from a literal is what it stands for. -/
theorem LiteralForm.evaluates {t : Token} {e : OperandExpr} (h : LiteralForm t e) : Evaluates t e := by
  cases h with
  | int htext hd hw hvalue hlow hhigh hpos hle =>
    exact .int (htext ▸ (integer_eq_ok hd hw).mpr ⟨_, hvalue, hlow, hhigh, hpos, hle, rfl⟩)
  | float htext hd _ hw hmem => exact .float (htext ▸ (float_eq_ok hd hw).mpr ⟨hmem, rfl⟩)

theorem Evaluates.literalForm {t : Token} {e : OperandExpr} (h : Evaluates t e) {cs : List Char}
    (hdecl : Declared cs (some t)) : LiteralForm t e := by
  have signed {number : List Char} (hs : IsSigned number) :
      ∃ negative ds, number = minus negative ++ ds ∧ IsRun Char.isDigit ds := by
    obtain ⟨_, ds, rfl, rfl | rfl, hd⟩ := hs
    · exact ⟨false, ds, rfl, hd⟩
    · exact ⟨true, ds, rfl, hd⟩
  cases h with
  | int h =>
    cases hdecl with
    | mark hm => simp [marks] at hm
    | intLiteral htext hs hw =>
      obtain ⟨negative, ds, rfl, hd⟩ := signed hs
      rw [htext] at h ⊢
      obtain ⟨value, hvalue, hlow, hhigh, hpos, hle, rfl⟩ := (integer_eq_ok hd hw).mp h
      exact .int rfl hd hw hvalue hlow hhigh hpos hle
  | float h =>
    cases hdecl with
    | mark hm => simp [marks] at hm
    | floatLiteral htext hs hp hw =>
      obtain ⟨negative, ds, rfl, hd⟩ := signed hs
      rw [htext] at h ⊢
      obtain ⟨hmem, rfl⟩ := (float_eq_ok hd hw).mp h
      exact .float rfl hd hp hw hmem

end Grammar

/-- The one item with a key is found by it. -/
private theorem find?_eq_some_iff_of_injective {α : Type} {key : α → String} {all : List α} (hall : ∀ a, a ∈ all)
    (hinj : ∀ a ∈ all, ∀ b ∈ all, key a = key b → a = b) {s : String} {a : α} :
    all.find? (key · = s) = some a ↔ key a = s := by
  constructor
  · intro h
    simpa using List.find?_some h
  · intro h
    cases hf : all.find? (key · = s) with
    | none => simpa [h] using List.find?_eq_none.mp hf a (hall a)
    | some b => rw [hinj b (hall b) a (hall a) (Eq.trans (by simpa using List.find?_some hf) h.symm)]

theorem Keyword.ofWord?_eq_some {s : String} {k : Keyword} : Keyword.ofWord? s = some k ↔ k.word = s := by
  refine find?_eq_some_iff_of_injective (fun k => ?_) (by decide +kernel)
  cases k with
  | binary op => cases op <;> decide
  | cast kind => cases kind <;> decide
  | _ => decide

end StackAssembler.Script

namespace StackAssembler.IR

theorem Predicate.ofName?_eq_some {s : String} {p : Predicate} : Predicate.ofName? s = some p ↔ p.name = s := by
  refine Script.find?_eq_some_iff_of_injective (fun p => ?_) (by decide +kernel)
  cases p with
  | float p => cases p <;> decide
  | int p => cases p <;> decide

end StackAssembler.IR
