import StackAssembler.Proofs.Parsing
import StackAssembler.Proofs.Slices
import StackAssembler.Proofs.StrictLowering
import StackAssembler.Proofs.StrictPrinter

/-! Reading scripts by slices of their text, with no answer where a slice is not within the text. What is read has
integers of at most 128 bits only. -/
namespace StackAssembler.Script
open Text.Strict (dropBytes takeBytes slice lastPosition? dropBytes_append takeBytes_append slice_append
  lastPosition?_append)
open Lexeme (Declared bytes)

namespace Strict

/-! ### Tokens and their texts -/

/-- The token of a piece of text that is of the kind of another one. -/
def token (piece : List Char) : Token → Option Token
  | .var _ => return .var (String.ofList (← dropBytes 1 piece))
  | .global _ => return .global (String.ofList (← dropBytes 1 piece))
  | .arg _ => return .arg (Text.digitsValue (← dropBytes 1 piece))
  | .intLiteral _ => return .intLiteral (String.ofList piece)
  | .floatLiteral _ => return .floatLiteral (String.ofList piece)
  | .number _ => return .number (Text.digitsValue piece)
  | .ident _ => return .ident (String.ofList piece)
  | mark => return mark

/-- A token or an unreadable piece with its text taken from where it stands. Parameters whose numbers are too large are
looked at behind their sign before they are unreadable. -/
def item (text : List Char) : Except Unreadable PlacedToken → Option (Except Unreadable PlacedToken)
  | .ok t => do
    let piece ← slice text t.span.start t.span.stop
    return .ok ⟨← token piece t.token, t.span⟩
  | .error u => do
    let piece ← slice text u.span.start u.span.stop
    if piece.head? = some '$' then
      let _ ← dropBytes 1 piece
    return .error ⟨String.ofList piece, u.span⟩

/-- What is left of a script before it is read. Kinds of tokens and where they stand are as they are scanned. -/
def stream (source : String) : Option TokenStream :=
  return ⟨← (Lexeme.scan 0 source.toList).mapM (item source.toList), source.utf8ByteSize, 0⟩

def tokens (source : String) : Option (Except ScriptError (List PlacedToken)) := do
  let s ← stream source
  return do
    let ts ← s.pending.mapM fun
      | .ok t => Except.ok t
      | .error u => Except.error (ScriptError.lexer u.text u.span)
    return ts ++ [s.endToken]

/-! ### Literals -/

/-- What stands in front of the last marker in a literal, and the width behind it. -/
def split (marker : List Char) (text : String) : Option (Except SyntaxFault (List Char × Nat)) :=
  match lastPosition? marker text.toList with
  | none => return .error (.invalidLiteral text)
  | some n => do
    let bits := Text.digitsValue (← dropBytes (n + bytes marker) text.toList)
    let number ← takeBytes n text.toList
    return if bits < Nat.pow 2 32 then .ok (number, bits) else .error (.invalidLiteral text)

/-- The parts of a literal. -/
def parts? : Except Unreadable PlacedToken → Option (Option (Except SyntaxFault (List Char × Nat)))
  | .ok ⟨.intLiteral text, _⟩ => return some (← split ['_', 'i'] text)
  | .ok ⟨.floatLiteral text, _⟩ => return some (← split ['_', 'f'] text)
  | _ => return none

/-- What a literal is split into. -/
def halves? : Except Unreadable PlacedToken → Option (Except SyntaxFault (List Char × Nat))
  | .ok ⟨.intLiteral text, _⟩ | .ok ⟨.floatLiteral text, _⟩ => some (Literal.split text)
  | _ => none

/-- The statements of a script, all of whose literals are split. Nothing else in a script is taken apart. -/
def parse (source : String) : Option (Except ScriptError (List Statement)) := do
  let s ← stream source
  let _ ← s.pending.mapM parts?
  match Parser.statements (s.pending.length + 1) s with
  | .ok script _ => return .ok script
  | .error e _ => return .error e

/-! ### Answers -/

/-- What stands behind a sign. -/
private theorem behind_sign {c : Char} {cs : List Char} (hc : c.utf8Size = 1) : dropBytes 1 (c :: cs) = some cs := by
  have := dropBytes_append [c] cs
  rwa [show bytes [c] = 1 from hc] at this

theorem token_eq {piece : List Char} {t : Token} (h : Declared piece (some t)) : token piece t = some t := by
  cases h with
  | mark hm =>
    simp only [Lexeme.marks, List.mem_cons, Prod.mk.injEq, List.not_mem_nil, or_false] at hm
    rcases hm with h | h | h | h | h | h | h | h | h | h | h <;> rw [h.2] <;> rfl
  | var => rw [token, behind_sign rfl]; rfl
  | global => rw [token, behind_sign rfl]; rfl
  | arg => rw [token, behind_sign rfl]; rfl
  | intLiteral => rfl
  | floatLiteral => rfl
  | number => rfl
  | ident => rfl

/-- What is scanned of a text is found where it stands. -/
theorem item_eq (offset : Nat) (cs : List Char) : ∀ before, bytes before = offset →
    ∀ i ∈ Lexeme.scan offset cs, item (before ++ cs) i = some i := by
  -- the induction moves each piece that was scanned to the text before
  have next (before cs : List Char) (c : Char) (n : Nat) :
      before ++ c :: cs = before ++ (c :: cs.take n) ++ cs.drop n := by
    rw [List.append_assoc, List.cons_append, List.take_append_drop]
  have here (before cs : List Char) (c : Char) (n : Nat) : slice (before ++ c :: cs) (bytes before)
      (bytes before + bytes (c :: cs.take n)) = some (c :: cs.take n) := by
    rw [next before cs c n, List.append_assoc]
    exact slice_append before (c :: cs.take n) (cs.drop n)
  induction offset, cs using Lexeme.scan.induct with
  | case1 offset =>
    intro before ho
    rw [Lexeme.scan]
    exact List.forall_mem_nil _
  | case2 offset c cs n lexeme stop hf ih =>
    rintro before rfl
    rw [Lexeme.scan, hf, next before cs c n]
    exact ih _ (Lexeme.bytes_append _ _)
  | case3 offset c cs n lexeme stop x hf ih =>
    rintro before rfl
    rw [Lexeme.scan, hf]
    refine List.forall_mem_cons.mpr ⟨?_, ?_⟩
    · rw [item, here]
      dsimp only [bind, Option.bind]
      rw [token_eq (Lexeme.first_token hf).2.1]
      rfl
    · rw [next before cs c n]
      exact ih _ (Lexeme.bytes_append _ _)
  | case4 offset c cs n lexeme stop hf ih =>
    rintro before rfl
    rw [Lexeme.scan, hf]
    refine List.forall_mem_cons.mpr ⟨?_, ?_⟩
    · rw [item, here]
      dsimp only [bind, Option.bind]
      split
      · next hc =>
        cases Option.some.inj hc
        rw [behind_sign rfl]
        rfl
      · rfl
    · rw [next before cs c n]
      exact ih _ (Lexeme.bytes_append _ _)

/-- All tokens of a script are where they are said to stand. -/
theorem stream_eq (source : String) : stream source = some (TokenStream.ofSource source) := by
  have hitems : (Lexeme.scan 0 source.toList).mapM (item source.toList) =
      some ((Lexeme.scan 0 source.toList).map id) :=
    IR.Strict.mapM_eq fun i hi => item_eq 0 source.toList [] rfl i hi
  rw [stream, hitems, List.map_id]
  rfl

theorem tokens_eq (source : String) : tokens source = some (Script.tokens source) := by
  rw [tokens, stream_eq]
  rfl

/-- A literal is split where its width starts. -/
theorem split_eq (number : List Char) {width : List Char} {c : Char} (hw : Lexeme.IsRun Char.isDigit width) (hc : c ≠ '_') :
    split ['_', c] (String.ofList (number ++ '_' :: c :: width)) =
      some (Literal.split (String.ofList (number ++ '_' :: c :: width))) := by
  have hne : ∀ x ∈ c :: width, x ≠ '_' := List.forall_mem_cons.mpr ⟨hc, Grammar.IsRun.forall_ne hw rfl⟩
  have hcut : Text.cutLast '_' (number ++ '_' :: c :: width) = (number, c :: width) :=
    Text.cutLast_append number (List.forall_mem_ne'.mp hne)
  have hplace : lastPosition? ['_', c] (number ++ '_' :: c :: width) = some (bytes number) :=
    @lastPosition?_append '_' [c] width number hne
  have hbehind : dropBytes (bytes number + bytes ['_', c]) (number ++ '_' :: c :: width) = some width := by
    rw [← Lexeme.bytes_append]
    simpa using dropBytes_append (number ++ ['_', c]) width
  rw [split, Literal.split, String.toList_ofList, hcut, hplace]
  dsimp only [bind, Option.bind]
  rw [hbehind]
  dsimp only
  rw [takeBytes_append]
  rfl

/-- Literals, which are the only tokens that are taken apart, can be split. -/
theorem parts?_eq {i : Except Unreadable PlacedToken} (h : ∀ t, i = .ok t → ∃ piece, Declared piece (some t.token)) :
    parts? i = some (halves? i) := by
  obtain u | ⟨t, span⟩ := i
  · rfl
  obtain ⟨piece, h⟩ := h _ rfl
  dsimp only at h
  cases h with
  | @intLiteral _ number width htext _ hw =>
    rw [htext, parts?, split_eq number hw (by decide)]
    rfl
  | @floatLiteral _ number places width htext _ _ hw =>
    rw [htext, parts?, split_eq (number ++ '.' :: places) hw (by decide)]
    rfl
  | mark hm =>
    simp only [Lexeme.marks, List.mem_cons, Prod.mk.injEq, List.not_mem_nil, or_false] at hm
    rcases hm with h | h | h | h | h | h | h | h | h | h | h <;> rw [h.2] <;> rfl
  | var | global | arg | number | ident => rfl

theorem parse_eq (source : String) : parse source = some (Parser.parse source) := by
  have hparts : (TokenStream.ofSource source).pending.mapM parts? =
      some ((TokenStream.ofSource source).pending.map halves?) :=
    IR.Strict.mapM_eq fun i hi => parts?_eq fun t ht => Parser.scan_declared (ht ▸ hi)
  rw [parse, stream_eq]
  dsimp only [bind, Option.bind]
  rw [hparts, Parser.parse]
  dsimp only
  cases Parser.statements ((TokenStream.ofSource source).pending.length + 1) (TokenStream.ofSource source) <;> rfl

/-! ### Widths of literals -/

section
open Grammar

variable {ts : List PlacedToken}

private theorem narrow_operand {e : OperandExpr} (h : OperandForm LiteralForm ts e) : e.Narrow := by
  cases h with
  | stack | var | arg => exact trivial
  | literal h =>
    cases h with
    | int _ _ _ _ _ _ _ hle => exact Nat.lt_of_le_of_lt hle (by decide)
    | float => exact trivial

private theorem narrow_optional {e : OperandExpr} (h : OptionalOperand LiteralForm ts e) : e.Narrow := by
  cases h with
  | elided => exact trivial
  | given h => exact narrow_operand h

private theorem narrow_pair {l r : OperandExpr} (h : OperandPair LiteralForm ts l r) : ∀ e ∈ [l, r], e.Narrow := by
  cases h with
  | elided => simp [OperandExpr.Narrow]
  | given hl hr => exact List.forall_mem_cons.mpr ⟨narrow_operand hl, List.forall_mem_singleton.mpr (narrow_operand hr)⟩

private theorem narrow_list {α : Type} {F : List PlacedToken → α → Prop} {g : α → OperandExpr} {xs : List α}
    (hF : ∀ ts x, F ts x → (g x).Narrow) (h : CommaList F ts xs) : ∀ x ∈ xs, (g x).Narrow := by
  induction h with
  | one h => exact List.forall_mem_singleton.mpr (hF _ _ h)
  | more h _ ih => exact List.forall_mem_cons.mpr ⟨hF _ _ h, ih⟩

private theorem narrow_edges {edges : List (OperandExpr × TargetExpr)} (h : CommaList (EdgeForm LiteralForm) ts edges) :
    ∀ e ∈ edges.map Prod.fst, e.Narrow := by
  refine List.forall_mem_map.mpr (narrow_list (fun ts e he => ?_) h)
  cases he with
  | mk hv => exact narrow_operand hv

/-- The widths of all integers in a statement take 32 bits. -/
theorem narrow_of_follows {k : Keyword} {c : Command} (h : Follows LiteralForm k ts c) : c.Narrow := by
  cases h with
  | load _ h | cast h _ | condBr h => exact List.forall_mem_singleton.mpr (narrow_optional h)
  | store h | binary h | cmp h => exact narrow_pair h
  | phi h => exact narrow_edges h
  | condBrFull h | retValue h | push h => exact List.forall_mem_singleton.mpr (narrow_operand h)
  | condBrTargets => exact List.forall_mem_singleton.mpr trivial
  | call h =>
    cases h with
    | none => exact List.forall_mem_nil _
    | some h => exact narrow_list (g := id) (fun _ _ he => narrow_operand he) h
  | _ => exact List.forall_mem_nil _

theorem narrow_of_parse {source : String} {script : List Statement} (h : Parser.parse source = .ok script) :
    ∀ s ∈ script, s.command.Narrow := by
  obtain ⟨us, _, hforms⟩ := Parser.parse_eq_ok.mp h
  clear h
  generalize lines us = ls at hforms
  induction hforms with
  | nil => exact List.forall_mem_nil _
  | cons hform _ ih =>
    cases hform with
    | mk hfollows => exact List.forall_mem_cons.mpr ⟨narrow_of_follows hfollows, ih⟩

end
end Strict
end StackAssembler.Script
