import StackAssembler.Script.Parser
import StackAssembler.Proofs.StateError

/-! What reading a script can come to. All that goes wrong is a fault of its text, at a place where a token or an
unreadable piece of text stands, and a phi that is read has an edge. -/
namespace StackAssembler.Script
open IR Build TokenStream

/-- Errors in the text of a script. -/
def ScriptError.isTextual : ScriptError → Bool
  | lexer .. | parser .. => true
  | _ => false

/-- Where a token stands, or what is unreadable. -/
def itemSpan : Except Unreadable PlacedToken → Span
  | .ok t => t.span
  | .error u => u.span

/-- Where all that is left stands, and where the input ends. -/
def TokenStream.places (s : TokenStream) : List Span := s.endToken.span :: s.pending.map itemSpan

/-- What stays so while a script is read: with what is left, with the places of the tokens that are taken, and with the
errors. -/
structure Invariant where
  left : TokenStream → Prop
  place : Span → Prop
  error : ScriptError → Prop
  next (s : TokenStream) : left s → Yields (TokenStream.next s) (fun t s' => place t.span ∧ left s') error
  peek (s : TokenStream) : left s → Yields (TokenStream.peek s) (fun _ => left) error
  fault {p : Span} (f : SyntaxFault) : place p → error (.parser f p)

/-- Wherever reading starts, an invariant is kept, and what is read is of a kind. -/
def Reads (I : Invariant) {α : Type} (x : Reading α) (P : α → Prop) : Prop :=
  ∀ s : TokenStream, I.left s → Yields (x s) (fun a s' => P a ∧ I.left s') I.error

/-- Reading keeps an invariant. -/
abbrev Readable (I : Invariant) {α : Type} (x : Reading α) : Prop := Reads I x fun _ => True

variable {I : Invariant}

namespace Reads
variable {α β : Type} {P : α → Prop} {Q : β → Prop}

theorem bind {x : Reading α} {f : α → Reading β} (h : Reads I x P) (k : ∀ a, P a → Reads I (f a) Q) :
    Reads I (x >>= f) Q :=
  fun s hs => (h s hs).bind fun a s' ha => k a ha.1 s' ha.2

theorem pure {a : α} (h : P a) : Reads I (Pure.pure a) P := fun _ hs => ⟨h, hs⟩

theorem ite {c : Prop} [Decidable c] {x y : Reading α} (hx : Reads I x P) (hy : Reads I y P) :
    Reads I (if c then x else y) P := by
  split
  · exact hx
  · exact hy

/-- Any part that can be read may come first. -/
theorem first {x : Reading α} {f : α → Reading β} (h : Readable I x) (k : ∀ a, Reads I (f a) Q) : Reads I (x >>= f) Q :=
  h.bind fun a _ => k a

theorem get : Readable I (MonadState.get : Reading TokenStream) := fun _ hs => ⟨trivial, hs⟩

end Reads

/-! ### Tokens -/

namespace TokenStream
open Reads (first)

/-- A token that is taken stands at one of the places. -/
theorem next_reads : Reads I next fun t => I.place t.span := I.next

theorem next_readable : Readable I next := fun s hs => (I.next s hs).mono fun _ _ h => ⟨trivial, h.2⟩

theorem peek_readable : Readable I peek := fun s hs => (I.peek s hs).mono fun _ _ h => ⟨trivial, h⟩

theorem check_readable (t : Token) : Readable I (check t) := first peek_readable fun _ => .pure trivial

theorem accept_readable (t : Token) : Readable I (accept t) :=
  first (check_readable t) fun _ => .ite (first next_readable fun _ => .pure trivial) (.pure trivial)

theorem expect_readable (t : Token) : Readable I (expect t) :=
  next_reads.bind fun _ ht => .ite (.pure trivial) fun _ _ => I.fault _ ht

end TokenStream

/-! ### The grammar -/

namespace Parser
open Reads (first)

section
variable {α : Type} {P : α → Prop}

theorem reads_unexpected {w : Wanted} {t : PlacedToken} (h : I.place t.span) : Reads I (unexpected w t : Reading α) P :=
  fun _ _ => I.fault _ h

theorem reads_fault {f : SyntaxFault} {t : PlacedToken} (h : I.place t.span) : Reads I (fault f t : Reading α) P :=
  fun _ _ => I.fault _ h

end

theorem name_readable : Readable I name := next_reads.bind fun t ht => by
  split
  · exact .pure trivial
  · exact reads_unexpected ht

theorem functionName_readable : Readable I functionName := next_reads.bind fun t ht => by
  split
  · exact .pure trivial
  · exact reads_unexpected ht

theorem variableName_readable : Readable I variableName := next_reads.bind fun t ht => by
  split
  · exact .pure trivial
  · exact reads_unexpected ht

theorem number_readable : Readable I number := next_reads.bind fun t ht => by
  split
  · exact .pure trivial
  · exact reads_unexpected ht

theorem keyword_readable (word : String) : Readable I (keyword word) :=
  next_reads.bind fun _ ht => .ite (.pure trivial) (reads_unexpected ht)

theorem predicate_readable : Readable I predicate := next_reads.bind fun t ht => by
  split
  · split
    · exact .pure trivial
    · exact reads_fault ht
  · exact reads_unexpected ht

theorem stars_readable (fuel : Nat) : Readable I (stars fuel) := by
  induction fuel with
  | zero => exact .pure trivial
  | succ fuel ih => exact first (accept_readable _) fun _ => .ite (first ih fun _ => .pure trivial) (.pure trivial)

theorem type_readable : Readable I type := next_reads.bind fun t ht => by
  split
  · exact first .get fun _ => first (stars_readable _) fun _ => first .get fun _ => .pure trivial
  · exact reads_unexpected ht

theorem atOperand_readable : Readable I atOperand := first peek_readable fun _ => .pure trivial

theorem atTarget_readable : Readable I atTarget := first peek_readable fun _ => .pure trivial

theorem literal_readable (read : String → Except SyntaxFault OperandExpr) (text : String) {t : PlacedToken}
    (ht : I.place t.span) : Readable I (literal read text t) := by
  unfold literal
  split
  · exact .pure trivial
  · exact reads_fault ht

theorem operand_readable : Readable I operand := next_reads.bind fun t ht => by
  split
  · exact .pure trivial
  · exact .pure trivial
  · exact .pure trivial
  · exact literal_readable _ _ ht
  · exact literal_readable _ _ ht
  · exact reads_unexpected ht

theorem optionalOperand_readable : Readable I optionalOperand :=
  first atOperand_readable fun _ => .ite operand_readable (.pure trivial)

theorem operandPair_readable : Readable I operandPair := by
  refine first atOperand_readable fun _ => .ite ?_ (.pure trivial)
  exact first operand_readable fun _ => first (expect_readable _) fun _ => first operand_readable fun _ => .pure trivial

theorem target_readable : Readable I target := by
  refine first (accept_readable _) fun _ => .ite (first number_readable fun _ => .pure trivial) ?_
  refine next_reads.bind fun t ht => ?_
  split
  · exact .pure trivial
  · exact reads_unexpected ht

/-- A list with room for an item is not empty. -/
theorem commaList_reads {α : Type} {item : Reading α} (h : Readable I item) (fuel : Nat) :
    Reads I (commaList item fuel) fun xs => fuel ≠ 0 → xs ≠ [] := by
  induction fuel with
  | zero => exact .pure fun h => absurd rfl h
  | succ fuel ih =>
    refine first h fun x => first (accept_readable _) fun _ => .ite ?_ (.pure fun _ => List.cons_ne_nil x [])
    exact ih.bind fun xs _ => .pure fun _ => List.cons_ne_nil x xs

theorem itemBound_reads : Reads I itemBound (· ≠ 0) := fun s hs => ⟨Nat.succ_ne_zero s.pending.length, hs⟩

theorem parameters_readable (fuel : Nat) : Readable I (parameters fuel) := by
  induction fuel with
  | zero => exact .pure trivial
  | succ fuel ih =>
    refine first (accept_readable _) fun _ => .ite (.pure trivial) ?_
    refine first type_readable fun t => first (accept_readable _) fun _ => .ite ?_ (.pure trivial)
    exact first ih fun _ => .pure trivial

theorem edge_readable : Readable I edge := by
  refine first (expect_readable _) fun _ => first operand_readable fun v => ?_
  refine first (expect_readable _) fun _ => first target_readable fun b => ?_
  exact first (expect_readable _) fun _ => .pure trivial

/-! ### Commands -/

/-- A command that is not a phi without edges. -/
def Proper (c : Command) : Prop := c ≠ .phi []

/-- What follows the parameters of a function. -/
private theorem result_reads (f : String) (p : List TypeExpr × Bool) :
    Reads I (do
      let close ← expect .rparen
      let result ← if ← accept .arrow then type else pure ⟨"void", 0, close.span⟩
      return .function f result p.1 p.2) Proper := by
  refine first (expect_readable _) fun close => first (accept_readable _) fun _ => .ite ?_ ?_
  · exact first type_readable fun _ => .pure nofun
  · exact first (.pure trivial) fun _ => .pure nofun

theorem function_reads : Reads I function Proper := by
  refine first functionName_readable fun f => first (expect_readable _) fun _ => ?_
  refine first (check_readable _) fun _ => .ite ?_ ?_
  · exact first (.pure trivial) fun p => result_reads f p
  · refine itemBound_reads.bind fun n _ => first (parameters_readable n) fun p => result_reads f p

/-- What follows the condition of a branch. -/
private theorem targets_reads (cond : OperandExpr) (targets : Bool) :
    Reads I (if targets then do
        let onTrue ← target
        let _ ← expect .comma
        let onFalse ← target
        return .condBr cond onTrue onFalse
      else return .condBr cond (.next 1) (.next 2)) Proper := by
  refine .ite ?_ (.pure nofun)
  refine first target_readable fun _ => first (expect_readable _) fun _ => ?_
  exact first target_readable fun _ => .pure nofun

theorem condBr_reads : Reads I condBr Proper := by
  refine first atOperand_readable fun _ => first optionalOperand_readable fun cond => .ite ?_ ?_
  · exact first (accept_readable _) fun targets => targets_reads cond targets
  · exact first atTarget_readable fun targets => targets_reads cond targets

theorem call_reads : Reads I call Proper := by
  refine first functionName_readable fun f => first (expect_readable _) fun _ => ?_
  have close (args : List OperandExpr) :
      Reads I (do
        let _ ← expect .rparen
        return .call f args) Proper := first (expect_readable _) fun _ => .pure nofun
  refine first (check_readable _) fun _ => .ite (first (.pure trivial) close) ?_
  refine itemBound_reads.bind fun n _ => ?_
  exact (commaList_reads operand_readable n).bind fun args _ => close args

theorem command_reads (k : Keyword) : Reads I (command k) Proper := by
  have pair {c : OperandExpr × OperandExpr → Command} (h : ∀ p, Proper (c p)) :
      Reads I (operandPair >>= fun p => pure (c p)) Proper := first operandPair_readable fun p => .pure (h p)
  cases k with
  | module | block | setBlock => exact first name_readable fun _ => .pure nofun
  | function => exact function_reads
  | use => exact first functionName_readable fun _ => .pure nofun
  | alloc =>
    refine first type_readable fun t => first (check_readable _) fun _ => .ite ?_ (.pure nofun)
    exact first variableName_readable fun _ => .pure nofun
  | load => exact first type_readable fun t => first optionalOperand_readable fun _ => .pure nofun
  | store => exact pair fun _ => nofun
  | cmp => exact first predicate_readable fun p => pair fun _ => nofun
  | phi =>
    refine itemBound_reads.bind fun n hn => (commaList_reads edge_readable n).bind fun es hes => .pure fun he => ?_
    exact hes hn (Command.phi.inj he)
  | condbr => exact condBr_reads
  | br => exact first atTarget_readable fun _ => .ite (first target_readable fun _ => .pure nofun) (.pure nofun)
  | call => exact call_reads
  | ret => exact first atOperand_readable fun _ => .ite (first operand_readable fun _ => .pure nofun) (.pure nofun)
  | push => exact first operand_readable fun _ => .pure nofun
  | pop => exact first (check_readable _) fun _ => .ite (first number_readable fun _ => .pure nofun) (.pure nofun)
  | keepStack | inspect | last => exact .pure nofun
  | binary op => exact pair fun _ => nofun
  | cast kind =>
    refine first optionalOperand_readable fun v => first (keyword_readable _) fun _ => ?_
    exact first type_readable fun _ => .pure nofun

theorem statement_reads : Reads I statement fun s => Proper s.command := by
  refine next_reads.bind fun t ht => ?_
  split
  · split
    · exact (command_reads _).bind fun c hc => first .get fun _ => .pure hc
    · exact reads_fault ht
  · exact reads_unexpected ht

theorem endOfStatement_readable : Readable I endOfStatement := by
  refine first (check_readable _) fun _ => .ite (.pure trivial) ?_
  refine next_reads.bind fun t ht => ?_
  split
  · exact .pure trivial
  · exact reads_unexpected ht

theorem statements_reads (fuel : Nat) : Reads I (statements fuel) fun ss => ∀ s ∈ ss, Proper s.command := by
  induction fuel with
  | zero => exact .pure (List.forall_mem_nil _)
  | succ fuel ih =>
    refine first (accept_readable _) fun _ => .ite ih ?_
    refine first (check_readable _) fun _ => .ite (.pure (List.forall_mem_nil _)) ?_
    refine statement_reads.bind fun s hs => first endOfStatement_readable fun _ => ?_
    exact ih.bind fun ss hss => .pure (List.forall_mem_cons.mpr ⟨hs, hss⟩)

/-- A script that is read has proper commands, and what is wrong with one is what an invariant allows. -/
theorem parse_reads (I : Invariant) {source : String} (hleft : I.left (ofSource source)) :
    (∀ script, parse source = .ok script → ∀ s ∈ script, Proper s.command) ∧
      ∀ e, parse source = .error e → I.error e := by
  have hyields := statements_reads (I := I) ((ofSource source).pending.length + 1) _ hleft
  unfold parse
  dsimp only
  split
  · next hs =>
    refine ⟨fun script h => ?_, nofun⟩
    cases h
    exact (hyields.of_ok hs).1
  · next hs =>
    refine ⟨nofun, fun e h => ?_⟩
    cases h
    exact hyields.of_error hs

end Parser

/-! ### Places of errors -/

section
variable {S : Span → Prop}

/-- Whether all that is left stands at places of a kind. -/
def TokenStream.At (S : Span → Prop) (s : TokenStream) : Prop := ∀ p ∈ s.places, S p

theorem TokenStream.At.tail {s : TokenStream} {i : Except Unreadable PlacedToken}
    {rest : List (Except Unreadable PlacedToken)} (stop : Nat) (h : s.At S) (hp : s.pending = i :: rest) :
    S (itemSpan i) ∧ At S { s with pending := rest, lastStop := stop } := by
  have hplaces : s.places = s.endToken.span :: itemSpan i :: rest.map itemSpan := by rw [places, hp, List.map_cons]
  rw [At, hplaces, List.forall_mem_cons, List.forall_mem_cons] at h
  exact ⟨h.2.1, List.forall_mem_cons.mpr ⟨h.1, h.2.2⟩⟩

/-- Every error is one of the text, at a place of something that was left. -/
def Invariant.places (S : Span → Prop) : Invariant where
  left := At S
  place := S
  error e := e.isTextual ∧ S e.span
  next s hs := by
    unfold TokenStream.next
    split
    · exact ⟨hs _ (.head _), hs⟩
    · next hp => exact hs.tail _ hp
    · next hp => exact ⟨rfl, (hs.tail s.lastStop hp).1⟩
  peek s hs := by
    unfold TokenStream.peek
    split
    · exact hs
    · exact hs
    · next hp => exact ⟨rfl, (hs.tail s.lastStop hp).1⟩
  fault _ h := ⟨rfl, h⟩

end

namespace Parser

/-- A script that can be read has proper commands. -/
theorem parse_ok {source : String} {script : List Statement} (h : parse source = .ok script) :
    ∀ s ∈ script, Proper s.command :=
  (parse_reads (.places fun _ => True) fun _ _ => trivial).1 script h

/-- A script that cannot be read is at fault in its text, where a token or an unreadable piece stands. -/
theorem parse_fault {source : String} {e : ScriptError} (h : parse source = .error e) :
    e.isTextual ∧ e.span ∈ (ofSource source).places :=
  (parse_reads (.places (· ∈ (ofSource source).places)) fun _ hp => hp).2 e h

theorem parse_error {source : String} {e : ScriptError} (h : parse source = .error e) : e.isTextual := (parse_fault h).1

end Parser

private theorem mapM_error {α β ε : Type} {f : α → Except ε β} {P : ε → Prop} {xs : List α}
    (hf : ∀ x e, x ∈ xs → f x = .error e → P e) {e : ε} (h : xs.mapM f = .error e) : P e := by
  induction xs with
  | nil => cases h
  | cons x xs ih =>
    rw [List.mapM_cons] at h
    cases hx : f x with
    | error e' =>
      rw [hx] at h
      cases h
      exact hf x e (.head _) hx
    | ok y =>
      cases hxs : xs.mapM f with
      | error e' =>
        rw [hx, hxs] at h
        cases h
        exact ih (fun x e hin => hf x e (.tail _ hin)) hxs
      | ok ys =>
        rw [hx, hxs] at h
        cases h

/-- Before parsing only text in which no token starts can be at fault. -/
theorem tokens_fault {source : String} {e : ScriptError} (h : tokens source = .error e) :
    e.isTextual ∧ e.span ∈ (ofSource source).places := by
  unfold tokens at h
  dsimp only at h
  generalize hm : (List.mapM _ (TokenStream.ofSource source).pending : Except ScriptError _) = r at h
  cases r with
  | ok ts => cases h
  | error e' =>
    cases h
    refine mapM_error (P := fun e => e.isTextual ∧ e.span ∈ (ofSource source).places) (fun x e hin hx => ?_) hm
    cases x with
    | ok t => cases hx
    | error u =>
      cases hx
      exact ⟨rfl, .tail _ (List.mem_map_of_mem (f := itemSpan) hin)⟩

theorem tokens_error {source : String} {e : ScriptError} (h : tokens source = .error e) : e.isTextual :=
  (tokens_fault h).1

end StackAssembler.Script
