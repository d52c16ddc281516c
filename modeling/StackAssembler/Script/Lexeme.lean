import StackAssembler.Script.Token
import StackAssembler.Text.Digits

/-! The pieces of text that make up a script: tokens, blanks and comments, each as long as it can be. -/
namespace StackAssembler.Script.Lexeme
open Text

/-- The characters of names. -/
def isNameChar (c : Char) : Bool := c.isAlphanum || c == '_' || c == '.'

/-- White space within a line. -/
def isBlank (c : Char) : Bool := c == ' ' || c == '\t' || c == '\r' || c == '\x0c'

def bytes (cs : List Char) : Nat := cs.foldr (fun c n => c.utf8Size + n) 0

/-- What a piece of text is. -/
inductive Piece where
  | skipped
  | token (t : Token)
  | unreadable
  deriving DecidableEq, Repr

/-- The token for a name of at least one character behind a sign. -/
def sigil (make : String → Token) (cs : List Char) : Piece × Nat :=
  match cs.takeWhile isNameChar with
  | [] => (.unreadable, 0)
  | name => (.token (make (String.ofList name)), name.length)

/-- A parameter. Its number has to fit into 32 bits. -/
def parameter (cs : List Char) : Piece × Nat :=
  match cs.takeWhile Char.isDigit with
  | [] => (.unreadable, 0)
  | ds => (if digitsValue ds < Nat.pow 2 32 then .token (.arg (digitsValue ds)) else .unreadable, ds.length)

/-- The length of a width, which is `marker` and some digits behind an underscore, if `cs` starts with one. -/
def width? (marker : Char) (cs : List Char) : Option Nat :=
  match cs with
  | '_' :: c :: rest =>
    let ds := rest.takeWhile Char.isDigit
    if c = marker ∧ ds ≠ [] then some (ds.length + 2) else none
  | _ => none

/-- The length of a fraction, which is a point and some digits, if `cs` starts with one. -/
def fraction? (cs : List Char) : Option Nat :=
  match cs with
  | '.' :: rest =>
    let ds := rest.takeWhile Char.isDigit
    if ds ≠ [] then some (ds.length + 1) else none
  | _ => none

/-- What the digits `ds`, behind a minus when `negative`, and the text `rest` after them start with, and how
long it is. Digits alone have to fit into 64 bits. A fraction without a width is unreadable as a whole, and
so are digits behind a minus without one. -/
def numeral (negative : Bool) (ds rest : List Char) : Piece × Nat :=
  let sign := if negative then ['-'] else []
  let text (n : Nat) := String.ofList (sign ++ ds ++ rest.take n)
  let size (n : Nat) := sign.length + ds.length + n
  match width? 'i' rest with
  | some w => (.token (.intLiteral (text w)), size w)
  | none =>
    match fraction? rest with
    | some f =>
      match width? 'f' (rest.drop f) with
      | some w => (.token (.floatLiteral (text (f + w))), size (f + w))
      | none => (.unreadable, size f)
    | none =>
      if negative || Nat.pow 2 64 ≤ digitsValue ds then (.unreadable, size 0)
      else (.token (.number (digitsValue ds)), size 0)

/-- What a text starts with, and how many characters that takes besides the first. -/
def first (c : Char) (cs : List Char) : Piece × Nat :=
  if isBlank c then (.skipped, 0)
  else if c.isAlpha then
    let rest := cs.takeWhile isNameChar
    (.token (.ident (String.ofList (c :: rest))), rest.length)
  else if c.isDigit then
    let (piece, n) := numeral false ((c :: cs).takeWhile Char.isDigit) ((c :: cs).dropWhile Char.isDigit)
    (piece, n - 1)
  else match c with
  | ';' => (.skipped, (cs.takeWhile (· != '\n')).length)
  | '\n' => (.token .newline, 0)
  | '_' => (.token .underscore, 0)
  | ',' => (.token .comma, 0)
  | '(' => (.token .lparen, 0)
  | ')' => (.token .rparen, 0)
  | '[' => (.token .lbracket, 0)
  | ']' => (.token .rbracket, 0)
  | '*' => (.token .star, 0)
  | '+' => (.token .plus, 0)
  | '%' => sigil .var cs
  | '@' => sigil .global cs
  | '$' => parameter cs
  | '.' =>
    match cs with
    | '.' :: '.' :: _ => (.token .ellipsis, 2)
    | _ => (.unreadable, 0)
  | '-' =>
    match cs with
    | '>' :: _ => (.token .arrow, 1)
    | _ =>
      match cs.takeWhile Char.isDigit with
      | [] => (.unreadable, 0)
      | ds =>
        let (piece, n) := numeral true ds (cs.dropWhile Char.isDigit)
        (piece, n - 1)
  | _ => (.unreadable, 0)

/-- All tokens of a text that starts at byte `offset`, and what is unreadable in it, in order. -/
def scan (offset : Nat) : List Char → List (Except Unreadable PlacedToken)
  | [] => []
  | c :: cs =>
    let (piece, n) := first c cs
    let lexeme := c :: cs.take n
    let stop := offset + bytes lexeme
    match piece with
    | .skipped => scan stop (cs.drop n)
    | .token t => .ok ⟨t, ⟨offset, stop⟩⟩ :: scan stop (cs.drop n)
    | .unreadable => .error ⟨String.ofList lexeme, ⟨offset, stop⟩⟩ :: scan stop (cs.drop n)
  termination_by cs => cs.length
  decreasing_by all_goals simp only [List.length_drop, List.length_cons]; omega

end StackAssembler.Script.Lexeme
