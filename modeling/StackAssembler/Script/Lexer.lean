import StackAssembler.Script.TokenStream

/-! Tokens cut off a script one by one. There is room for one that was looked at and is not yet taken. -/
namespace StackAssembler.Script

/-- The first token of a text that starts at byte `offset`, or what is unreadable in front of it, and where the text
goes on behind that. -/
def Lexeme.advance (offset : Nat) : List Char → Option (Except Unreadable PlacedToken × Nat × List Char)
  | [] => none
  | c :: cs =>
    let (piece, n) := first c cs
    let lexeme := c :: cs.take n
    let stop := offset + bytes lexeme
    match piece with
    | .skipped => advance stop (cs.drop n)
    | .token t => some (.ok ⟨t, ⟨offset, stop⟩⟩, stop, cs.drop n)
    | .unreadable => some (.error ⟨String.ofList lexeme, ⟨offset, stop⟩⟩, stop, cs.drop n)
  termination_by cs => cs.length
  decreasing_by simp only [List.length_drop, List.length_cons]; omega

/-- A script that is cut into tokens. -/
structure Lexer where
  /-- The text that is left. -/
  rest : List Char
  /-- The byte at which `rest` starts. -/
  offset : Nat
  size : Nat
  /-- The token in front of `rest`, if it was looked at. -/
  peeked : Option PlacedToken := none
  /-- Whether the end of input was handed out or looked at. -/
  ended : Bool := false

/-- A way to cut off tokens that may fail. What was cut off before the failure stays cut off. -/
abbrev Lexing := EStateM ScriptError Lexer

namespace Lexer

def ofSource (source : String) : Lexer := { rest := source.toList, offset := 0, size := source.utf8ByteSize }

def endToken (l : Lexer) : PlacedToken := ⟨.endOfInput, ⟨l.size, l.size⟩⟩

/-- Cut off the next token. Unreadable text is cut off, too, and reported. -/
def scan : Lexing PlacedToken := fun l =>
  if l.ended then .ok l.endToken l
  else
    match Lexeme.advance l.offset l.rest with
    | none => .ok l.endToken { l with ended := true }
    | some (.ok t, offset, rest) => .ok t { l with offset, rest }
    | some (.error u, offset, rest) => .error (.lexer u.text u.span) { l with offset, rest }

/-- Take the token that was looked at, or else cut one off. -/
def next : Lexing PlacedToken := fun l =>
  match l.peeked with
  | some t => .ok t { l with peeked := none }
  | none => scan l

/-- Look at the next token, and keep it. -/
def peek : Lexing PlacedToken := do
  let t ← next
  modify fun l => { l with peeked := some t }
  return t

/-- Whether the next token is of the kind of `t`. -/
def check (t : Token) : Lexing Bool := do
  return (← peek).token.sameKind t

/-- Take the next token if it is of the kind of `t`. -/
def accept (t : Token) : Lexing Bool := do
  if ← check t then
    let _ ← next
    return true
  else return false

/-- Take the next token, which has to be of the kind of `t`. -/
def expect (t : Token) : Lexing PlacedToken := do
  let found ← next
  if found.token.sameKind t then return found
  else throw (.parser (.unexpected (.token t) found.token) found.span)

/-! ### Calls -/

/-- What can be asked of a lexer. -/
inductive Call where
  | next
  | peek
  | check (t : Token)
  | accept (t : Token)
  | expect (t : Token)
  deriving DecidableEq, Repr

inductive Answer where
  | token (t : PlacedToken)
  | verdict (b : Bool)
  deriving DecidableEq, Repr

def call : Call → Lexing Answer
  | .next => return .token (← next)
  | .peek => return .token (← peek)
  | .check t => return .verdict (← check t)
  | .accept t => return .verdict (← accept t)
  | .expect t => return .token (← expect t)

/-- The answer to a call, and the lexer behind it. -/
def answer (c : Call) (l : Lexer) : Except ScriptError Answer × Lexer :=
  match call c l with
  | .ok a l => (.ok a, l)
  | .error e l => (.error e, l)

/-- The answers to calls one after the other, also after one that fails. -/
def answers : List Call → Lexer → List (Except ScriptError Answer)
  | [], _ => []
  | c :: cs, l =>
    let (a, l) := answer c l
    a :: answers cs l

end Lexer
end StackAssembler.Script
