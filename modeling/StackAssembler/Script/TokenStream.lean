import StackAssembler.Script.Lexeme
import StackAssembler.Script.Error

/-! Tokens handed out one by one, with a look at the next one. -/
namespace StackAssembler.Script

/-- What is left of a script. After `pending` there is only the end of input, at byte `size`. -/
structure TokenStream where
  pending : List (Except Unreadable PlacedToken)
  size : Nat
  /-- Where the last token stopped that was taken. -/
  lastStop : Nat := 0
  deriving Inhabited

/-- A way to take tokens that may fail. What was taken before the failure stays taken. -/
abbrev Reading := EStateM ScriptError TokenStream

namespace TokenStream

def ofSource (source : String) : TokenStream := ⟨Lexeme.scan 0 source.toList, source.utf8ByteSize, 0⟩

def endToken (s : TokenStream) : PlacedToken := ⟨.endOfInput, ⟨s.size, s.size⟩⟩

/-- Take the next token. Unreadable text is taken, too, and reported. -/
def next : Reading PlacedToken := fun s =>
  match s.pending with
  | [] => .ok s.endToken s
  | .ok t :: rest => .ok t { s with pending := rest, lastStop := t.span.stop }
  | .error u :: rest => .error (.lexer u.text u.span) { s with pending := rest }

/-- Look at the next token. Unreadable text is taken and reported. -/
def peek : Reading PlacedToken := fun s =>
  match s.pending with
  | [] => .ok s.endToken s
  | .ok t :: _ => .ok t s
  | .error u :: rest => .error (.lexer u.text u.span) { s with pending := rest }

/-- Whether the next token is of the kind of `t`. -/
def check (t : Token) : Reading Bool := do
  return (← peek).token.sameKind t

/-- Take the next token if it is of the kind of `t`. -/
def accept (t : Token) : Reading Bool := do
  if ← check t then
    let _ ← next
    return true
  else return false

/-- Take the next token, which has to be of the kind of `t`. -/
def expect (t : Token) : Reading PlacedToken := do
  let found ← next
  if found.token.sameKind t then return found
  else throw (.parser (.unexpected (.token t) found.token) found.span)

end TokenStream

/-- The tokens of a script with the end of input behind them, or the first text that is unreadable. -/
def tokens (source : String) : Except ScriptError (List PlacedToken) := do
  let s := TokenStream.ofSource source
  let ts ← s.pending.mapM fun
    | .ok t => Except.ok t
    | .error u => Except.error (ScriptError.lexer u.text u.span)
  return ts ++ [s.endToken]

end StackAssembler.Script
