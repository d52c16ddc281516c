import StackAssembler.Span

/-! The tokens of scripts. -/
namespace StackAssembler.Script

/-- A token. Literals keep their text. -/
inductive Token where
  | newline | underscore | comma | lparen | rparen | lbracket | rbracket | star | plus | arrow | ellipsis
  | var (name : String)
  | global (name : String)
  | arg (index : Nat)
  | intLiteral (text : String)
  | floatLiteral (text : String)
  | number (n : Nat)
  | ident (name : String)
  | endOfInput
  deriving DecidableEq, Repr, Inhabited

namespace Token

/-- How messages show a token. -/
def text : Token → String
  | newline => "end of line"
  | underscore => "_"
  | comma => ","
  | lparen => "("
  | rparen => ")"
  | lbracket => "["
  | rbracket => "]"
  | star => "*"
  | plus => "+"
  | arrow => "->"
  | ellipsis => "..."
  | var name => "%" ++ name
  | global name => "@" ++ name
  | arg index => "$" ++ toString index
  | intLiteral text | floatLiteral text => text
  | number n => toString n
  | ident name => name
  | endOfInput => "end of file"

/-- The name of the kind of a token. -/
def kindName : Token → String
  | newline => "Newline"
  | underscore => "Underscore"
  | comma => "Comma"
  | lparen => "LParen"
  | rparen => "RParen"
  | lbracket => "LBracket"
  | rbracket => "RBracket"
  | star => "Star"
  | plus => "Plus"
  | arrow => "Arrow"
  | ellipsis => "Ellipsis"
  | var _ => "Var"
  | global _ => "Global"
  | arg _ => "Arg"
  | intLiteral _ => "IntLiteral"
  | floatLiteral _ => "FloatLiteral"
  | number _ => "Number"
  | ident _ => "Ident"
  | endOfInput => "Eof"

/-- Whether two tokens are of one kind, whatever they hold. -/
def sameKind (a b : Token) : Bool :=
  match a, b with
  | newline, newline | underscore, underscore | comma, comma | lparen, lparen | rparen, rparen
  | lbracket, lbracket | rbracket, rbracket | star, star | plus, plus | arrow, arrow
  | ellipsis, ellipsis | var _, var _ | global _, global _ | arg _, arg _
  | intLiteral _, intLiteral _ | floatLiteral _, floatLiteral _ | number _, number _
  | ident _, ident _ | endOfInput, endOfInput => true
  | _, _ => false

end Token

/-- A token and where it stands. -/
structure PlacedToken where
  token : Token
  span : Span
  deriving DecidableEq, Repr, Inhabited

/-- Text in which no token starts. -/
structure Unreadable where
  text : String
  span : Span
  deriving DecidableEq, Repr, Inhabited

end StackAssembler.Script
