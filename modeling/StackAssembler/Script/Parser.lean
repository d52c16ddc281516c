import StackAssembler.Script.TokenStream
import StackAssembler.Script.Literal

/-! Reading scripts: one statement a line. Operands that may be left out come from the stack. -/
namespace StackAssembler.Script.Parser
open IR Build TokenStream

/-- Report a token where something else is wanted. -/
def unexpected {α : Type} (wanted : Wanted) (found : PlacedToken) : Reading α :=
  throw (.parser (.unexpected wanted found.token) found.span)

/-- Report what is wrong with a token. -/
def fault {α : Type} (f : SyntaxFault) (t : PlacedToken) : Reading α := throw (.parser f t.span)

/-! ### Single tokens -/

def name : Reading String := do
  let t ← next
  match t.token with
  | .ident s => return s
  | _ => unexpected .name t

def functionName : Reading String := do
  let t ← next
  match t.token with
  | .global s => return s
  | _ => unexpected .functionName t

def variableName : Reading String := do
  let t ← next
  match t.token with
  | .var s => return s
  | _ => unexpected .variableName t

def number : Reading Nat := do
  let t ← next
  match t.token with
  | .number n => return n
  | _ => unexpected .number t

def keyword (word : String) : Reading Unit := do
  let t ← next
  if t.token = .ident word then return ()
  else unexpected (.keyword word) t

def predicate : Reading Predicate := do
  let t ← next
  match t.token with
  | .ident s =>
    match Predicate.ofName? s with
    | some p => return p
    | none => fault (.unknownPredicate s) t
  | _ => unexpected .predicate t

/-! ### Types, operands and targets -/

/-- Take all stars that come next; there are at most as many as `fuel`. -/
def stars : Nat → Reading Nat
  | 0 => return 0
  | fuel + 1 => do
    if ← accept .star then return (← stars fuel) + 1
    else return 0

def type : Reading TypeExpr := do
  let t ← next
  match t.token with
  | .ident base =>
    let pointers ← stars (← get).pending.length
    return ⟨base, pointers, ⟨t.span.start, (← get).lastStop⟩⟩
  | _ => unexpected .type t

def isOperandStart : Token → Bool
  | .underscore | .var _ | .arg _ | .intLiteral _ | .floatLiteral _ => true
  | _ => false

def isTargetStart : Token → Bool
  | .ident _ | .plus => true
  | _ => false

def atOperand : Reading Bool := do
  return isOperandStart (← peek).token

def atTarget : Reading Bool := do
  return isTargetStart (← peek).token

/-- The number that a literal stands for. -/
def literal (read : String → Except SyntaxFault OperandExpr) (text : String) (t : PlacedToken) :
    Reading OperandExpr :=
  match read text with
  | .ok e => return e
  | .error f => fault f t

def operand : Reading OperandExpr := do
  let t ← next
  match t.token with
  | .underscore => return .stack
  | .var s => return .var s t.span
  | .arg n => return .arg n
  | .intLiteral text => literal Literal.integer text t
  | .floatLiteral text => literal Literal.float text t
  | _ => unexpected .operand t

def optionalOperand : Reading OperandExpr := do
  if ← atOperand then operand else return .stack

/-- Two operands with a comma between them, or none for two from the stack. -/
def operandPair : Reading (OperandExpr × OperandExpr) := do
  if ← atOperand then
    let lhs ← operand
    let _ ← expect .comma
    let rhs ← operand
    return (lhs, rhs)
  else return (.stack, .stack)

/-- A block name, or a plus and a number. -/
def target : Reading TargetExpr := do
  if ← accept .plus then return .next (← number)
  else
    let t ← next
    match t.token with
    | .ident s => return .named s t.span
    | _ => unexpected .block t

/-- Items with commas between them; there are at most as many as `fuel`. -/
def commaList {α : Type} (item : Reading α) : Nat → Reading (List α)
  | 0 => return []
  | fuel + 1 => do
    let x ← item
    if ← accept .comma then return x :: (← commaList item fuel)
    else return [x]

/-- No more items than these can follow. -/
def itemBound : Reading Nat := return (← get).pending.length + 1

/-! ### Statements -/

/-- Parameter types, and whether dots end them; there are at most as many as `fuel`. -/
def parameters : Nat → Reading (List TypeExpr × Bool)
  | 0 => return ([], false)
  | fuel + 1 => do
    if ← accept .ellipsis then return ([], true)
    else
      let t ← type
      if ← accept .comma then
        let (ts, variadic) ← parameters fuel
        return (t :: ts, variadic)
      else return ([t], false)

/-- What follows the word of a function statement. Without an arrow the result is void. -/
def function : Reading Command := do
  let f ← functionName
  let _ ← expect .lparen
  let (params, variadic) ←
    if ← check .rparen then pure ([], false) else parameters (← itemBound)
  let close ← expect .rparen
  let result ← if ← accept .arrow then type else pure ⟨"void", 0, close.span⟩
  return .function f result params variadic

def edge : Reading (OperandExpr × TargetExpr) := do
  let _ ← expect .lbracket
  let v ← operand
  let _ ← expect .comma
  let b ← target
  let _ ← expect .rbracket
  return (v, b)

/-- What follows the word of a conditional branch. Targets that are left out are the next two blocks. -/
def condBr : Reading Command := do
  let explicit ← atOperand
  let cond ← optionalOperand
  let targets ← if explicit then accept .comma else atTarget
  if targets then
    let onTrue ← target
    let _ ← expect .comma
    let onFalse ← target
    return .condBr cond onTrue onFalse
  else return .condBr cond (.next 1) (.next 2)

def call : Reading Command := do
  let f ← functionName
  let _ ← expect .lparen
  let args ← if ← check .rparen then pure [] else commaList operand (← itemBound)
  let _ ← expect .rparen
  return .call f args

/-- What follows the word of a statement. -/
def command : Keyword → Reading Command
  | .module => return .module (← name)
  | .function => function
  | .use => return .use (← functionName)
  | .block => return .block (← name)
  | .setBlock => return .setBlock (← name)
  | .alloc => do
    let t ← type
    if ← check (.var "") then return .alloc t (some (← variableName))
    else return .alloc t none
  | .load => do
    let t ← type
    return .load t (← optionalOperand)
  | .store => do
    let (value, dest) ← operandPair
    return .store value dest
  | .cmp => do
    let p ← predicate
    let (lhs, rhs) ← operandPair
    return .compare p lhs rhs
  | .phi => return .phi (← commaList edge (← itemBound))
  | .condbr => condBr
  | .br => do
    if ← atTarget then return .br (← target)
    else return .br (.next 1)
  | .call => call
  | .ret => do
    if ← atOperand then return .ret (some (← operand))
    else return .ret none
  | .push => return .push (← operand)
  | .pop => do
    if ← check (.number 0) then return .pop (← number)
    else return .pop 1
  | .keepStack => return .keepStack
  | .inspect => return .inspect
  | .last => return .last
  | .binary op => do
    let (lhs, rhs) ← operandPair
    return .binary op lhs rhs
  | .cast kind => do
    let v ← optionalOperand
    keyword "to"
    return .cast kind v (← type)

def statement : Reading Statement := do
  let t ← next
  match t.token with
  | .ident word =>
    match Keyword.ofWord? word with
    | some k =>
      let c ← command k
      return ⟨c, ⟨t.span.start, (← get).lastStop⟩⟩
    | none => fault (.unknownStatement word) t
  | _ => unexpected .statement t

/-- A statement has to be the last thing on its line. -/
def endOfStatement : Reading Unit := do
  if ← check .endOfInput then return ()
  else
    let t ← next
    match t.token with
    | .newline => return ()
    | _ => unexpected .endOfLine t

/-- The statements up to the end of input; each step takes a token, so `fuel` bounds the steps. -/
def statements : Nat → Reading (List Statement)
  | 0 => return []
  | fuel + 1 => do
    if ← accept .newline then statements fuel
    else if ← check .endOfInput then return []
    else
      let s ← statement
      endOfStatement
      return s :: (← statements fuel)

/-- The statements of a script, or the first thing that is wrong with it. -/
def parse (source : String) : Except ScriptError (List Statement) :=
  let s := TokenStream.ofSource source
  match statements (s.pending.length + 1) s with
  | .ok script _ => .ok script
  | .error e _ => .error e

end StackAssembler.Script.Parser
