import StackAssembler.IR.Context

/-! Appending instructions to a block. Each function checks its operands, folds what it can when they are
integer constants, and otherwise writes one instruction at the end of the block `at?`. -/
namespace StackAssembler.IR.Emitter

/-- Refuse unless a value has a type. -/
def expect (v : ValueId) (t : Ty) : Edit Unit := do
  let found := (← get).typeOf v
  if found = t then pure () else throw (.typeMismatch (.exactly t) found)

/-- The block that takes the next instruction. It has to be given and not be ended by a terminator. -/
def openBlock (at? : Option BlockId) : Edit BlockId := do
  match at? with
  | none => throw .noInsertionPoint
  | some b =>
    let ctx ← get
    if (ctx.terminator? b).isSome then throw (.blockTerminated (ctx.blockLabel b)) else pure b

/-- Write an instruction with a result of type `t`. -/
def append (at? : Option BlockId) (op : Operation) (t : Ty) (name : Option String) : Edit ValueId := do
  let b ← openBlock at?
  Edit.perform fun ctx => ctx.addInstruction b op t name

/-- Write an instruction without a result. -/
def appendVoid (at? : Option BlockId) (op : Operation) : Edit ValueId := do
  Edit.intern .void
  append at? op .void none

/-! ### Memory -/

def alloca (at? : Option BlockId) (t : Ty) (name : Option String) : Edit ValueId := do
  match t.allocSize? (← get).layout with
  | none => throw (.invalidOperand "alloca" (.cannotAllocate t))
  | some _ =>
    Edit.intern (.pointer t 0)
    append at? (.alloca t) (.pointer t 0) name

def load (at? : Option BlockId) (t : Ty) (pointer : ValueId) : Edit ValueId := do
  let p := (← get).typeOf pointer
  match p.pointee? with
  | none => throw (.invalidOperand "load" (.notAPointer p))
  | some pointee =>
    if pointee = t then append at? (.load pointer) t none
    else throw (.typeMismatch (.exactly t) pointee)

def store (at? : Option BlockId) (value pointer : ValueId) : Edit ValueId := do
  let p := (← get).typeOf pointer
  match p.pointee? with
  | none => throw (.invalidOperand "store" (.notAPointer p))
  | some pointee =>
    expect value pointee
    appendVoid at? (.store value pointer)

/-! ### Arithmetic -/

/-- What an operation on two integer constants comes to, if it folds. Types wider than a payload do not
fold. -/
def foldBinary? (ctx : Context) (op : BinaryOp) (lhs rhs : ValueId) : Option Int := do
  let a ← ctx.payload? lhs
  let b ← ctx.payload? rhs
  let width ← (ctx.typeOf lhs).width?
  if Word.capacity < width then none else Word.combine? op width a b

def binary (at? : Option BlockId) (op : BinaryOp) (lhs rhs : ValueId) : Edit ValueId := do
  let t := (← get).typeOf lhs
  expect rhs t
  if (if op.isFloat then t.isFloat else t.isInteger) then
    match foldBinary? (← get) op lhs rhs with
    | some v => Edit.integerOf t v
    | none => append at? (.binary op lhs rhs) t none
  else throw (.invalidOperand op.mnemonic (.operandsOfType t))

/-- How a comparison of two integer constants comes out. -/
def foldCompare? (ctx : Context) (p : IntPredicate) (lhs rhs : ValueId) : Option Bool := do
  let a ← ctx.payload? lhs
  let b ← ctx.payload? rhs
  let width ← (ctx.typeOf lhs).width?
  return Word.compare p width a b

def icmp (at? : Option BlockId) (pred : Predicate) (lhs rhs : ValueId) : Edit ValueId := do
  match pred with
  | .float p => throw (.invalidOperand "icmp" (.floatPredicate p))
  | .int p =>
    let t := (← get).typeOf lhs
    expect rhs t
    if t.isInteger || t.isPointer then
      match foldCompare? (← get) p lhs rhs with
      | some b => Edit.perform fun ctx => ctx.integer 1 (if b then 1 else 0)
      | none =>
        Edit.intern (.int 1)
        append at? (.icmp p lhs rhs) (.int 1) none
    else throw (.invalidOperand "icmp" (.operandsOfType t))

def fcmp (at? : Option BlockId) (pred : Predicate) (lhs rhs : ValueId) : Edit ValueId := do
  match pred with
  | .int p => throw (.invalidOperand "fcmp" (.intPredicate p))
  | .float p =>
    let t := (← get).typeOf lhs
    expect rhs t
    if t.isFloat then
      Edit.intern (.int 1)
      append at? (.fcmp p lhs rhs) (.int 1) none
    else throw (.invalidOperand "fcmp" (.operandsOfType t))

/-- The comparison that the predicate belongs to. -/
def compare (at? : Option BlockId) (pred : Predicate) (lhs rhs : ValueId) : Edit ValueId :=
  if pred.isFloat then fcmp at? pred lhs rhs else icmp at? pred lhs rhs

/-! ### Casts -/

/-- Which types a cast may go from and to. Types of the same size are bit-cast unless only one of them
is a pointer type. -/
def isLegal (layout : DataLayout) (op : CastOp) (source target : Ty) : Bool :=
  match op with
  | .bitcast =>
    source.isPointer && target.isPointer ||
      (source.isInteger || source.isFloat) && (target.isInteger || target.isFloat) &&
        source.sizeInBits? layout = target.sizeInBits? layout
  | .zext =>
    match source, target with
    | .int a, .int b => a < b
    | _, _ => false
  | .trunc =>
    match source, target with
    | .int a, .int b => b < a
    | _, _ => false
  | .fptoui => source.isFloat && target.isInteger
  | .ptrtoint => source.isPointer && target.isInteger
  | .inttoptr => source.isInteger && target.isPointer

/-- The payload of a constant whose width a cast changes. -/
def foldCast? (ctx : Context) (op : CastOp) (v : ValueId) : Option Nat :=
  match op with
  | .zext | .trunc => ctx.payload? v
  | _ => none

def cast (at? : Option BlockId) (op : CastOp) (v : ValueId) (target : Ty) : Edit ValueId := do
  let ctx ← get
  let source := ctx.typeOf v
  if isLegal ctx.layout op source target then
    if op = .bitcast ∧ source = target then pure v
    else
      match foldCast? ctx op v with
      | some payload => Edit.integerOf target payload
      | none => append at? (.cast op v) target none
  else throw (.invalidCast op source target)

/-- Change the width of an integer. A value that has the type already is answered itself. -/
def zextOrTrunc (at? : Option BlockId) (v : ValueId) (target : Ty) : Edit ValueId := do
  let source := (← get).typeOf v
  if source = target then pure v
  else
    match source, target with
    | .int a, .int b => cast at? (if a < b then .zext else .trunc) v target
    | _, _ => throw (.invalidCast .zext source target)

/-- Make a float an unsigned integer. A value that has the type already is answered itself. -/
def fptoui (at? : Option BlockId) (v : ValueId) (target : Ty) : Edit ValueId := do
  let source := (← get).typeOf v
  if source = target then pure v else cast at? .fptoui v target

/-! ### Control flow -/

/-- Refuse unless all of some values have a type. -/
def expectAll (t : Ty) : List ValueId → Edit Unit
  | [] => pure ()
  | v :: vs => do
    expect v t
    expectAll t vs

/-- A choice by the block that control came from. The first value gives the type. -/
def phi (at? : Option BlockId) (incoming : List (ValueId × BlockId)) : Edit ValueId := do
  match incoming with
  | [] => throw .emptyPhi
  | (first, _) :: _ =>
    let t := (← get).typeOf first
    expectAll t (incoming.map Prod.fst)
    append at? (.phi incoming) t none

def br (at? : Option BlockId) (dest : BlockId) : Edit ValueId := appendVoid at? (.br dest)

def condBr (at? : Option BlockId) (cond : ValueId) (onTrue onFalse : BlockId) : Edit ValueId := do
  Edit.intern (.int 1)
  expect cond (.int 1)
  appendVoid at? (.condBr cond onTrue onFalse)

/-- Refuse unless the values have the types, as far as both lists go. -/
def expectEach : List ValueId → List Ty → Edit Unit
  | v :: vs, t :: ts => do
    expect v t
    expectEach vs ts
  | _, _ => pure ()

/-- Whether a function takes so many arguments. -/
def accepts (f : Function) (count : Nat) : Bool :=
  if f.variadic then f.params.length ≤ count else count = f.params.length

def call (at? : Option BlockId) (callee : FunctionId) (args : List ValueId) : Edit ValueId := do
  let f := (← get).function callee
  if accepts f args.length then
    expectEach args f.params
    append at? (.call callee args) f.result none
  else throw (.argumentCount f.name f.params.length args.length)

/-- The function that the open block belongs to. -/
def currentFunction (at? : Option BlockId) : Edit Function := do
  let b ← openBlock at?
  let ctx ← get
  match (ctx.block b).function with
  | some f => pure (ctx.function f)
  | none => throw (.detachedBlock (ctx.blockLabel b))

def ret (at? : Option BlockId) (v : ValueId) : Edit ValueId := do
  let f ← currentFunction at?
  if f.result.isVoid ∨ (← get).typeOf v ≠ f.result then throw (.returnMismatch f.name f.result)
  else appendVoid at? (.ret (some v))

def retVoid (at? : Option BlockId) : Edit ValueId := do
  let f ← currentFunction at?
  if f.result.isVoid then appendVoid at? (.ret none)
  else throw (.returnMismatch f.name f.result)

end StackAssembler.IR.Emitter
