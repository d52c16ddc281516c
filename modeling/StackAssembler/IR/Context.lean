import StackAssembler.IR.Error
import StackAssembler.IR.Layout
import StackAssembler.IR.Word
import StackAssembler.Binary.Format

/-! The context: everything that has been built, in order of creation. Nothing in it is ever removed. -/
namespace StackAssembler.IR

/-- Handles are positions in these tables. A type's number is its position in `types`. -/
structure Context where
  layout : DataLayout := default
  types : Array Ty := #[]
  values : Array Value := #[]
  blocks : Array Block := #[]
  functions : Array Function := #[]
  modules : Array Module := #[]
  nodes : Array Node := #[]
  attachments : Array Attachment := #[]
  deriving DecidableEq, Repr, Inhabited

/-- A change of the context that may be refused. What was done before the refusal stays done. -/
abbrev Edit := EStateM IrError Context

namespace Context

/-! ### Reading. A handle from elsewhere reads as a default. -/

def value (ctx : Context) (v : ValueId) : Value := ctx.values.getD v.index default

def block (ctx : Context) (b : BlockId) : Block := ctx.blocks.getD b.index default

def function (ctx : Context) (f : FunctionId) : Function := ctx.functions.getD f.index default

def module (ctx : Context) (m : ModuleId) : Module := ctx.modules.getD m.index default

def node (ctx : Context) (n : NodeId) : Node := ctx.nodes.getD n.index default

def typeOf (ctx : Context) (v : ValueId) : Ty := (ctx.value v).type

/-- The position of a type in the order in which types came up. -/
def typeNumber? (ctx : Context) (t : Ty) : Option Nat := ctx.types.toList.idxOf? t

/-- The payload of an integer constant. -/
def payload? (ctx : Context) (v : ValueId) : Option Nat :=
  match (ctx.value v).kind with
  | .constant (.int payload) => some payload
  | _ => none

/-- The signed reading of an integer constant. -/
def signed? (ctx : Context) (v : ValueId) : Option Int := do
  let payload ← ctx.payload? v
  let width ← (ctx.typeOf v).width?
  return Word.signed width payload

/-- The bits of a floating point constant. -/
def floatBits? (ctx : Context) (v : ValueId) : Option UInt64 :=
  match (ctx.value v).kind with
  | .constant (.float bits) => some bits
  | _ => none

/-- The function whose block an instruction stands in. -/
def functionOf? (ctx : Context) (v : ValueId) : Option FunctionId := do
  (ctx.block (← (ctx.value v).block?)).function

def findFunction? (ctx : Context) (m : ModuleId) (name : String) : Option FunctionId :=
  (ctx.module m).functions.toList.find? fun f => (ctx.function f).name = name

/-- How messages name a block: by its name, or by its position. -/
def blockLabel (ctx : Context) (b : BlockId) : String :=
  match (ctx.block b).name with
  | some name => name
  | none => "bb" ++ toString b.index

/-- The terminator that ends a block, if one does. -/
def terminator? (ctx : Context) (b : BlockId) : Option ValueId := do
  let last ← (ctx.block b).instructions.back?
  let op ← (ctx.value last).operation?
  if op.isTerminator then some last else none

def attachmentsOf (ctx : Context) (v : ValueId) : List Attachment :=
  ctx.attachments.toList.filter (·.target = v)

/-- The node attached to a value under a kind. -/
def attached? (ctx : Context) (v : ValueId) (kind : String) : Option NodeId :=
  (ctx.attachments.toList.find? fun a => a.target = v ∧ a.kind = kind).map (·.node)

/-! ### Adding -/

/-- Enter a type into the table unless it is there. -/
def intern (ctx : Context) (t : Ty) : Context :=
  if t ∈ ctx.types.toList then ctx else { ctx with types := ctx.types.push t }

def addValue (ctx : Context) (v : Value) : ValueId × Context :=
  (⟨ctx.values.size⟩, { ctx with values := ctx.values.push v })

def isConstant (t : Ty) (c : Constant) (v : Value) : Bool :=
  v.kind = .constant c ∧ v.type = t

/-- The one constant of a type and content. -/
def constant (ctx : Context) (t : Ty) (c : Constant) : ValueId × Context :=
  match ctx.values.toList.findIdx? (isConstant t c) with
  | some i => (⟨i⟩, ctx)
  | none => ctx.addValue ⟨t, none, .constant c⟩

/-- The integer constant of a width that agrees with a number in its low bits. -/
def integer (ctx : Context) (width : Nat) (v : Int) : ValueId × Context :=
  (ctx.intern (.int width)).constant (.int width) (.int (Word.truncate width v))

/-- The floating point constant of a format from the bits of a 64-bit number. Only single precision rounds. -/
def floating (ctx : Context) (format : FloatFormat) (bits : UInt64) : ValueId × Context :=
  ctx.constant (.float format) (.float (if format = .single then Binary.roundToSingle bits else bits))

def undef (ctx : Context) (t : Ty) : ValueId × Context := ctx.constant t .undef

def addNode (ctx : Context) (operands : Node) : NodeId × Context :=
  (⟨ctx.nodes.size⟩, { ctx with nodes := ctx.nodes.push operands })

def addModule (ctx : Context) (name : String) : ModuleId × Context :=
  (⟨ctx.modules.size⟩, { ctx with modules := ctx.modules.push ⟨name, #[]⟩ })

/-- A block that belongs to no function yet. -/
def addBlock (ctx : Context) (name : Option String) : BlockId × Context :=
  (⟨ctx.blocks.size⟩, { ctx with blocks := ctx.blocks.push ⟨name, none, #[]⟩ })

/-- Put a block at the end of a function. -/
def adopt (ctx : Context) (f : FunctionId) (b : BlockId) : Context :=
  { ctx with
    blocks := ctx.blocks.modify b.index fun block => { block with function := some f }
    functions := ctx.functions.modify f.index fun fn => { fn with blocks := fn.blocks.push b } }

/-- A new block at the end of a function. -/
def appendBlock (ctx : Context) (f : FunctionId) (name : Option String) : BlockId × Context :=
  let (b, ctx) := ctx.addBlock name
  (b, ctx.adopt f b)

/-- A new instruction at the end of a block. -/
def addInstruction (ctx : Context) (b : BlockId) (op : Operation) (t : Ty) (name : Option String) :
    ValueId × Context :=
  let (v, ctx) := ctx.addValue ⟨t, name, .instruction op b⟩
  (v, { ctx with blocks := ctx.blocks.modify b.index fun block =>
    { block with instructions := block.instructions.push v } })

/-- Name an argument or an instruction. Other values keep the names they have. -/
def rename (ctx : Context) (v : ValueId) (name : String) : Context :=
  { ctx with values := ctx.values.modify v.index fun value =>
    match value.kind with
    | .argument .. | .instruction .. => { value with name := some name }
    | _ => value }

/-- The values of a function's parameters, the first of which has position `index`. -/
def addArguments (ctx : Context) (f : FunctionId) : List Ty → Nat → List ValueId × Context
  | [], _ => ([], ctx)
  | t :: ts, index =>
    let (v, ctx) := ctx.addValue ⟨t, none, .argument f index⟩
    let (vs, ctx) := ctx.addArguments f ts (index + 1)
    (v :: vs, ctx)

end Context

namespace Edit

/-- Do what cannot be refused. -/
def perform {α : Type} (f : Context → α × Context) : Edit α := fun ctx =>
  match f ctx with
  | (a, ctx) => .ok a ctx

def intern (t : Ty) : Edit Unit := perform fun ctx => ((), ctx.intern t)

/-- An integer constant of a type that may turn out not to be an integer type. -/
def integerOf (t : Ty) (v : Int) : Edit ValueId :=
  match t.width? with
  | some width => perform fun ctx => ctx.constant t (.int (Word.truncate width v))
  | none => throw (.typeMismatch .anInteger t)

/-- A floating point constant of a type that may turn out not to be a floating point type. -/
def floatOf (t : Ty) (bits : UInt64) : Edit ValueId :=
  match t with
  | .float format => perform (·.floating format bits)
  | _ => throw (.typeMismatch .aFloat t)

def nullOf (t : Ty) : Edit ValueId :=
  if t.isPointer then perform fun ctx => ctx.constant t .null
  else throw (.typeMismatch .aPointer t)

/-- Declare a function. Its type has to be a function type, its name new in the module. -/
def addFunction (m : ModuleId) (name : String) (type : Ty) (linkage : Linkage) : Edit FunctionId := fun ctx =>
  match type with
  | .function result params variadic =>
    if (ctx.findFunction? m name).isSome then .error (.duplicateFunction name) ctx
    else
      let f : FunctionId := ⟨ctx.functions.size⟩
      let ctx := ctx.intern (.pointer type 0)
      let (value, ctx) := ctx.addValue ⟨.pointer type 0, some name, .function f⟩
      let (args, ctx) := ctx.addArguments f params 0
      .ok f { ctx with
        functions := ctx.functions.push
          ⟨name, result, params, variadic, linkage, m, value, args, #[]⟩
        modules := ctx.modules.modify m.index fun module =>
          { module with functions := module.functions.push f } }
  | _ => .error (.notAFunction type) ctx

/-- Put a detached block at the end of a function. -/
def attachBlock (f : FunctionId) (b : BlockId) : Edit Unit := fun ctx =>
  if (ctx.block b).function.isSome then .error (.blockAttached (ctx.blockLabel b)) ctx
  else .ok () (ctx.adopt f b)

def replaceNodeOperand (n : NodeId) (index : Nat) (operand : NodeOperand) : Edit Unit := fun ctx =>
  let length := (ctx.node n).length
  if index < length then
    .ok () { ctx with nodes := ctx.nodes.modify n.index fun node => node.set index operand }
  else .error (.metadataIndex index length) ctx

/-- Attach a node to an instruction or a function. It takes the place of an earlier one of its kind. -/
def attach (v : ValueId) (kind : String) (n : NodeId) : Edit Unit := fun ctx =>
  match (ctx.value v).kind with
  | .instruction .. | .function _ =>
    match ctx.attachments.toList.findIdx? fun a => a.target = v ∧ a.kind = kind with
    | some i => .ok () { ctx with attachments := ctx.attachments.modify i fun a => { a with node := n } }
    | none => .ok () { ctx with attachments := ctx.attachments.push ⟨v, kind, n⟩ }
  | _ => .error .metadataTarget ctx

end Edit
end StackAssembler.IR
