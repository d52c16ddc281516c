import StackAssembler.IR.Printer

/-! How values are shown one by one. -/
namespace StackAssembler.IR.Context

/-- How a value is spelled in the text of its function. -/
def localName (ctx : Context) (v : ValueId) : String :=
  match ctx.functionOf? v with
  | some f => ctx.nameText (ctx.spelling f) v
  | none => ctx.nameText [] v

/-- The name of a value. An unnamed result goes by its number, another unnamed value by its text as an
operand. Instructions without a result show nothing. -/
def displayName (ctx : Context) (v : ValueId) : String :=
  match (ctx.value v).name with
  | some name => name
  | none =>
    match (ctx.value v).operation? with
    | some _ => if (ctx.typeOf v).isVoid then "" else ctx.localName v
    | none => ctx.printOperand v

/-- Some values as operands with a separator between them. -/
def joinOperands (ctx : Context) (vs : List ValueId) (separator : String) : String :=
  separator.intercalate (vs.map ctx.printOperand)

end StackAssembler.IR.Context
