import StackAssembler.IR.Context

/-! Short names: types that are asked for often, sizes of values, and constants made from machine integers. -/
namespace StackAssembler.IR

/-- The types that have short names. -/
inductive Shorthand where
  | void
  | int (bits : Nat)
  /-- A pointer to an integer. -/
  | intPointer (bits : Nat) (space : Nat)
  | float
  | double
  deriving DecidableEq, Repr, Inhabited

namespace Shorthand

def i1 : Shorthand := int 1
def i8 : Shorthand := int 8
def i16 : Shorthand := int 16
def i32 : Shorthand := int 32
def i64 : Shorthand := int 64
def i128 : Shorthand := int 128
def i1p : Shorthand := intPointer 1 0
def i8p : Shorthand := intPointer 8 0
def i16p : Shorthand := intPointer 16 0
def i32p : Shorthand := intPointer 32 0
def i64p : Shorthand := intPointer 64 0

/-- The type that is meant. -/
def type : Shorthand → Ty
  | void => .void
  | int bits => .int bits
  | intPointer bits space => .pointer (.int bits) space
  | float => .float .single
  | double => .float .double

end Shorthand

namespace Context

/-- Enter the type of a short name, and before it what it points to. -/
def shorthand (ctx : Context) (s : Shorthand) : Ty × Context :=
  match s with
  | .intPointer bits _ => (s.type, (ctx.intern (.int bits)).intern s.type)
  | _ => (s.type, ctx.intern s.type)

def valueBits? (ctx : Context) (v : ValueId) : Option Nat := (ctx.typeOf v).sizeInBits? ctx.layout

def valueBytes? (ctx : Context) (v : ValueId) : Option Nat := (ctx.typeOf v).sizeInBytes? ctx.layout

end Context

/-- The machine integers of a width, with or without sign. -/
structure MachineInteger where
  width : Nat
  signed : Bool
  pos : 1 ≤ width
  le : width ≤ 64
  deriving DecidableEq, Repr

namespace MachineInteger

def bool : MachineInteger := ⟨1, false, by decide, by decide⟩
def u8 : MachineInteger := ⟨8, false, by decide, by decide⟩
def u16 : MachineInteger := ⟨16, false, by decide, by decide⟩
def u32 : MachineInteger := ⟨32, false, by decide, by decide⟩
def u64 : MachineInteger := ⟨64, false, by decide, by decide⟩
def i8 : MachineInteger := ⟨8, true, by decide, by decide⟩
def i16 : MachineInteger := ⟨16, true, by decide, by decide⟩
def i32 : MachineInteger := ⟨32, true, by decide, by decide⟩
def i64 : MachineInteger := ⟨64, true, by decide, by decide⟩

instance : Inhabited MachineInteger := ⟨bool⟩

/-- Whether a number is one of the kind. -/
def Holds (k : MachineInteger) (n : Int) : Prop :=
  if k.signed then -(Nat.pow 2 (k.width - 1) : Int) ≤ n ∧ n < Nat.pow 2 (k.width - 1)
  else 0 ≤ n ∧ n < Nat.pow 2 k.width

instance (k : MachineInteger) (n : Int) : Decidable (k.Holds n) :=
  inferInstanceAs (Decidable (if k.signed then _ ∧ _ else _ ∧ _))

end MachineInteger

/-- The constant that a machine integer stands for, of the width of its kind. -/
def Context.machineInteger (ctx : Context) (k : MachineInteger) (n : { n : Int // k.Holds n }) : ValueId × Context :=
  ctx.integer k.width n

end StackAssembler.IR
