import StackAssembler.IR.Ty

/-! Sizes and alignments of types in memory. Every size is either exact and below `2 ^ 64`, or absent. -/
namespace StackAssembler.IR

/-- The rules of a target. `maxAlign` bounds the alignment of every type, in bytes. -/
structure DataLayout where
  pointerBits : Nat := 64
  maxAlign : Nat := 8
  maxAlign_pos : 0 < maxAlign := by decide
  deriving DecidableEq, Repr

instance : Inhabited DataLayout := ⟨{}⟩

/-- The number, when it fits into 64 bits. -/
def sized? (n : Nat) : Option Nat := if n < Nat.pow 2 64 then some n else none

/-- The quotient rounded up. -/
def ceilDiv (n d : Nat) : Nat := (n + (d - 1)) / d

/-- The least multiple of `a` that is not below `n`. -/
def roundUp (n a : Nat) : Nat := ceilDiv n a * a

/-- The least power of two that is not below `n`. -/
def powerOfTwoAbove (n : Nat) : Nat := if n ≤ 1 then 1 else Nat.pow 2 (Nat.log2 (n - 1) + 1)

namespace Ty
variable (layout : DataLayout)

/-- The alignment of a scalar: its size in bytes raised to a power of two, within the bounds. -/
def scalarAlign (bits : Nat) : Nat := min (powerOfTwoAbove (ceilDiv bits 8)) layout.maxAlign

mutual

/-- The alignment of a type in bytes. -/
def align : Ty → Nat
  | void | function .. => 1
  | int bits => scalarAlign layout bits
  | float f => scalarAlign layout f.bits
  | pointer .. => scalarAlign layout layout.pointerBits
  | array e _ => e.align
  | struct fs packed => if packed then 1 else widestAlign fs

/-- The largest alignment among some types, at least one. -/
def widestAlign : List Ty → Nat
  | [] => 1
  | t :: ts => max t.align (widestAlign ts)

end

/-- The bytes that a value of so many bits takes up, padding included. -/
def paddedSize? (bits align : Nat) : Option Nat := sized? (roundUp (ceilDiv bits 8) align)

mutual

/-- The size of a type in bits. Void and function types have none, nor has what is made of them. -/
def sizeInBits? : Ty → Option Nat
  | void | function .. => none
  | int bits => sized? bits
  | float f => sized? f.bits
  | pointer .. => sized? layout.pointerBits
  | array e length => do
    let size ← paddedSize? (← e.sizeInBits?) (e.align layout)
    let bits ← sized? (size * 8)
    sized? (bits * length)
  | struct fs packed => do
    let stop ← fieldsEnd? packed fs 0
    let size ← sized? (roundUp stop (if packed then 1 else widestAlign layout fs))
    sized? (size * 8)

/-- Where the last of some fields ends when the first may start at `offset`. -/
def fieldsEnd? (packed : Bool) : List Ty → Nat → Option Nat
  | [], offset => some offset
  | t :: ts, offset => do
    let size ← paddedSize? (← t.sizeInBits?) (t.align layout)
    let start ← sized? (roundUp offset (if packed then 1 else t.align layout))
    let stop ← sized? (start + size)
    fieldsEnd? packed ts stop

end

/-- The bytes that a value occupies in memory, padding included. -/
def allocSize? (t : Ty) : Option Nat := do
  paddedSize? (← t.sizeInBits? layout) (t.align layout)

/-- The size in bytes without padding. -/
def sizeInBytes? (t : Ty) : Option Nat := (t.sizeInBits? layout).map (ceilDiv · 8)

end Ty
end StackAssembler.IR
