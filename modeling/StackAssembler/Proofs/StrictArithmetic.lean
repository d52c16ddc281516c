import Mathlib.Tactic.Common
import StackAssembler.IR.Layout
import StackAssembler.IR.Word

/-! Arithmetic on payloads and sizes of types, with no answer where an operation is used outside of its domain. It always
has an answer for widths of 32 bits. -/
namespace StackAssembler.IR

/-! ### The parts of a type -/

namespace Ty

mutual

/-- A type and all types that it is made of, directly or not. -/
def parts : Ty → List Ty
  | void => [void]
  | int bits => [int bits]
  | float f => [float f]
  | pointer p space => pointer p space :: p.parts
  | array e length => array e length :: e.parts
  | struct fs packed => struct fs packed :: partsOf fs
  | function r ps variadic => function r ps variadic :: (r.parts ++ partsOf ps)

def partsOf : List Ty → List Ty
  | [] => []
  | t :: ts => t.parts ++ partsOf ts

end

/-- Whether the width of an integer type takes 32 bits. -/
def Narrow (t : Ty) : Prop := ∀ width ∈ t.width?, width < Nat.pow 2 32

end Ty

mutual

/-- What holds of the components of a type along with the type holds of all its parts. -/
theorem Ty.forall_parts {P : Ty → Prop} (h : ∀ t, P t → ∀ c ∈ t.components, P c) :
    (t : Ty) → P t → ∀ p ∈ t.parts, P p
  | .void, ht | .int _, ht | .float _, ht => List.forall_mem_singleton.mpr ht
  | .pointer p _, ht | .array p _, ht =>
    List.forall_mem_cons.mpr ⟨ht, Ty.forall_parts h p (h _ ht p (.head _))⟩
  | .struct fs _, ht => List.forall_mem_cons.mpr ⟨ht, Ty.forall_partsOf h fs (h _ ht)⟩
  | .function r ps _, ht => by
    have hr := Ty.forall_parts h r (h _ ht r (.head _))
    have hps := Ty.forall_partsOf h ps fun t k => h _ ht t (.tail _ k)
    exact List.forall_mem_cons.mpr ⟨ht, List.forall_mem_append.mpr ⟨hr, hps⟩⟩

theorem Ty.forall_partsOf {P : Ty → Prop} (h : ∀ t, P t → ∀ c ∈ t.components, P c) :
    (ts : List Ty) → (∀ t ∈ ts, P t) → ∀ p ∈ Ty.partsOf ts, P p
  | [], _ => List.forall_mem_nil _
  | t :: ts, hts => by
    obtain ⟨ht, hts⟩ := List.forall_mem_cons.mp hts
    exact List.forall_mem_append.mpr ⟨Ty.forall_parts h t ht, Ty.forall_partsOf h ts hts⟩

end

namespace Strict

/-- A computation along a list has an answer if each of its steps has one. -/
theorem mapM_eq {α β : Type} {f : α → Option β} {g : α → β} {xs : List α} (h : ∀ x ∈ xs, f x = some (g x)) :
    xs.mapM f = some (xs.map g) := by
  induction xs with
  | nil => rfl
  | cons x xs ih =>
    obtain ⟨hx, hxs⟩ := List.forall_mem_cons.mp h
    rw [List.mapM_cons, hx, ih hxs]
    rfl

/-! ### Arithmetic -/

/-- A difference that must not be negative. -/
def sub (a b : Nat) : Option Nat := if b ≤ a then some (a - b) else none

/-- An amount by which the bits of a payload can be shifted. -/
def shift (n : Nat) : Option Nat := if n < Word.capacity then some n else none

/-- A quotient rounded up. The divisor must not be zero. -/
def ceilDiv (n d : Nat) : Option Nat := if d = 0 then none else some (IR.ceilDiv n d)

/-- The least power of two that is not below `n`, which has to fit into 64 bits. -/
def powerOfTwoAbove (n : Nat) : Option Nat := if n ≤ Nat.pow 2 63 then some (IR.powerOfTwoAbove n) else none

/-- A number brought between two bounds, the lower of which must not be above the upper. -/
def clamp (n low high : Nat) : Option Nat := if low ≤ high then some (max low (min n high)) else none

/-! ### Words -/

/-- The payload of a number at a width: its bits under a mask. -/
def truncate (width : Nat) (v : Int) : Option Nat := do
  let raw := (v % Nat.pow 2 Word.capacity).toNat
  if Word.capacity ≤ width then return raw
  else
    let mask ← sub (Nat.pow 2 (← shift width)) 1
    return raw &&& mask

/-- The two's complement reading of a payload, whose bits are shifted to the top and back. -/
def signed (width payload : Nat) : Option Int := do
  if width = 0 ∨ Word.capacity ≤ width then return Word.signed width payload
  else
    let _ ← shift (← sub Word.capacity width)
    return Word.signed width payload

/-- The result of an integer operation on two payloads of a width that they can hold. -/
def combine? (op : BinaryOp) (width a b : Nat) : Option (Option Int) := do
  let _ ← signed width a
  let _ ← signed width b
  match op with
  | .shl | .lshr | .ashr =>
    if b < width then
      let _ ← shift b
      return Word.combine? op width a b
    else return none
  | _ => return Word.combine? op width a b

theorem truncate_eq (width : Nat) (v : Int) : truncate width v = some (Word.truncate width v) := by
  unfold truncate Word.truncate
  split
  · next h => rw [Nat.min_eq_right h]; rfl
  · next h =>
    have hlt : width < Word.capacity := Nat.lt_of_not_le h
    have hpos : 1 ≤ Nat.pow 2 width := Nat.two_pow_pos width
    have hmask : (v % Nat.pow 2 Word.capacity).toNat &&& (Nat.pow 2 width - 1) = (v % Nat.pow 2 width).toNat := by
      have hdvd : (Nat.pow 2 width : Int) ∣ Nat.pow 2 Word.capacity :=
        Int.natCast_dvd_natCast.mpr (Nat.pow_dvd_pow 2 (Nat.le_of_lt hlt))
      have hnonneg : (0 : Int) ≤ v % Nat.pow 2 Word.capacity :=
        Int.emod_nonneg _ (Int.natCast_ne_zero.mpr (Nat.ne_of_gt (Nat.two_pow_pos _)))
      rw [← Int.emod_emod_of_dvd v hdvd, Int.toNat_emod hnonneg (Int.natCast_nonneg _), Int.toNat_natCast]
      exact Nat.and_two_pow_sub_one_eq_mod _ width
    rw [Nat.min_eq_left (Nat.le_of_lt hlt), ← hmask]
    have hshift : shift width = some width := if_pos hlt
    have hsub : sub (Nat.pow 2 width) 1 = some (Nat.pow 2 width - 1) := if_pos hpos
    rw [hshift]
    dsimp only [bind, Option.bind]
    rw [hsub]
    rfl

theorem signed_eq (width payload : Nat) : signed width payload = some (Word.signed width payload) := by
  unfold signed
  split
  · rfl
  · next h =>
    rw [not_or] at h
    have hle : width ≤ Word.capacity := by omega
    have hlt : Word.capacity - width < Word.capacity := by omega
    simp [sub, hle, shift, hlt]

theorem combine?_eq {width : Nat} (h : ¬ Word.capacity < width) (op : BinaryOp) (a b : Nat) :
    combine? op width a b = some (Word.combine? op width a b) := by
  unfold combine?
  rw [signed_eq, signed_eq]
  have hshift (hb : b < width) : shift b = some b := if_pos (by omega)
  cases op
  case shl | lshr | ashr =>
    by_cases hb : b < width
    · simp [hb, hshift hb]
    · simp [hb, Word.combine?]
  all_goals rfl

/-! ### Sizes -/

section
variable (layout : DataLayout)

def scalarAlign (bits : Nat) : Option Nat := do
  clamp (← powerOfTwoAbove (← ceilDiv bits 8)) 1 layout.maxAlign

/-- The alignment of fields, which packed ones do not have. -/
def unlessPacked (packed : Bool) (align : Option Nat) : Option Nat := if packed then some 1 else align

mutual

def align : Ty → Option Nat
  | .void | .function .. => return 1
  | .int bits => scalarAlign layout bits
  | .float f => scalarAlign layout f.bits
  | .pointer .. => scalarAlign layout layout.pointerBits
  | .array e _ => align e
  | .struct fs packed => unlessPacked packed (widestAlign fs)

def widestAlign : List Ty → Option Nat
  | [] => return 1
  | t :: ts => return max (← align t) (← widestAlign ts)

end

/-- The bytes that a value of so many bits takes up, unless they are too many. -/
def paddedSize (bits align : Nat) : Option (Option Nat) := do
  let bytes ← ceilDiv (← ceilDiv bits 8) align
  return sized? (bytes * align)

/-- The next place behind `offset` for something of an alignment, unless it is too far. -/
def roundUp (offset align : Nat) : Option (Option Nat) := return sized? ((← ceilDiv offset align) * align)

mutual

def sizeInBits : Ty → Option (Option Nat)
  | .void | .function .. => return none
  | .int bits => return sized? bits
  | .float f => return sized? f.bits
  | .pointer .. => return sized? layout.pointerBits
  | .array e length => do
    match ← sizeInBits e with
    | none => return none
    | some bits =>
      match ← paddedSize bits (← align layout e) with
      | none => return none
      | some size => return (sized? (size * 8)).bind fun bits => sized? (bits * length)
  | .struct fs packed => do
    match ← fieldsEnd packed fs 0 with
    | none => return none
    | some stop =>
      match ← roundUp stop (← unlessPacked packed (widestAlign layout fs)) with
      | none => return none
      | some size => return sized? (size * 8)

def fieldsEnd (packed : Bool) : List Ty → Nat → Option (Option Nat)
  | [], offset => return some offset
  | t :: ts, offset => do
    match ← sizeInBits t with
    | none => return none
    | some bits =>
      match ← paddedSize bits (← align layout t) with
      | none => return none
      | some size =>
        match ← roundUp offset (← unlessPacked packed (align layout t)) with
        | none => return none
        | some start =>
          match sized? (start + size) with
          | none => return none
          | some stop => fieldsEnd packed ts stop

end

/-- The bytes that a value occupies in memory. -/
def allocSize (t : Ty) : Option (Option Nat) := do
  match ← sizeInBits layout t with
  | none => return none
  | some bits => paddedSize bits (← align layout t)

end

theorem powerOfTwoAbove_pos (n : Nat) : 0 < IR.powerOfTwoAbove n := by
  unfold IR.powerOfTwoAbove
  split
  · exact Nat.one_pos
  · exact Nat.two_pow_pos _

section
variable {layout : DataLayout}

theorem scalarAlign_pos (bits : Nat) : 0 < Ty.scalarAlign layout bits :=
  Nat.lt_min.mpr ⟨powerOfTwoAbove_pos _, layout.maxAlign_pos⟩

theorem unlessPacked_pos (packed : Bool) {align : Nat} (h : 0 < align) : 0 < if packed then 1 else align := by
  cases packed
  · exact h
  · exact Nat.one_pos

mutual

theorem align_pos : (t : Ty) → 0 < t.align layout
  | .void | .function .. => Nat.one_pos
  | .int _ | .float _ | .pointer .. => scalarAlign_pos _
  | .array e _ => align_pos e
  | .struct fs packed => by
    rw [Ty.align]
    exact unlessPacked_pos packed (widestAlign_pos fs)

theorem widestAlign_pos : (ts : List Ty) → 0 < Ty.widestAlign layout ts
  | [] => Nat.one_pos
  | t :: _ => Nat.lt_of_lt_of_le (align_pos t) (Nat.le_max_left _ _)

end

theorem scalarAlign_eq {bits : Nat} (h : bits < Nat.pow 2 32) :
    scalarAlign layout bits = some (Ty.scalarAlign layout bits) := by
  have hbytes : IR.ceilDiv bits 8 ≤ Nat.pow 2 63 := by
    unfold IR.ceilDiv
    have : Nat.pow 2 32 ≤ Nat.pow 2 63 := by decide
    omega
  have hpos := powerOfTwoAbove_pos (IR.ceilDiv bits 8)
  have halign := layout.maxAlign_pos
  have hmax : max 1 (min (IR.powerOfTwoAbove (IR.ceilDiv bits 8)) layout.maxAlign) =
      min (IR.powerOfTwoAbove (IR.ceilDiv bits 8)) layout.maxAlign := by omega
  unfold scalarAlign Ty.scalarAlign
  rw [ceilDiv, if_neg (by decide)]
  dsimp only [bind, Option.bind]
  rw [powerOfTwoAbove, if_pos hbytes]
  dsimp only
  rw [clamp, if_pos (by omega), hmax]

theorem unlessPacked_some (packed : Bool) (align : Nat) :
    unlessPacked packed (some align) = some (if packed then 1 else align) := by
  cases packed <;> rfl

mutual

theorem align_eq (hp : layout.pointerBits < Nat.pow 2 32) :
    (t : Ty) → (∀ p ∈ t.parts, p.Narrow) → align layout t = some (t.align layout)
  | .void, _ | .function .., _ => rfl
  | .int bits, h => scalarAlign_eq (h _ (.head _) bits rfl)
  | .float f, _ => scalarAlign_eq (by cases f <;> decide)
  | .pointer .., _ => scalarAlign_eq hp
  | .array e _, h => align_eq hp e fun p k => h p (.tail _ k)
  | .struct fs packed, h => by
    rw [align, Ty.align, widestAlign_eq hp fs fun p k => h p (.tail _ k), unlessPacked_some]

theorem widestAlign_eq (hp : layout.pointerBits < Nat.pow 2 32) :
    (ts : List Ty) → (∀ p ∈ Ty.partsOf ts, p.Narrow) → widestAlign layout ts = some (Ty.widestAlign layout ts)
  | [], _ => rfl
  | t :: ts, h => by
    obtain ⟨ht, hts⟩ := List.forall_mem_append.mp h
    rw [widestAlign, align_eq hp t ht, widestAlign_eq hp ts hts]
    rfl

end

theorem paddedSize_eq (bits : Nat) {align : Nat} (h : 0 < align) :
    paddedSize bits align = some (Ty.paddedSize? bits align) := by
  simp [paddedSize, Ty.paddedSize?, ceilDiv, IR.roundUp, Nat.ne_of_gt h]

theorem roundUp_eq (offset : Nat) {align : Nat} (h : 0 < align) :
    roundUp offset align = some (sized? (IR.roundUp offset align)) := by
  simp [roundUp, ceilDiv, IR.roundUp, Nat.ne_of_gt h]

mutual

theorem sizeInBits_eq (hp : layout.pointerBits < Nat.pow 2 32) :
    (t : Ty) → (∀ p ∈ t.parts, p.Narrow) → sizeInBits layout t = some (t.sizeInBits? layout)
  | .void, _ | .function .., _ | .int _, _ | .float _, _ | .pointer .., _ => rfl
  | .array e length, h => by
    have he : ∀ p ∈ e.parts, p.Narrow := fun p k => h p (.tail _ k)
    rw [sizeInBits, sizeInBits_eq hp e he, align_eq hp e he, Ty.sizeInBits?]
    cases e.sizeInBits? layout with
    | none => rfl
    | some bits =>
      dsimp only [bind, Option.bind]
      rw [paddedSize_eq bits (align_pos e)]
      dsimp only
      cases Ty.paddedSize? bits (e.align layout) <;> rfl
  | .struct fs packed, h => by
    have hfs : ∀ p ∈ Ty.partsOf fs, p.Narrow := fun p k => h p (.tail _ k)
    rw [sizeInBits, fieldsEnd_eq hp packed fs 0 hfs, widestAlign_eq hp fs hfs, unlessPacked_some, Ty.sizeInBits?]
    cases Ty.fieldsEnd? layout packed fs 0 with
    | none => rfl
    | some stop =>
      dsimp only [bind, Option.bind]
      rw [roundUp_eq stop (unlessPacked_pos packed (widestAlign_pos fs))]
      dsimp only
      cases sized? (IR.roundUp stop (if packed then 1 else Ty.widestAlign layout fs)) <;> rfl

theorem fieldsEnd_eq (hp : layout.pointerBits < Nat.pow 2 32) (packed : Bool) :
    (ts : List Ty) → (offset : Nat) → (∀ p ∈ Ty.partsOf ts, p.Narrow) →
      fieldsEnd layout packed ts offset = some (Ty.fieldsEnd? layout packed ts offset)
  | [], _, _ => rfl
  | t :: ts, offset, h => by
    obtain ⟨ht, hts⟩ := List.forall_mem_append.mp h
    rw [fieldsEnd, sizeInBits_eq hp t ht, align_eq hp t ht, unlessPacked_some, Ty.fieldsEnd?]
    cases t.sizeInBits? layout with
    | none => rfl
    | some bits =>
      dsimp only [bind, Option.bind]
      rw [paddedSize_eq bits (align_pos t)]
      dsimp only
      cases Ty.paddedSize? bits (t.align layout) with
      | none => rfl
      | some size =>
        dsimp only
        rw [roundUp_eq offset (unlessPacked_pos packed (align_pos t))]
        dsimp only
        cases sized? (IR.roundUp offset (if packed then 1 else t.align layout)) with
        | none => rfl
        | some start =>
          dsimp only
          cases sized? (start + size) with
          | none => rfl
          | some stop => exact fieldsEnd_eq hp packed ts stop hts

end

theorem allocSize_eq (hp : layout.pointerBits < Nat.pow 2 32) {t : Ty} (h : ∀ p ∈ t.parts, p.Narrow) :
    allocSize layout t = some (t.allocSize? layout) := by
  rw [allocSize, sizeInBits_eq hp t h, align_eq hp t h, Ty.allocSize?]
  cases t.sizeInBits? layout with
  | none => rfl
  | some bits => exact paddedSize_eq bits (align_pos t)

end
end Strict
end StackAssembler.IR
