import Mathlib.Data.Int.ModEq
import StackAssembler.IR.Shorthand
import StackAssembler.Proofs.Comparison

/-! Short names. Their types are entered by requests, and constants that are made from machine integers are read back as
the integers that they were made from, as long as the context is there. -/
namespace StackAssembler.IR

namespace Shorthand

/-- Short names of different meaning are different types. -/
theorem type_injective : Function.Injective Shorthand.type := by
  intro s s' h
  cases s <;> cases s' <;> simp_all [Shorthand.type]

end Shorthand

/-- A number that fits into a width with its sign is read back from its payload. -/
theorem Word.signed_truncate {width : Nat} {n : Int} (hpos : 1 ≤ width) (hle : width ≤ 128)
    (hlow : -2 ^ (width - 1) ≤ n) (hhigh : n < 2 ^ (width - 1)) :
    Word.signed width (Word.truncate width n) = n := by
  obtain ⟨k, rfl⟩ : ∃ k, width = k + 1 := ⟨width - 1, by omega⟩
  rw [Nat.add_sub_cancel] at hlow hhigh
  have hmodulus : ((2 ^ (k + 1) : Nat) : Int) = 2 * 2 ^ k := by
    push_cast
    exact pow_succ' 2 k
  have hpayload : ((n % 2 ^ (k + 1)).toNat : Int) = n % (2 ^ (k + 1) : Nat) := by
    push_cast
    exact Int.toNat_of_nonneg (Int.emod_nonneg n (by positivity))
  rw [Word.signed, if_neg (by omega), Word.capacity, Nat.min_eq_left hle, Nat.pow_eq, Word.truncate_eq_emod hle,
    hpayload, Int.emod_bmod]
  exact Int.bmod_eq_of_le (by omega) (by omega)

namespace MachineInteger
variable {k : MachineInteger} {n : Int}

/-- The number that a constant is read as: with its sign, or as its payload. -/
def read? (k : MachineInteger) (ctx : Context) (v : ValueId) : Option Int :=
  if k.signed then ctx.signed? v else (ctx.payload? v).map Int.ofNat

theorem holds_iff : k.Holds n ↔
    if k.signed then -2 ^ (k.width - 1) ≤ n ∧ n < 2 ^ (k.width - 1) else 0 ≤ n ∧ n < 2 ^ k.width := by
  simp only [Holds, Nat.pow_eq, Int.natCast_pow]
  rfl

/-- What was cut off from a number of the kind is read as the number. -/
theorem read?_of_holds {ctx : Context} {v : ValueId} (h : k.Holds n)
    (hv : ctx.HasConstant v (.int k.width) (.int (Word.truncate k.width n))) : k.read? ctx v = some n := by
  have hle : k.width ≤ 128 := k.le.trans (by decide)
  rw [holds_iff] at h
  unfold read?
  split at h
  · next hsigned =>
    rw [if_pos hsigned, Context.signed?_constant hv, Word.signed_truncate k.pos hle h.1 h.2]
  · next hsigned =>
    rw [if_neg hsigned, hv.payload?, Word.truncate_eq_emod hle, Int.emod_eq_of_lt h.1 h.2]
    exact congrArg some (Int.toNat_of_nonneg h.1)

end MachineInteger

namespace Context
variable {ctx : Context}

theorem hasType_intern (ctx : Context) (t : Ty) : (ctx.intern t).HasType t := by
  unfold intern
  split
  · next h => exact h
  · simp [HasType]

theorem intern_of_hasType {t : Ty} (h : ctx.HasType t) : ctx.intern t = ctx := if_pos h

/-- A short name enters its type and what the type is made of. -/
theorem hasType_shorthand (ctx : Context) (s : Shorthand) :
    ∀ t ∈ s.type :: s.type.components, (ctx.shorthand s).2.HasType t := by
  cases s with
  | intPointer bits space =>
    have hpointee := ctx.hasType_intern (.int bits)
    have hevolves : Evolves (ctx.intern (.int bits)) (ctx.shorthand (.intPointer bits space)).2 :=
      .intern (List.forall_mem_singleton.mpr hpointee)
    exact List.forall_mem_cons.mpr
      ⟨hasType_intern _ _, List.forall_mem_singleton.mpr (hevolves.keeps.hasType hpointee)⟩
  | void | int | float | double => exact List.forall_mem_singleton.mpr (hasType_intern _ _)

/-- Where these types are there, a short name changes nothing. -/
theorem shorthand_of_hasType {s : Shorthand} (h : ∀ t ∈ s.type :: s.type.components, ctx.HasType t) :
    ctx.shorthand s = (s.type, ctx) := by
  obtain ⟨htype, hparts⟩ := List.forall_mem_cons.mp h
  cases s with
  | intPointer bits space =>
    have hpointee : ctx.HasType (.int bits) := hparts _ (List.mem_singleton_self _)
    rw [shorthand, intern_of_hasType hpointee, intern_of_hasType htype]
  | void | int | float | double => exact congrArg _ (intern_of_hasType htype)

/-- A value that has an integer type has as many bits as the type. -/
theorem valueBits?_int {v : ValueId} {width : Nat} (hv : ctx.typeOf v = .int width) (hle : width ≤ 64) :
    ctx.valueBits? v = some width := by
  rw [valueBits?, hv, Ty.sizeInBits?, sized?, if_pos (by rw [Nat.pow_eq]; omega)]

end Context
end StackAssembler.IR

namespace StackAssembler.Build
open IR

/-- Entering the type of a short name takes no more than requests. -/
theorem Session.shorthand (m : Machine) (s : Shorthand) :
    Session m { m with context := (m.context.shorthand s).2 } := by
  have enter (m : Machine) {t : Ty} (ht : ∀ c ∈ t.components, m.context.HasType c) :
      Session m { m with context := m.context.intern t } :=
    .step (.request (.intern t)) .done { Context.knows_nothing with types := ht }
  cases s with
  | intPointer bits space =>
    have hpointee := m.context.hasType_intern (.int bits)
    exact (enter m (List.forall_mem_nil _)).trans (enter _ (List.forall_mem_singleton.mpr hpointee))
  | void | int | float | double => exact enter m (List.forall_mem_nil _)

theorem Session.machineInteger (m : Machine) (k : MachineInteger) (n : { n : Int // k.Holds n }) :
    Session m { m with context := (m.context.machineInteger k n).2 } :=
  .integer m k.width n

/-- The type of a short name stays. Asking for it again at any later time gives it, and changes nothing. -/
theorem Reachable.shorthand_again {m m' : Machine} (h : Reachable m) {s : Shorthand}
    (later : Session { m with context := (m.context.shorthand s).2 } m') :
    m'.context.shorthand s = (s.type, m'.context) := by
  have hkeeps := (h.later (.shorthand m s)).keeps later
  exact Context.shorthand_of_hasType fun t ht => hkeeps.hasType (m.context.hasType_shorthand s t ht)

/-- A constant that is made from a machine integer has the width of its kind, and is read back as the integer at any
later time. -/
theorem Reachable.machineInteger_read {m m' : Machine} (h : Reachable m) {k : MachineInteger}
    {n : { n : Int // k.Holds n }} (later : Session { m with context := (m.context.machineInteger k n).2 } m') :
    m'.context.valueBits? (m.context.machineInteger k n).1 = some k.width ∧
      k.read? m'.context (m.context.machineInteger k n).1 = some n.1 := by
  have hv := (m.context.hasConstant_integer k.width n).later ((h.later (.machineInteger m k n)).keeps later)
  exact ⟨Context.valueBits?_int hv.type k.le, MachineInteger.read?_of_holds n.2 hv⟩

/-- Machine integers, of any two kinds and at any two times, become the same constant if and only if the widths are the
same and the numbers agree up to the width. -/
theorem Reachable.machineInteger_eq_iff {m m' : Machine} (h : Reachable m) {k k' : MachineInteger}
    {n : { n : Int // k.Holds n }} (n' : { n : Int // k'.Holds n })
    (later : Session { m with context := (m.context.machineInteger k n).2 } m') :
    (m.context.machineInteger k n).1 = (m'.context.machineInteger k' n').1 ↔
      k.width = k'.width ∧ n.1 ≡ n'.1 [ZMOD 2 ^ k.width] := by
  have hmade := h.later (.machineInteger m k n)
  have hlast := (hmade.later later).later (.machineInteger m' k' n')
  have first := (m.context.hasConstant_integer k.width n).later (hmade.keeps (later.trans (.machineInteger m' k' n')))
  have second := m'.context.hasConstant_integer k'.width n'
  refine (hlast.canonical.eq_iff first second).trans ?_
  rw [Ty.int.injEq, Constant.int.injEq]
  refine and_congr_right fun hwidth => ?_
  have hle : k.width ≤ 128 := k.le.trans (by decide)
  rw [← hwidth, Word.truncate_eq_emod hle, Word.truncate_eq_emod hle, Int.ModEq]
  have hpos : (2 : Int) ^ k.width ≠ 0 := by positivity
  have hn := Int.emod_nonneg n.1 hpos
  have hn' := Int.emod_nonneg n'.1 hpos
  omega

/-- Minus one, which is read back as 255 by the kind that has no sign. -/
example :
    MachineInteger.i8.read? (({} : Context).machineInteger .i8 ⟨-1, by decide⟩).2 ⟨0⟩ = some (-1) ∧
      MachineInteger.u8.read? (({} : Context).machineInteger .i8 ⟨-1, by decide⟩).2 ⟨0⟩ = some 255 := by
  decide +kernel

end StackAssembler.Build
