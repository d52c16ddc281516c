import StackAssembler.Proofs.Folding

/-! Which operations on integer constants fold. Those without a result are left to instructions, and so are the quotient
and the remainder whose quotient is too large for a register. -/
namespace StackAssembler.IR

/-- The operations without a result: divisions by zero, and shifts by the width or more. -/
def Undefined (width b : Nat) (op : BinaryOp) : Prop :=
  b = 0 ∧ op ∈ [BinaryOp.udiv, .sdiv, .urem, .srem] ∨ width ≤ b ∧ op ∈ [BinaryOp.shl, .lshr, .ashr]
  deriving Decidable

/-- An integer operation comes to something unless it is without a result. -/
theorem exists_denotes {op : BinaryOp} (hop : op.isFloat = false) (width a b : Nat) :
    (∃ n, Denotes width a b op n) ↔ ¬ Undefined width b op := by
  constructor
  · rintro ⟨n, hn⟩ (⟨hzero, hdiv⟩ | ⟨hlarge, hshift⟩)
    · exact hn.domain.1 (by simp only [List.mem_cons] at hdiv ⊢; tauto) hzero
    · exact Nat.not_le.mpr (hn.domain.2 hshift) hlarge
  · intro hdefined
    obtain ⟨hdivides, hshifts⟩ := not_or.mp hdefined
    have nonzero (h : op ∈ [BinaryOp.udiv, .sdiv, .urem, .srem]) : b ≠ 0 := fun hzero => hdivides ⟨hzero, h⟩
    have amount (h : op ∈ [BinaryOp.shl, .lshr, .ashr]) : b < width := Nat.lt_of_not_le fun hlarge => hshifts ⟨hlarge, h⟩
    cases op with
    | add => exact ⟨_, .add⟩
    | sub => exact ⟨_, .sub⟩
    | mul => exact ⟨_, .mul⟩
    | udiv => exact ⟨_, .udiv (nonzero (by decide))⟩
    | urem => exact ⟨_, .urem (nonzero (by decide))⟩
    | sdiv => exact ⟨_, .sdiv (nonzero (by decide))⟩
    | srem => exact ⟨_, .srem (nonzero (by decide))⟩
    | shl => exact ⟨_, .shl (amount (by decide))⟩
    | lshr => exact ⟨_, .lshr (amount (by decide))⟩
    | ashr => exact ⟨_, .ashr (amount (by decide))⟩
    | and => exact ⟨_, .and⟩
    | or => exact ⟨_, .or⟩
    | xor => exact ⟨_, .xor⟩
    | fadd | fsub | fmul | fdiv | frem => cases hop

/-- The payloads that an operation is not carried out on are those without a result and those that overflow. -/
theorem Word.combine?_eq_none_iff {op : BinaryOp} (hop : op.isFloat = false) {width a b : Nat} (hpos : 1 ≤ width)
    (hle : width ≤ capacity) (ha : a < 2 ^ width) (hb : b < 2 ^ width) :
    combine? op width a b = none ↔ Undefined width b op ∨ Overflows width a b op := by
  cases hn : combine? op width a b with
  | some n =>
    obtain ⟨hdenotes, hfits⟩ := denotes_of_combine? hpos hle ha hb hn
    have hdefined := (exists_denotes hop width a b).mp ⟨n, hdenotes⟩
    exact ⟨nofun, fun h => (h.elim hdefined hfits).elim⟩
  | none =>
    refine ⟨fun _ => ?_, fun _ => rfl⟩
    by_contra h
    obtain ⟨hdefined, hfits⟩ := not_or.mp h
    obtain ⟨n, hdenotes⟩ := (exists_denotes hop width a b).mpr hdefined
    cases hn.symm.trans (combine?_of_denotes hpos hle ha hb hdenotes hfits)

end StackAssembler.IR

namespace StackAssembler.Build
open IR

/-- An integer operation on two constants of up to 128 bits is answered by a constant without an instruction, unless it
has no result or overflows a register. Then, and only then, it is written at the end of the open block. -/
theorem Reachable.folds_iff {m : Machine} (h : Reachable m) {block : BlockId} (hopen : m.context.terminator? block = none)
    {op : BinaryOp} (hop : op.isFloat = false) {width a b : Nat} (hpos : 1 ≤ width) (hle : width ≤ 128) {l r : ValueId}
    (hl : m.context.HasConstant l (.int width) (.int a)) (hr : m.context.HasConstant r (.int width) (.int b)) :
    ((∃ payload, m.context.AnswersConstant (Emitter.binary (some block) op l r m.context) (.int width) (.int payload)) ↔
      ¬ (Undefined width b op ∨ Overflows width a b op)) ∧
    (Emitter.binary (some block) op l r m.context =
        .ok ⟨m.context.values.size⟩ (m.context.addInstruction block (.binary op l r) (.int width) none).2 ↔
      Undefined width b op ∨ Overflows width a b op) := by
  have hc := h.canonical
  rw [← Word.combine?_eq_none_iff hop hpos hle (hc.payload_lt hl).1 (hc.payload_lt hr).1]
  cases hn : Word.combine? op width a b with
  | none =>
    have hwrites : Emitter.binary (some block) op l r m.context = _ :=
      (Emitter.binary_writes hop hle hl hr hn).trans (Emitter.append_open (by rw [hopen]; rfl))
    refine ⟨⟨?_, fun h => absurd rfl h⟩, ⟨fun _ => rfl, fun _ => hwrites⟩⟩
    rintro ⟨payload, v, ctx', hrun, hconst, -⟩
    rw [Emitter.binary_writes hop hle hl hr hn] at hrun
    obtain ⟨_, hkind⟩ := Emitter.append_instruction hrun
    cases hkind.symm.trans hconst.kind
  | some n =>
    have hfolds : Emitter.binary (some block) op l r m.context = _ := Emitter.binary_folds hop hle hl hr hn
    refine ⟨⟨fun _ => nofun, fun _ => ⟨Word.truncate width n, ?_⟩⟩, ⟨fun hrun => ?_, nofun⟩⟩
    · rw [hfolds]
      exact Context.answersConstant hc (Constant.fits_truncate width n)
    · obtain ⟨hv, hctx⟩ := EStateM.Result.ok.inj (hfolds.symm.trans hrun)
      have hconst := Context.hasConstant_constant m.context (.int width) (.int (Word.truncate width n))
      have hkind : ((m.context.addInstruction block (.binary op l r) (.int width) none).2.value
          ⟨m.context.values.size⟩).kind = .instruction (.binary op l r) block := by
        rw [Context.value_addInstruction, if_pos rfl]
      rw [hv, hctx] at hconst
      cases hkind.symm.trans hconst.kind

/-- 44 of a byte divided by itself is a constant, and shifted by itself an instruction. -/
theorem Reachable.folds_iff_byte :
    (∃ payload, Machine.byteInBlock.context.AnswersConstant
      (Emitter.binary (some ⟨1⟩) .sdiv ⟨7⟩ ⟨7⟩ Machine.byteInBlock.context) (.int 8) (.int payload)) ∧
    Emitter.binary (some ⟨1⟩) .shl ⟨7⟩ ⟨7⟩ Machine.byteInBlock.context =
      .ok ⟨8⟩ (Machine.byteInBlock.context.addInstruction ⟨1⟩ (.binary .shl ⟨7⟩ ⟨7⟩) (.int 8) none).2 := by
  have hopen : Machine.byteInBlock.context.terminator? ⟨1⟩ = none := by decide +kernel
  have hv : Machine.byteInBlock.context.HasConstant ⟨7⟩ (.int 8) (.int 44) :=
    ⟨by decide +kernel, by decide +kernel, by decide +kernel⟩
  have hdiv : BinaryOp.isFloat .sdiv = false := rfl
  have hshl : BinaryOp.isFloat .shl = false := rfl
  have divides := Reachable.byteInBlock.folds_iff hopen hdiv (by decide) (by decide) hv hv
  have shifts := Reachable.byteInBlock.folds_iff hopen hshl (by decide) (by decide) hv hv
  exact ⟨divides.1.mpr (by simp [Undefined, Overflows]), shifts.2.mpr (.inl (by decide))⟩

/-- The least number of 128 bits and minus one, at the start of a block. -/
def Machine.least : Machine :=
  Machine.double.runAll [.request (.integer 128 (2 ^ 127)), .request (.integer 128 (-1)), .perform (.createBlock "next")]

/-- The remainder of the least number by minus one is defined, and yet it is written as an instruction. -/
theorem Reachable.folds_not_least :
    Reachable Machine.least ∧ Machine.least.context.terminator? ⟨1⟩ = none ∧
    Machine.least.context.HasConstant ⟨7⟩ (.int 128) (.int (2 ^ 127)) ∧
    Machine.least.context.HasConstant ⟨8⟩ (.int 128) (.int (2 ^ 128 - 1)) ∧ ¬ Undefined 128 (2 ^ 128 - 1) .srem ∧
    ∃ v ctx', Emitter.binary (some ⟨1⟩) .srem ⟨7⟩ ⟨8⟩ Machine.least.context = .ok v ctx' ∧
      (ctx'.value v).kind = .instruction (.binary .srem ⟨7⟩ ⟨8⟩) ⟨1⟩ ∧ (ctx'.block ⟨1⟩).instructions = #[v] := by
  refine ⟨Reachable.double.later (.of_permits _ (by decide +kernel)), by decide +kernel,
    ⟨by decide +kernel, by decide +kernel, by decide +kernel⟩, ⟨by decide +kernel, by decide +kernel, by decide +kernel⟩,
    by decide, ⟨9⟩, _, rfl, by decide +kernel, by decide +kernel⟩

end StackAssembler.Build
