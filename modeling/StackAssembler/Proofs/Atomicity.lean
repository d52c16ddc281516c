import StackAssembler.Proofs.Effect

/-! A call of the emitter writes one instruction, answers without writing any, or changes nothing. -/
namespace StackAssembler.IR
namespace Context

/-- Only the table of types is different. It may have got longer. -/
structure Retypes (ctx ctx' : Context) : Prop where
  types : ctx.types.toList <+: ctx'.types.toList
  rest : ctx' = { ctx with types := ctx'.types }

/-- The last value is new. It is an instruction at the end of a block, and the other blocks are the same. -/
structure Writes (ctx : Context) (b : BlockId) (v : ValueId) (ctx' : Context) : Prop where
  types : ctx.types.toList <+: ctx'.types.toList
  fresh : v = ⟨ctx.values.size⟩
  values : ∃ op t name, ctx'.values = ctx.values.push ⟨t, name, .instruction op b⟩
  block : ctx'.block b = { ctx.block b with instructions := (ctx.block b).instructions.push v }
  others : ∀ c, c ≠ b → ctx'.block c = ctx.block c
  count : ctx'.blocks.size = ctx.blocks.size
  rest : ctx' = { ctx with types := ctx'.types, values := ctx'.values, blocks := ctx'.blocks }

/-- The value is an integer constant, which may be new. All other values are the same. -/
structure Supplies (ctx : Context) (v : ValueId) (ctx' : Context) : Prop where
  types : ctx.types.toList <+: ctx'.types.toList
  constant : ∃ width payload, (ctx'.value v).kind = .constant (.int payload) ∧ ctx'.typeOf v = .int width ∧
    (ctx'.values = ctx.values ∨
      v = ⟨ctx.values.size⟩ ∧ ctx'.values = ctx.values.push ⟨.int width, none, .constant (.int payload)⟩)
  rest : ctx' = { ctx with types := ctx'.types, values := ctx'.values }

variable {ctx : Context}

theorem retypes_internAll (ctx : Context) (ts : List Ty) : ctx.Retypes (ctx.internAll ts) :=
  ⟨ctx.types_prefix_internAll ts, ctx.internAll_eq ts⟩

theorem Retypes.writes {ctx' : Context} (h : ctx.Retypes ctx') {b : BlockId} (hb : ctx.HasBlock b) (op : Operation)
    (t : Ty) (name : Option String) : ctx.Writes b ⟨ctx.values.size⟩ (ctx'.addInstruction b op t name).2 := by
  obtain ⟨htypes, hrest⟩ := h
  generalize ctx'.types = types at htypes hrest
  subst hrest
  have hb' : ({ ctx with types := types } : Context).HasBlock b := hb
  refine ⟨htypes, rfl, ⟨op, t, name, rfl⟩, ?_, fun c hc => ?_, ?_, rfl⟩
  · rw [block_addInstruction hb', if_pos rfl]
    rfl
  · rw [block_addInstruction hb', if_neg hc]
    rfl
  · simp [addInstruction, addValue]

theorem Retypes.supplies {ctx' : Context} (h : ctx.Retypes ctx') (width payload : Nat) :
    ctx.Supplies (ctx'.constant (.int width) (.int payload)).1 (ctx'.constant (.int width) (.int payload)).2 := by
  obtain ⟨htypes, hrest⟩ := h
  generalize ctx'.types = types at htypes hrest
  subst hrest
  unfold constant
  cases hf : List.findIdx? (isConstant (.int width) (.int payload))
    ({ ctx with types := types } : Context).values.toList with
  | some i =>
    -- A value with this content and type was there.
    obtain ⟨hi, hc, _⟩ := List.findIdx?_eq_some_iff_getElem.mp hf
    have hv : ctx.value ⟨i⟩ = ctx.values.toList[i] := by
      have hlt : i < ctx.values.size := by simpa using hi
      simp [value, Array.getD_eq_getD_getElem?, Array.getElem?_eq_getElem hlt]
    have hkind : (ctx.value ⟨i⟩).kind = .constant (.int payload) ∧ (ctx.value ⟨i⟩).type = .int width := by
      rw [hv]
      simpa [isConstant] using hc
    exact ⟨htypes, ⟨width, payload, hkind.1, hkind.2, Or.inl rfl⟩, rfl⟩
  | none =>
    refine ⟨htypes, ⟨width, payload, ?_, ?_, Or.inr ⟨rfl, rfl⟩⟩, rfl⟩
    · simp [addValue, value, Array.getD_eq_getD_getElem?]
    · simp [addValue, typeOf, value, Array.getD_eq_getD_getElem?]

end Context
end StackAssembler.IR

namespace StackAssembler.Build
open IR

/-- A call of the emitter that is refused leaves all as it was, except that types may have come into their table.
One that succeeds writes one instruction into the open block at the builder's position. Only an operation, a
comparison or a cast may instead answer with an operand or with an integer constant; then no block changes. -/
theorem Step.emit_all_or_nothing (e : Emission) (m : Machine) (hb : ∀ b ∈ m.builder.position, m.context.HasBlock b) :
    (∀ err m', Step.emit (e.run ·) m = .error err m' → m'.builder = m.builder ∧ m.context.Retypes m'.context) ∧
    ∀ v m', Step.emit (e.run ·) m = .ok v m' → m'.builder = m.builder ∧
      ((∃ b, m.builder.position = some b ∧ m.context.terminator? b = none ∧ m.context.Writes b v m'.context) ∨
        e.folds ∧ (v ∈ e.handles.values ∧ m'.context = m.context ∨ m.context.Supplies v m'.context)) := by
  have retypes := m.context.retypes_internAll
  have outcome := e.run_outcome m.builder.position m.context
  rw [emit_run]
  generalize e.run m.builder.position m.context = r at outcome
  constructor
  · intro err m' h
    cases outcome with
    | refused ts =>
      cases h
      exact ⟨rfl, retypes ts⟩
    | _ => cases h
  · intro v m' h
    cases outcome with
    | refused => cases h
    | @written b op t name ts hat ho =>
      cases h
      exact ⟨rfl, Or.inl ⟨b, hat, ho, (retypes ts).writes (hb b hat) op t name⟩⟩
    | operand hf hv =>
      cases h
      exact ⟨rfl, Or.inr ⟨hf, Or.inl ⟨hv, rfl⟩⟩⟩
    | @folded width n ts hf =>
      cases h
      exact ⟨rfl, Or.inr ⟨hf, Or.inr ((retypes ts).supplies width _)⟩⟩

/-- A conditional branch on a number. -/
def Emission.misbranch : Emission := .condBr ⟨1⟩ ⟨0⟩ ⟨0⟩

/-- It is refused, and leaves the type of truth values behind. -/
theorem Step.emit_all_or_nothing_misbranch :
    failure? (Step.emit (Emission.misbranch.run ·)) Machine.operands =
        some (.ir (.typeMismatch (.exactly (.int 1)) (.int 32))) ∧
      ¬ Machine.operands.context.HasType (.int 1) ∧
      (after (Step.emit (Emission.misbranch.run ·)) Machine.operands).context.HasType (.int 1) ∧
      (after (Step.emit (Emission.misbranch.run ·)) Machine.operands).builder = Machine.operands.builder ∧
      Machine.operands.context.Retypes (after (Step.emit (Emission.misbranch.run ·)) Machine.operands).context := by
  have hb : ∀ b ∈ Machine.operands.builder.position, Machine.operands.context.HasBlock b := by decide +kernel
  have hf : failure? (Step.emit (Emission.misbranch.run ·)) Machine.operands =
      some (.ir (.typeMismatch (.exactly (.int 1)) (.int 32))) := by decide +kernel
  have h := (Step.emit_all_or_nothing Emission.misbranch Machine.operands hb).1 _ _ (eq_error_of_failure? hf)
  exact ⟨hf, by decide +kernel, by decide +kernel, h⟩

end StackAssembler.Build
