import StackAssembler.Proofs.Ownership

/-! Every instruction that stands in a context obeys the typing rules. -/
namespace StackAssembler.IR

/-- All instructions are well typed, and what they refer to is there. -/
def Typed (ctx : Context) : Prop :=
  ∀ v op b, (ctx.value v).kind = .instruction op b →
    ctx.Knows op.handles ∧ ctx.HasBlock b ∧ WellTyped ctx b op (ctx.typeOf v)

namespace Typed
variable {ctx ctx' : Context}

theorem empty (layout : DataLayout) : Typed { layout := layout } := nofun

/-- The rule of an instruction that was there before. Its block may have been adopted since. -/
private theorem keep (ht : Typed ctx) (ha : Adopted ctx) (h : ctx.Extends ctx') {v : ValueId} {op : Operation}
    {b : BlockId} (hk : (ctx.value v).kind = .instruction op b) :
    ctx'.Knows op.handles ∧ ctx'.HasBlock b ∧ WellTyped ctx' b op (ctx'.typeOf v) := by
  obtain ⟨hop, hb, hw⟩ := ht v op b hk
  rw [h.typeOf (Context.hasValue_of_instruction hk)]
  exact ⟨h.knows hop, h.hasBlock hb, hw.mono h hop hb fun f => ha.hasFunction⟩

theorem step (ht : Typed ctx) (ha : Adopted ctx) (h : Change ctx ctx') : Typed ctx' := by
  have keeps := h.keeps
  intro v op b hk
  rcases h.instructions with ⟨c, o, t, name, hc, _, ho, hw, rfl⟩ | ⟨hkinds, _⟩
  · rw [Context.value_addInstruction] at hk
    split at hk
    · next hv =>
      cases hk
      rw [Context.typeOf, Context.value_addInstruction, if_pos hv]
      exact ⟨keeps.knows ho, keeps.hasBlock hc, hw.mono keeps ho hc fun f => ha.hasFunction⟩
    · exact ht.keep ha keeps hk
  · exact ht.keep ha keeps ((hkinds v op b).mp hk)

theorem evolve (ht : Typed ctx) (ha : Adopted ctx) (h : Evolves ctx ctx') : Typed ctx' :=
  (h.preserves (P := fun ctx => Typed ctx ∧ Adopted ctx) (fun hp hc => ⟨hp.1.step hp.2 hc, hp.2.step hc⟩) ⟨ht, ha⟩).1

end Typed
end StackAssembler.IR
