import StackAssembler.Proofs.Interchange

/-! What the parts of a context say about one another, all together. -/
namespace StackAssembler.IR

/-- Values that stand for functions or for their arguments are of functions that are there. -/
def Owned (ctx : Context) : Prop :=
  ∀ v f, ((ctx.value v).kind = .function f ∨ ∃ i, (ctx.value v).kind = .argument f i) → ctx.HasFunction f

/-- A value of a longer table is an old one, or is among those added. -/
theorem Context.kind_of_append {ctx ctx' : Context} {xs : List Value} (h : ctx'.values = ctx.values ++ xs.toArray)
    (v : ValueId) : (ctx'.value v).kind = (ctx.value v).kind ∨ ∃ x ∈ xs, (ctx'.value v).kind = x.kind := by
  have hv : ctx'.value v = ({ ctx with values := ctx.values ++ xs.toArray } : Context).value v := by
    rw [value, value, h]
  rw [hv, value_append]
  split
  · exact Or.inl rfl
  · next hlt =>
    rw [List.getD_eq_getElem?_getD]
    cases hx : xs[v.index - ctx.values.size]? with
    | some x => exact Or.inr ⟨x, List.mem_of_getElem? hx, rfl⟩
    | none =>
      rw [value, getD_of_size_le (Nat.le_of_not_lt hlt)]
      exact Or.inl rfl

namespace Owned
variable {ctx ctx' : Context}

theorem empty (layout : DataLayout) : Owned { layout := layout } := by
  rintro v f (h | ⟨_, h⟩) <;> cases h

/-- Kinds that were there belong to functions that were there. -/
private theorem keep (ho : Owned ctx) (h : ctx.Extends ctx') {v w : ValueId} {f : FunctionId}
    (hv : (ctx'.value v).kind = .function f ∨ ∃ i, (ctx'.value v).kind = .argument f i)
    (hk : (ctx'.value v).kind = (ctx.value w).kind) : ctx'.HasFunction f := by
  rw [hk] at hv
  exact h.hasFunction (ho w f hv)

theorem step (ho : Owned ctx) (h : Change ctx ctx') : Owned ctx' := by
  have keeps := h.keeps
  intro v f hv
  cases h with
  | @constant t k =>
    have hvalues : (ctx.addValue ⟨t, none, .constant k⟩).2.values = _ := Array.push_eq_append
    rcases Context.kind_of_append hvalues v with hk | ⟨x, hx, hk⟩
    · exact ho.keep keeps hv hk
    · rw [hk, List.mem_singleton.mp hx] at hv
      rcases hv with hv | ⟨_, hv⟩ <;> cases hv
  | @instruction b op t name =>
    rw [Context.value_addInstruction] at hv
    split at hv
    · rcases hv with hv | ⟨_, hv⟩ <;> cases hv
    · exact keeps.hasFunction (ho v f hv)
  | name => exact ho.keep keeps hv (Context.kind_rename _ _ _)
  | @function m name result params variadic linkage =>
    have hnew : (ctx.declare m name result params variadic linkage).HasFunction ⟨ctx.functions.size⟩ := by
      simp [Context.HasFunction, Context.declare]
    rcases Context.kind_of_append (Context.declare_values m name result params variadic linkage) v with hk | ⟨x, hx, hk⟩
    · exact ho.keep keeps hv hk
    · rw [hk] at hv
      rcases List.mem_cons.mp hx with rfl | hx
      · rcases hv with hv | ⟨_, hv⟩ <;> cases hv
        exact hnew
      · obtain ⟨i, hi⟩ := Context.kind_argumentValues hx
        rw [hi] at hv
        rcases hv with hv | ⟨_, hv⟩ <;> cases hv
        exact hnew
  | _ => exact keeps.hasFunction (ho v f hv)

theorem evolve (ho : Owned ctx) (h : Evolves ctx ctx') : Owned ctx' := h.preserves step ho

end Owned

/-- A context whose parts agree with one another. -/
structure Coherent (ctx : Context) : Prop where
  typed : Typed ctx
  placed : Placed ctx
  adopted : Adopted ctx
  registered : Registered ctx
  attached : Attached ctx
  owned : Owned ctx

namespace Coherent
variable {ctx ctx' : Context}

theorem empty (layout : DataLayout) : Coherent { layout := layout } :=
  ⟨.empty layout, .empty layout, .empty layout, .empty layout, .empty layout, .empty layout⟩

theorem evolve (hc : Coherent ctx) (h : Evolves ctx ctx') : Coherent ctx' :=
  ⟨hc.typed.evolve hc.adopted h, hc.placed.evolve h, hc.adopted.evolve h, hc.registered.evolve h, hc.attached.evolve h,
    hc.owned.evolve h⟩

/-- An instruction that a block lists is there, and so are the things that it refers to. -/
theorem listed (hc : Coherent ctx) {b : BlockId} {v : ValueId} (hv : v ∈ (ctx.block b).instructions) :
    ctx.HasValue v ∧ ∃ op, (ctx.value v).kind = .instruction op b ∧ ctx.Knows op.handles := by
  obtain ⟨op, hk⟩ := (hc.placed.listed v b).mp hv
  exact ⟨Context.hasValue_of_instruction hk, op, hk, (hc.typed v op b hk).1⟩

/-- A block that a function lists is there. -/
theorem hasBlock (hc : Coherent ctx) {f : FunctionId} {b : BlockId} (hb : b ∈ (ctx.function f).blocks) :
    ctx.HasBlock b := by
  have hf := (hc.adopted.listed f b).mp hb
  by_contra hlt
  rw [Context.block, getD_of_size_le (Nat.le_of_not_lt hlt)] at hf
  cases hf

theorem hasValue_arg (hc : Coherent ctx) {f : FunctionId} (hf : ctx.HasFunction f) {v : ValueId}
    (hv : v ∈ (ctx.function f).args) : ctx.HasValue v := by
  obtain ⟨i, hi⟩ := List.mem_iff_getElem?.mp hv
  exact hc.registered.hasValue_arg hf hi

end Coherent
end StackAssembler.IR
