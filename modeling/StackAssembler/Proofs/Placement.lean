import StackAssembler.Proofs.Change

/-! Where instructions stand. Each stands once, in the block that it records, and nothing follows a terminator. -/
namespace StackAssembler.IR

/-- What the lists of the blocks and the blocks that instructions record say about one another. -/
structure Placed (ctx : Context) : Prop where
  listed : ∀ v b, v ∈ (ctx.block b).instructions ↔ ∃ op, (ctx.value v).kind = .instruction op b
  once : ∀ b, (ctx.block b).instructions.toList.Nodup
  last : ∀ b i v op c, (ctx.block b).instructions[i]? = some v → (ctx.value v).kind = .instruction op c →
    op.isTerminator → i + 1 = (ctx.block b).instructions.size

namespace Context
variable {ctx : Context}

/-- A value that reads as something else than the default is there. -/
theorem hasValue_of_kind {v : ValueId} {k : ValueKind} (h : (ctx.value v).kind = k) (hk : k ≠ .constant .undef) :
    ctx.HasValue v := by
  by_contra hv
  rw [value, getD_of_size_le (Nat.le_of_not_lt hv)] at h
  exact hk h.symm

theorem hasValue_of_instruction {v : ValueId} {op : Operation} {b : BlockId}
    (h : (ctx.value v).kind = .instruction op b) : ctx.HasValue v :=
  hasValue_of_kind h (by simp)

theorem terminator?_eq_some {b : BlockId} {v : ValueId} :
    ctx.terminator? b = some v ↔ (ctx.block b).instructions.back? = some v ∧
      ∃ op c, (ctx.value v).kind = .instruction op c ∧ op.isTerminator := by
  simp only [terminator?, Option.bind_eq_bind, Option.bind_eq_some_iff, Value.operation?]
  constructor
  · rintro ⟨w, hw, op, hop, h⟩
    split at h
    · next ht =>
      cases h
      split at hop
      · next hk => cases hop; exact ⟨hw, _, _, hk, ht⟩
      · cases hop
    · cases h
  · rintro ⟨hw, op, c, hk, ht⟩
    exact ⟨v, hw, op, by simp [hk], by simp [ht]⟩

theorem value_append (xs : List Value) (v : ValueId) :
    ({ ctx with values := ctx.values ++ xs.toArray } : Context).value v =
      if v.index < ctx.values.size then ctx.value v else xs.getD (v.index - ctx.values.size) default := by
  simp only [value, Array.getD_eq_getD_getElem?, Array.getElem?_append, List.getElem?_toArray,
    List.getD_eq_getElem?_getD]
  split <;> rfl

/-- Values that are no instructions do not show among the instructions. -/
theorem instruction_append (xs : List Value) (hx : ∀ x ∈ xs, ∀ op b, x.kind ≠ .instruction op b) {v : ValueId}
    {op : Operation} {b : BlockId} :
    (({ ctx with values := ctx.values ++ xs.toArray } : Context).value v).kind = .instruction op b ↔
      (ctx.value v).kind = .instruction op b := by
  rw [value_append]
  split
  · rfl
  · next hv =>
    constructor
    · intro h
      rw [List.getD_eq_getElem?_getD] at h
      cases hg : xs[v.index - ctx.values.size]? with
      | none => rw [hg] at h; cases h
      | some x => rw [hg] at h; exact absurd h (hx x (List.mem_of_getElem? hg) op b)
    · exact fun h => absurd (hasValue_of_instruction h) hv

theorem value_addInstruction (b : BlockId) (op : Operation) (t : Ty) (name : Option String) (v : ValueId) :
    (ctx.addInstruction b op t name).2.value v =
      if v.index = ctx.values.size then ⟨t, name, .instruction op b⟩ else ctx.value v :=
  getD_push _ _ _ _

theorem size_addInstruction (b : BlockId) (op : Operation) (t : Ty) (name : Option String) :
    (ctx.addInstruction b op t name).2.values.size = ctx.values.size + 1 :=
  Array.size_push _

theorem block_addInstruction {b : BlockId} (hb : ctx.HasBlock b) (op : Operation) (t : Ty) (name : Option String)
    (c : BlockId) :
    (ctx.addInstruction b op t name).2.block c =
      if c = b then { ctx.block b with instructions := (ctx.block b).instructions.push ⟨ctx.values.size⟩ }
      else ctx.block c := by
  simp only [addInstruction, addValue, block, getD_modify]
  by_cases hc : c = b
  · subst hc
    rw [if_pos ⟨rfl, hb⟩, if_pos rfl]
  · have hi : b.index ≠ c.index := fun he => hc (by cases b; cases c; simp_all)
    rw [if_neg (fun h => hi h.1), if_neg hc]

theorem kind_rename (v w : ValueId) (name : String) : ((ctx.rename v name).value w).kind = (ctx.value w).kind := by
  simp only [rename, value, getD_modify]
  split
  · split <;> rfl
  · rfl

theorem block_addBlock (name : Option String) (b : BlockId) :
    (ctx.addBlock name).2.block b = if b.index = ctx.blocks.size then ⟨name, none, #[]⟩ else ctx.block b :=
  getD_push _ _ _ _

theorem block_new {b : BlockId} (h : b.index = ctx.blocks.size) : ctx.block b = default :=
  getD_of_size_le (Nat.le_of_eq h.symm) _

theorem block_adopt {b : BlockId} (hb : ctx.HasBlock b) (f : FunctionId) (c : BlockId) :
    (ctx.adopt f b).block c = if c = b then { ctx.block b with function := some f } else ctx.block c := by
  simp only [adopt, block, getD_modify]
  by_cases hc : c = b
  · subst hc
    rw [if_pos ⟨rfl, hb⟩, if_pos rfl]
  · have hi : b.index ≠ c.index := fun he => hc (by cases b; cases c; simp_all)
    rw [if_neg (fun h => hi h.1), if_neg hc]

theorem kind_argumentValues {f : FunctionId} {params : List Ty} {start : Nat} {x : Value}
    (h : x ∈ argumentValues f params start) : ∃ i, x.kind = .argument f i := by
  obtain ⟨p, _, rfl⟩ := List.mem_map.mp h
  exact ⟨p.2, rfl⟩

theorem declare_values (m : ModuleId) (name : String) (result : Ty) (params : List Ty) (variadic : Bool)
    (linkage : Linkage) :
    (ctx.declare m name result params variadic linkage).values = ctx.values ++
      (⟨.pointer (.function result params variadic) 0, some name, .function ⟨ctx.functions.size⟩⟩ ::
        argumentValues ⟨ctx.functions.size⟩ params 0).toArray := by
  simp [declare]

end Context

namespace Change
variable {ctx ctx' : Context}

/-- A change writes one instruction into an open block, or it leaves the instructions of all blocks alone. -/
theorem instructions (h : Change ctx ctx') :
    (∃ b op t name, ctx.HasBlock b ∧ ctx.terminator? b = none ∧ ctx.Knows op.handles ∧ WellTyped ctx b op t ∧
      ctx' = (ctx.addInstruction b op t name).2) ∨
    (∀ v op b, (ctx'.value v).kind = .instruction op b ↔ (ctx.value v).kind = .instruction op b) ∧
      ∀ b, (ctx'.block b).instructions = (ctx.block b).instructions := by
  cases h with
  | instruction hb ho hk hw => exact Or.inl ⟨_, _, _, _, hb, ho, hk, hw, rfl⟩
  | type | module | node | nodeOperand | attachment | reattachment =>
    exact Or.inr ⟨fun _ _ _ => Iff.rfl, fun _ => rfl⟩
  | @constant t c =>
    refine Or.inr ⟨fun v op b => ?_, fun _ => rfl⟩
    rw [Context.addValue, Array.push_eq_append]
    exact Context.instruction_append [⟨t, none, .constant c⟩] (by simp)
  | name => exact Or.inr ⟨fun v op b => by rw [Context.kind_rename], fun _ => rfl⟩
  | @function m name result params variadic linkage =>
    refine Or.inr ⟨fun v op b => ?_, fun _ => rfl⟩
    rw [Context.value, Context.declare_values]
    refine Context.instruction_append _ fun x hx op b hk => ?_
    rcases List.mem_cons.mp hx with rfl | hx
    · cases hk
    · obtain ⟨i, hi⟩ := Context.kind_argumentValues hx
      rw [hi] at hk
      cases hk
  | block =>
    refine Or.inr ⟨fun _ _ _ => Iff.rfl, fun b => ?_⟩
    rw [Context.block_addBlock]
    split
    · next hb => rw [Context.block_new hb]; rfl
    · rfl
  | @adoption f b _ hb =>
    refine Or.inr ⟨fun _ _ _ => Iff.rfl, fun c => ?_⟩
    rw [Context.block_adopt hb]
    split
    · next hc => rw [hc]
    · rfl

end Change

namespace Placed
variable {ctx ctx' : Context}

theorem empty (layout : DataLayout) : Placed { layout := layout } where
  listed v _ := ⟨fun h => absurd h (Array.not_mem_empty v), fun ⟨_, h⟩ => nomatch h⟩
  once _ := List.nodup_nil
  last _ _ v _ _ h := absurd (Array.mem_of_getElem? h) (Array.not_mem_empty v)

/-- Values that are not there yet stand in no block. -/
private theorem fresh (hp : Placed ctx) (b : BlockId) : (⟨ctx.values.size⟩ : ValueId) ∉ (ctx.block b).instructions := by
  intro h
  obtain ⟨_, hk⟩ := (hp.listed _ _).mp h
  exact absurd (Context.hasValue_of_instruction hk) (Nat.lt_irrefl _)

private theorem write {b : BlockId} {op : Operation} {t : Ty} {name : Option String} (hp : Placed ctx)
    (hb : ctx.HasBlock b) (ho : ctx.terminator? b = none) : Placed (ctx.addInstruction b op t name).2 := by
  constructor
  · intro v c
    rw [Context.value_addInstruction, Context.block_addInstruction hb]
    by_cases hv : v.index = ctx.values.size <;> by_cases hc : c = b
    · subst hc
      obtain rfl : v = ⟨ctx.values.size⟩ := by cases v; simp_all
      simp
    · obtain rfl : v = ⟨ctx.values.size⟩ := by cases v; simp_all
      simpa [hc, Ne.symm hc] using hp.fresh c
    · subst hc
      have hne : v ≠ ⟨ctx.values.size⟩ := fun he => hv (by rw [he])
      simpa [hv, hne] using hp.listed v c
    · simpa [hv, hc] using hp.listed v c
  · intro c
    rw [Context.block_addInstruction hb]
    split
    · rw [Array.toList_push, List.nodup_append]
      refine ⟨hp.once b, by simp, ?_⟩
      intro v hv w hw he
      rw [List.mem_singleton] at hw
      exact hp.fresh b (Array.mem_toList_iff.mp (hw ▸ he ▸ hv))
    · exact hp.once c
  · intro c i v o d hi hk ht
    have old : ∀ e, v ∈ (ctx.block e).instructions → (ctx.value v).kind = .instruction o d := by
      intro e he
      have hne : v.index ≠ ctx.values.size := fun h => hp.fresh e (by cases v; simp_all)
      rwa [Context.value_addInstruction, if_neg hne] at hk
    rw [Context.block_addInstruction hb] at hi ⊢
    by_cases hc : c = b
    · subst hc
      simp only [if_true, Array.getElem?_push, Array.size_push] at hi ⊢
      split at hi
      · omega
      · -- A terminator among the earlier instructions would be the last of them, and the block not open.
        have hk := old c (Array.mem_of_getElem? hi)
        have hl := hp.last c i v o d hi hk ht
        have hback : (ctx.block c).instructions.back? = some v := by
          rw [Array.back?, ← hl]
          simpa using hi
        have := Context.terminator?_eq_some.mpr ⟨hback, o, d, hk, ht⟩
        rw [ho] at this
        cases this
    · rw [if_neg hc] at hi ⊢
      exact hp.last c i v o d hi (old c (Array.mem_of_getElem? hi)) ht

theorem step (hp : Placed ctx) (h : Change ctx ctx') : Placed ctx' := by
  rcases h.instructions with ⟨b, op, t, name, hb, ho, _, _, rfl⟩ | ⟨hk, hi⟩
  · exact hp.write hb ho
  · constructor
    · intro v b
      simpa only [hi, hk] using hp.listed v b
    · intro b
      simpa only [hi] using hp.once b
    · intro b i v op c
      simpa only [hi, hk] using hp.last b i v op c

theorem evolve (hp : Placed ctx) (h : Evolves ctx ctx') : Placed ctx' := h.preserves step hp

end Placed

/-! ### Closed blocks -/

private theorem Change.closed {ctx ctx' : Context} (h : Change ctx ctx') {b : BlockId} {v : ValueId}
    (ht : ctx.terminator? b = some v) :
    (ctx'.block b).instructions = (ctx.block b).instructions ∧ ctx'.terminator? b = some v := by
  obtain ⟨hback, op, c, hk, hop⟩ := Context.terminator?_eq_some.mp ht
  have same : (ctx'.block b).instructions = (ctx.block b).instructions := by
    rcases h.instructions with ⟨d, o, t, name, hd, ho, _, _, rfl⟩ | ⟨_, hi⟩
    · rw [Context.block_addInstruction hd, if_neg]
      rintro rfl
      rw [ht] at ho
      cases ho
    · exact hi b
  refine ⟨same, Context.terminator?_eq_some.mpr ⟨by rw [same, hback], op, c, ?_, hop⟩⟩
  rw [h.keeps.kind (Context.hasValue_of_instruction hk), hk]

/-- A block that ends in a terminator never changes its instructions again. -/
theorem Evolves.closed {ctx ctx' : Context} (h : Evolves ctx ctx') {b : BlockId} {v : ValueId}
    (ht : ctx.terminator? b = some v) :
    (ctx'.block b).instructions = (ctx.block b).instructions ∧ ctx'.terminator? b = some v := by
  induction h with
  | refl => exact ⟨rfl, ht⟩
  | tail _ hc ih =>
    obtain ⟨hi, ht'⟩ := hc.closed ih.2
    exact ⟨hi.trans ih.1, ht'⟩

end StackAssembler.IR
