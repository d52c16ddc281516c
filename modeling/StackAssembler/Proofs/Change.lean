import StackAssembler.Proofs.WellTyped

/-! The single things that can happen to a context. All that is ever built is a sequence of them. -/
namespace StackAssembler.IR

/-- Whether a constant has the content that its type calls for. -/
def Constant.Fits : Constant → Ty → Prop
  | .int payload, t => ∃ width, t = .int width ∧ payload < Nat.pow 2 (min width Word.capacity)
  | .float _, t => t.isFloat
  | .null, t => t.isPointer
  | .undef, _ => True

/-- The handles in an operand of a metadata node. -/
def NodeOperand.handles : NodeOperand → Handles
  | .string _ => {}
  | .node n => { nodes := [n] }
  | .value v => { values := [v] }

namespace Context

/-- The values of a function's parameters. -/
def argumentValues (f : FunctionId) (params : List Ty) (start : Nat) : List Value :=
  (params.zipIdx start).map fun p => ⟨p.1, none, .argument f p.2⟩

/-- The context with one more function. Its own value and its arguments are the last values. -/
def declare (ctx : Context) (m : ModuleId) (name : String) (result : Ty) (params : List Ty) (variadic : Bool)
    (linkage : Linkage) : Context :=
  let f : FunctionId := ⟨ctx.functions.size⟩
  { ctx with
    values := ctx.values.push ⟨.pointer (.function result params variadic) 0, some name, .function f⟩ ++
      (argumentValues f params 0).toArray
    functions := ctx.functions.push ⟨name, result, params, variadic, linkage, m, ⟨ctx.values.size⟩,
      (List.range' (ctx.values.size + 1) params.length).map ValueId.mk, #[]⟩
    modules := ctx.modules.modify m.index fun module => { module with functions := module.functions.push f } }

theorem addArguments_eq (ctx : Context) (f : FunctionId) (params : List Ty) (start : Nat) :
    ctx.addArguments f params start = ((List.range' ctx.values.size params.length).map ValueId.mk,
      { ctx with values := ctx.values ++ (argumentValues f params start).toArray }) := by
  induction params generalizing ctx start with
  | nil => simp [addArguments, argumentValues]
  | cons t ts ih =>
    rw [addArguments]
    simp only [addValue, ih]
    simp [argumentValues, List.range'_succ, List.zipIdx_cons]

end Context

/-- One change of a context, and what has to hold for it to happen. -/
inductive Change (ctx : Context) : Context → Prop where
  | type {t : Ty} : ¬ ctx.HasType t → (∀ c ∈ t.components, ctx.HasType c) →
      Change ctx { ctx with types := ctx.types.push t }
  | constant {t : Ty} {c : Constant} : c.Fits t → (∀ v ∈ ctx.values, ¬ Context.isConstant t c v) →
      Change ctx (ctx.addValue ⟨t, none, .constant c⟩).2
  | instruction {b : BlockId} {op : Operation} {t : Ty} {name : Option String} : ctx.HasBlock b →
      ctx.terminator? b = none → ctx.Knows op.handles → WellTyped ctx b op t →
      Change ctx (ctx.addInstruction b op t name).2
  | name {v : ValueId} {name : String} : Change ctx (ctx.rename v name)
  | module {name : String} : Change ctx (ctx.addModule name).2
  | function {m : ModuleId} {name : String} {result : Ty} {params : List Ty} {variadic : Bool}
      {linkage : Linkage} : ctx.HasModule m → ctx.findFunction? m name = none →
      Change ctx (ctx.declare m name result params variadic linkage)
  | block {name : Option String} : Change ctx (ctx.addBlock name).2
  | adoption {f : FunctionId} {b : BlockId} : ctx.HasFunction f → ctx.HasBlock b →
      (ctx.block b).function = none → Change ctx (ctx.adopt f b)
  | node {operands : Node} : (∀ o ∈ operands, ctx.Knows o.handles) → Change ctx (ctx.addNode operands).2
  | nodeOperand {n : NodeId} {index : Nat} {operand : NodeOperand} : ctx.Knows operand.handles →
      Change ctx { ctx with nodes := ctx.nodes.modify n.index fun node => node.set index operand }
  | attachment {v : ValueId} {kind : String} {n : NodeId} : ctx.HasValue v → ctx.HasNode n →
      (∀ a ∈ ctx.attachments, ¬ (a.target = v ∧ a.kind = kind)) →
      Change ctx { ctx with attachments := ctx.attachments.push ⟨v, kind, n⟩ }
  | reattachment {i : Nat} {n : NodeId} : ctx.HasNode n →
      Change ctx { ctx with attachments := ctx.attachments.modify i fun a => { a with node := n } }

/-- Any number of changes. -/
def Evolves : Context → Context → Prop := Relation.ReflTransGen Change

namespace Change
variable {ctx ctx' : Context}

private theorem rename_grows (ctx : Context) (v : ValueId) (name : String) :
    Grows Value.Kept ctx.values (ctx.rename v name).values := by
  refine .modify Value.Kept.refl _ fun x _ => ?_
  cases hk : x.kind <;> simp [Value.Kept, hk]

private theorem adopt_grows (ctx : Context) (f : FunctionId) (b : BlockId) (h : (ctx.block b).function = none) :
    Grows Block.Kept ctx.blocks (ctx.adopt f b).blocks := by
  refine .modify Block.Kept.refl _ fun x hx => ⟨rfl, fun g hg => ?_, List.prefix_rfl⟩
  have hb : ctx.block b = x := by simp [Context.block, Array.getD_eq_getD_getElem?, hx]
  rw [hb, hg] at h
  cases h

/-- A change leaves standing what was there. -/
theorem keeps (h : Change ctx ctx') : ctx.Extends ctx' := by
  have he := Context.Extends.refl ctx
  cases h with
  | type => exact { he with types := by simp }
  | constant => exact { he with values := .push Value.Kept.refl _ _ }
  | instruction =>
    exact { he with
      values := .push Value.Kept.refl _ _
      blocks := .modify Block.Kept.refl _ fun x _ => ⟨rfl, fun _ h => h, by simp⟩ }
  | name => exact { he with values := rename_grows _ _ _ }
  | module => exact { he with modules := .push Module.Kept.refl _ _ }
  | function =>
    refine { he with
      values := ?_
      functions := .push Function.Kept.refl _ _
      modules := .modify Module.Kept.refl _ fun x _ => ⟨rfl, by simp⟩ }
    exact (Grows.push Value.Kept.refl _ _).trans Value.Kept.trans (.append Value.Kept.refl _ _)
  | block => exact { he with blocks := .push Block.Kept.refl _ _ }
  | adoption _ _ hb =>
    exact { he with
      blocks := adopt_grows _ _ _ hb
      functions := .modify Function.Kept.refl _ fun x _ => ⟨rfl, by simp⟩ }
  | node => exact { he with nodes := by simp [Context.addNode] }
  | nodeOperand => exact { he with nodes := by simp }
  | attachment => exact { he with }
  | reattachment => exact { he with }

end Change

/-- What every change preserves holds all the time. -/
theorem Evolves.preserves {P : Context → Prop} {ctx ctx' : Context} (h : Evolves ctx ctx')
    (step : ∀ {ctx ctx' : Context}, P ctx → Change ctx ctx' → P ctx') (hp : P ctx) : P ctx' := by
  induction h with
  | refl => exact hp
  | tail _ hc ih => exact step ih hc

theorem Evolves.keeps {ctx ctx' : Context} (h : Evolves ctx ctx') : ctx.Extends ctx' := by
  induction h with
  | refl => exact .refl ctx
  | tail _ hc ih => exact ih.trans hc.keeps

end StackAssembler.IR
