import StackAssembler.Proofs.Emission
import StackAssembler.Proofs.Ownership

/-! What a context offers to its clients. Every request, and every call of the emitter, comes down to single
changes, whether or not it is refused. -/
namespace StackAssembler.IR

/-- The operations that a context offers. -/
inductive Request where
  | intern (t : Ty)
  | integer (width : Nat) (n : Int)
  | integerOf (t : Ty) (n : Int)
  | floatOf (t : Ty) (bits : UInt64)
  | nullOf (t : Ty)
  | undef (t : Ty)
  | rename (v : ValueId) (name : String)
  | addModule (name : String)
  | addFunction (m : ModuleId) (name : String) (type : Ty) (linkage : Linkage)
  | addBlock (name : Option String)
  | appendBlock (f : FunctionId) (name : Option String)
  | attachBlock (f : FunctionId) (b : BlockId)
  | addNode (operands : Node)
  | replaceNodeOperand (n : NodeId) (index : Nat) (operand : NodeOperand)
  | attach (v : ValueId) (kind : String) (n : NodeId)

namespace Request

/-- The context after a request. -/
def run (ctx : Context) : Request → Context
  | intern t => ctx.intern t
  | integer width n => (ctx.integer width n).2
  | integerOf t n => after (Edit.integerOf t n) ctx
  | floatOf t bits => after (Edit.floatOf t bits) ctx
  | nullOf t => after (Edit.nullOf t) ctx
  | undef t => (ctx.undef t).2
  | rename v name => ctx.rename v name
  | addModule name => (ctx.addModule name).2
  | addFunction m name type linkage => after (Edit.addFunction m name type linkage) ctx
  | addBlock name => (ctx.addBlock name).2
  | appendBlock f name => (ctx.appendBlock f name).2
  | attachBlock f b => after (Edit.attachBlock f b) ctx
  | addNode operands => (ctx.addNode operands).2
  | replaceNodeOperand n index operand => after (Edit.replaceNodeOperand n index operand) ctx
  | attach v kind n => after (Edit.attach v kind n) ctx

def handles : Request → Handles
  | intern t => { types := t.components }
  | integerOf t _ | floatOf t _ | nullOf t | undef t => { types := [t] }
  | rename v _ => { values := [v] }
  | addFunction m _ type _ => { types := [type], modules := [m] }
  | appendBlock f _ => { functions := [f] }
  | attachBlock f b => { blocks := [b], functions := [f] }
  | addNode operands =>
    { values := operands.flatMap (·.handles.values), nodes := operands.flatMap (·.handles.nodes) }
  | replaceNodeOperand n _ operand => { operand.handles with nodes := n :: operand.handles.nodes }
  | attach v _ n => { values := [v], nodes := [n] }
  | integer .. | addModule _ | addBlock _ => {}

end Request

namespace Evolves
variable {ctx ctx' ctx'' : Context}

theorem refl (ctx : Context) : Evolves ctx ctx := Relation.ReflTransGen.refl

theorem single (h : Change ctx ctx') : Evolves ctx ctx' := Relation.ReflTransGen.single h

theorem trans (h : Evolves ctx ctx') (k : Evolves ctx' ctx'') : Evolves ctx ctx'' := Relation.ReflTransGen.trans h k

theorem intern {t : Ty} (ht : ∀ c ∈ t.components, ctx.HasType c) : Evolves ctx (ctx.intern t) := by
  unfold Context.intern
  split
  · exact refl ctx
  · next hn => exact single (.type hn ht)

theorem internAll {ts : List Ty} (hts : ∀ t ∈ ts, ∀ c ∈ t.components, ctx.HasType c) :
    Evolves ctx (ctx.internAll ts) := by
  induction ts generalizing ctx with
  | nil => exact refl ctx
  | cons t ts ih =>
    obtain ⟨ht, hts⟩ := List.forall_mem_cons.mp hts
    have h : Evolves ctx (ctx.intern t) := intern ht
    exact h.trans (ih fun u hu c hc => h.keeps.hasType (hts u hu c hc))

/-- A constant is found or made. -/
theorem constant {t : Ty} {c : Constant} (hc : c.Fits t) :
    Evolves ctx (ctx.constant t c).2 ∧ (ctx.constant t c).2.HasValue (ctx.constant t c).1 := by
  unfold Context.constant
  cases hf : ctx.values.toList.findIdx? (Context.isConstant t c) with
  | some i =>
    obtain ⟨hi, _⟩ := List.findIdx?_eq_some_iff_getElem.mp hf
    exact ⟨refl ctx, by simpa [Context.HasValue] using hi⟩
  | none =>
    refine ⟨single (.constant hc fun v hv => ?_), by simp [Context.HasValue, Context.addValue]⟩
    exact Bool.eq_false_iff.mp (List.findIdx?_eq_none_iff.mp hf v (Array.mem_toList_iff.mpr hv))

end Evolves

/-- The content of an integer constant fits the width. -/
theorem Constant.fits_truncate (width : Nat) (n : Int) :
    (Constant.int (Word.truncate width n)).Fits (.int width) := by
  refine ⟨width, rfl, ?_⟩
  have hpos : (0 : Int) < Nat.pow 2 (min width Word.capacity) := Int.natCast_pos.mpr (Nat.two_pow_pos _)
  rw [Word.truncate, Int.toNat_lt (Int.emod_nonneg _ (Int.ne_of_gt hpos))]
  exact Int.emod_lt_of_pos _ hpos

namespace Edit

theorem addFunction_run (m : ModuleId) (name : String) (type : Ty) (linkage : Linkage) (ctx : Context) :
    (∃ result params variadic, type = .function result params variadic ∧ ctx.findFunction? m name = none ∧
      addFunction m name type linkage ctx = .ok ⟨ctx.functions.size⟩
        ((ctx.intern (.pointer type 0)).declare m name result params variadic linkage)) ∨
      ∃ err, addFunction m name type linkage ctx = .error err ctx := by
  unfold addFunction
  cases type with
  | function result params variadic =>
    cases hn : ctx.findFunction? m name with
    | some f => exact Or.inr ⟨_, rfl⟩
    | none =>
      refine Or.inl ⟨result, params, variadic, rfl, rfl, ?_⟩
      have hsize : (ctx.intern (.pointer (.function result params variadic) 0)).functions.size =
          ctx.functions.size := by
        unfold Context.intern
        split <;> rfl
      simp [Context.addArguments_eq, Context.addValue, Context.declare, hsize]
  | _ => exact Or.inr ⟨_, rfl⟩

end Edit

/-! ### Edits that come down to changes -/

/-- What an edit of a context comes to is reached by changes alone, and it answers with known handles. -/
def Reaches {α : Type} (ctx : Context) (answer : α → Handles) (r : EStateM.Result IrError Context α) : Prop :=
  Ends r (fun a ctx' => Evolves ctx ctx' ∧ ctx'.Knows (answer a)) (Evolves ctx)

namespace Reaches
variable {α β : Type} {ctx : Context} {answer : α → Handles} {answer' : β → Handles}

theorem bind {x : Edit α} {f : α → Edit β} (h : Reaches ctx answer (x ctx))
    (k : ∀ a ctx', Evolves ctx ctx' → ctx'.Knows (answer a) → Reaches ctx' answer' (f a ctx')) :
    Reaches ctx answer' ((x >>= f) ctx) := by
  refine Ends.bind h (fun a ctx' ⟨he, ha⟩ => ?_) fun _ he => he
  exact (k a ctx' he ha).mono (fun _ _ ⟨h, hk⟩ => ⟨he.trans h, hk⟩) fun _ h => he.trans h

theorem pure {a : α} (h : ctx.Knows (answer a)) : Reaches ctx answer ((Pure.pure a : Edit α) ctx) :=
  ⟨.refl ctx, h⟩

theorem intern {t : Ty} (ht : ∀ c ∈ t.components, ctx.HasType c) :
    Reaches ctx (fun _ => { types := [t] }) (Edit.intern t ctx) := by
  refine ⟨.intern ht, Context.knows_type.mpr ?_⟩
  unfold Context.intern Context.HasType
  split
  · assumption
  · simp

/-- A call of the emitter whose types are made of known ones answers with a known value. -/
theorem run {at? : Option BlockId} {e : Emission} (hat : ∀ b ∈ at?, ctx.HasBlock b)
    (hk : ctx.Knows { e.handles with types := [] }) (ht : ∀ t ∈ e.types, ∀ c ∈ t.components, ctx.HasType c) :
    Reaches ctx (fun v => { values := [v] }) (e.run at? ctx) := by
  have types {ts : List Ty} (hts : ∀ t ∈ ts, t ∈ e.types) : Evolves ctx (ctx.internAll ts) :=
    .internAll fun t h => ht t (hts t h)
  have outcome := e.run_outcome at? ctx
  generalize e.run at? ctx = r at outcome ⊢
  cases outcome with
  | refused ts hts => exact types hts
  | @written b op t name ts hb ho hts hop hw =>
    have he := types hts
    have hw : WellTyped (ctx.internAll ts) b op t := by
      rw [Context.internAll_eq]
      exact hw.retype _
    rw [← Context.terminator?_internAll ctx ts] at ho
    have hsize : ctx.values.size = (ctx.internAll ts).values.size := by rw [Context.internAll_eq]
    refine ⟨he.trans (.single (.instruction (he.keeps.hasBlock (hat b hb)) ho (he.keeps.knows (hop ▸ hk)) hw)), ?_⟩
    exact Context.knows_value.mpr (by simp [Context.HasValue, Context.addInstruction, Context.addValue, hsize])
  | operand _ hv => exact ⟨.refl ctx, Context.knows_value.mpr (hk.values _ hv)⟩
  | @folded width n ts _ hts =>
    have hc : Evolves (ctx.internAll ts) _ ∧ _ := Evolves.constant (Constant.fits_truncate width n)
    exact ⟨(types hts).trans hc.1, Context.knows_value.mpr hc.2⟩

theorem emission {at? : Option BlockId} {e : Emission} (hat : ∀ b ∈ at?, ctx.HasBlock b)
    (hk : ctx.Knows e.handles) : Reaches ctx (fun v => { values := [v] }) (e.run at? ctx) :=
  run hat { hk with types := by simp } fun _ ht _ hc => Emission.types_known hk ht hc

/-- A declared function is known. The pointer type of its value may be new. -/
theorem addFunction {m : ModuleId} {name : String} {type : Ty} {linkage : Linkage} (hm : ctx.HasModule m)
    (ht : ctx.HasType type) : Reaches ctx (fun f => { functions := [f] }) (Edit.addFunction m name type linkage ctx) := by
  rcases Edit.addFunction_run m name type linkage ctx with ⟨result, params, variadic, rfl, hn, h⟩ | ⟨err, h⟩
  · rw [h]
    have he : Evolves ctx (ctx.intern (.pointer (.function result params variadic) 0)) :=
      .intern (by simpa [Ty.components] using ht)
    have hfind : (ctx.intern (.pointer (.function result params variadic) 0)).findFunction? m name = none := by
      unfold Context.intern
      split <;> exact hn
    have hsize : (ctx.intern (.pointer (.function result params variadic) 0)).functions.size =
        ctx.functions.size := by
      unfold Context.intern
      split <;> rfl
    refine ⟨he.trans (.single (.function (he.keeps.hasModule hm) hfind)), Context.knows_function.mpr ?_⟩
    simp [Context.HasFunction, Context.declare, hsize]
  · rw [h]
    exact .refl ctx

theorem attachBlock {f : FunctionId} {b : BlockId} (hf : ctx.HasFunction f) (hb : ctx.HasBlock b) :
    Reaches ctx (fun _ => {}) (Edit.attachBlock f b ctx) := by
  unfold Edit.attachBlock
  cases hd : (ctx.block b).function with
  | some g => exact .refl ctx
  | none => exact ⟨.single (.adoption hf hb hd), Context.knows_nothing⟩

end Reaches

namespace Evolves
variable {ctx : Context}

theorem appendBlock {f : FunctionId} {name : Option String} (hf : ctx.HasFunction f) :
    Evolves ctx (ctx.appendBlock f name).2 := by
  have hb : (ctx.addBlock name).2.HasBlock (ctx.addBlock name).1 := by simp [Context.HasBlock, Context.addBlock]
  have hd : ((ctx.addBlock name).2.block (ctx.addBlock name).1).function = none := by
    rw [Context.block_addBlock, if_pos (by rfl)]
  exact (single .block).trans (single (.adoption hf hb hd))

theorem attach {v : ValueId} {kind : String} {n : NodeId} (hv : ctx.HasValue v) (hn : ctx.HasNode n) :
    Evolves ctx (after (Edit.attach v kind n) ctx) := by
  unfold after Edit.attach
  cases (ctx.value v).kind with
  | constant | argument => exact refl ctx
  | function | instruction =>
    cases hf : ctx.attachments.toList.findIdx? fun a => a.target = v ∧ a.kind = kind with
    | some i => exact single (.reattachment hn)
    | none =>
      refine single (.attachment hv hn fun a ha => ?_)
      simpa using List.findIdx?_eq_none_iff.mp hf a (Array.mem_toList_iff.mpr ha)

theorem replaceNodeOperand {n : NodeId} {index : Nat} {operand : NodeOperand} (ho : ctx.Knows operand.handles) :
    Evolves ctx (after (Edit.replaceNodeOperand n index operand) ctx) := by
  unfold after Edit.replaceNodeOperand
  by_cases hi : index < (ctx.node n).length
  · simp only [if_pos hi]
    exact single (.nodeOperand ho)
  · simp only [if_neg hi]
    exact refl ctx

end Evolves

/-- A request made with known handles comes down to changes. -/
theorem Request.evolves {r : Request} {ctx : Context} (h : ctx.Knows r.handles) : Evolves ctx (r.run ctx) := by
  cases r with
  | intern t => exact .intern h.types
  | integer width n =>
    have he : Evolves ctx (ctx.intern (.int width)) := .intern (by simp [Ty.components])
    exact he.trans (Evolves.constant (Constant.fits_truncate width n)).1
  | integerOf t n =>
    cases t with
    | int width => exact (Evolves.constant (Constant.fits_truncate width n)).1
    | _ => exact .refl ctx
  | floatOf t bits =>
    cases t with
    | float format => exact (Evolves.constant (by rfl)).1
    | _ => exact .refl ctx
  | nullOf t =>
    cases t with
    | pointer t space => exact (Evolves.constant (by rfl)).1
    | _ => exact .refl ctx
  | undef t => exact (Evolves.constant (by trivial)).1
  | rename v name => exact .single .name
  | addModule name => exact .single .module
  | addFunction m name type linkage =>
    have hr : Reaches ctx _ (Edit.addFunction m name type linkage ctx) :=
      .addFunction (h.modules m (by simp [handles])) (h.types type (by simp [handles]))
    exact (hr.mono (fun _ _ h => h.1) fun _ h => h).after
  | addBlock name => exact .single .block
  | appendBlock f name => exact .appendBlock (h.functions f (by simp [handles]))
  | attachBlock f b =>
    have hr := Reaches.attachBlock (h.functions f (by simp [handles])) (h.blocks b (by simp [handles]))
    exact (hr.mono (fun _ _ h => h.1) fun _ h => h).after
  | addNode operands =>
    refine .single (.node fun o ho => Context.knows_iff.mpr ?_)
    cases o with
    | string s => simp [NodeOperand.handles]
    | node n =>
      have hn := h.nodes n (List.mem_flatMap.mpr ⟨_, ho, by simp [NodeOperand.handles]⟩)
      simpa [NodeOperand.handles] using hn
    | value v =>
      have hv := h.values v (List.mem_flatMap.mpr ⟨_, ho, by simp [NodeOperand.handles]⟩)
      simpa [NodeOperand.handles] using hv
  | replaceNodeOperand n index operand =>
    exact .replaceNodeOperand { h with nodes := fun m hm => h.nodes m (List.mem_cons_of_mem _ hm) }
  | attach v kind n => exact .attach (h.values v (by simp [handles])) (h.nodes n (by simp [handles]))

end StackAssembler.IR
