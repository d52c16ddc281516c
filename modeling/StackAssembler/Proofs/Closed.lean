import StackAssembler.Proofs.Request

/-! Contexts that only hold handles that they have given out themselves. Every edit with known handles leaves such a
context behind. -/
namespace StackAssembler.IR

/-! ### The handles in the tables of a context -/

/-- The types that an instruction names besides the type of its result. -/
def Operation.types : Operation → List Ty
  | .alloca t => [t]
  | _ => []

def ValueKind.handles : ValueKind → Handles
  | .constant _ => {}
  | .argument f _ | .function f => { functions := [f] }
  | .instruction op b =>
    { types := op.types, values := op.operands, blocks := b :: op.targets, functions := op.callee?.toList }

def Value.handles (v : Value) : Handles := { v.kind.handles with types := v.type :: v.kind.handles.types }

def Block.handles (b : Block) : Handles := { functions := b.function.toList, values := b.instructions.toList }

def Function.handles (f : Function) : Handles where
  types := f.type :: f.result :: f.params
  values := f.value :: f.args
  blocks := f.blocks.toList
  modules := [f.module]

def Module.handles (m : Module) : Handles := { functions := m.functions.toList }

def Attachment.handles (a : Attachment) : Handles := { values := [a.target], nodes := [a.node] }

/-- Every handle in a context refers to an entry of it. Widths of integers and pointers take 32 bits. -/
structure Context.Closed (ctx : Context) : Prop where
  pointers : ctx.layout.pointerBits < Nat.pow 2 32
  widths : ∀ t, ctx.HasType t → ∀ width ∈ t.width?, width < Nat.pow 2 32
  types : ∀ t, ctx.HasType t → ∀ c ∈ t.components, ctx.HasType c
  values : ∀ v ∈ ctx.values, ctx.Knows v.handles
  blocks : ∀ b ∈ ctx.blocks, ctx.Knows b.handles
  functions : ∀ f ∈ ctx.functions, ctx.Knows f.handles
  modules : ∀ m ∈ ctx.modules, ctx.Knows m.handles
  nodes : ∀ n ∈ ctx.nodes, ∀ o ∈ n, ctx.Knows o.handles
  attachments : ∀ a ∈ ctx.attachments, ctx.Knows a.handles

/-- The second context knows all handles that the first does. -/
def Context.Retains (ctx ctx' : Context) : Prop := ∀ hs : Handles, ctx.Knows hs → ctx'.Knows hs

namespace Context
variable {ctx ctx' ctx'' : Context}

namespace Retains

theorem refl (ctx : Context) : ctx.Retains ctx := fun _ h => h

theorem trans (h : ctx.Retains ctx') (k : ctx'.Retains ctx'') : ctx.Retains ctx'' := fun hs hk => k hs (h hs hk)

theorem hasType (h : ctx.Retains ctx') {t : Ty} (ht : ctx.HasType t) : ctx'.HasType t :=
  knows_type.mp (h _ (knows_type.mpr ht))

theorem hasValue (h : ctx.Retains ctx') {v : ValueId} (hv : ctx.HasValue v) : ctx'.HasValue v :=
  knows_value.mp (h _ (knows_value.mpr hv))

theorem hasBlock (h : ctx.Retains ctx') {b : BlockId} (hb : ctx.HasBlock b) : ctx'.HasBlock b :=
  knows_block.mp (h _ (knows_block.mpr hb))

theorem hasFunction (h : ctx.Retains ctx') {f : FunctionId} (hf : ctx.HasFunction f) : ctx'.HasFunction f :=
  knows_function.mp (h _ (knows_function.mpr hf))

theorem hasModule (h : ctx.Retains ctx') {m : ModuleId} (hm : ctx.HasModule m) : ctx'.HasModule m :=
  (h { modules := [m] } (by simpa [knows_iff] using hm)).modules m (.head _)

/-- Tables that only become longer retain their handles. -/
theorem of_sizes (ht : ∀ t, ctx.HasType t → ctx'.HasType t) (hv : ctx.values.size ≤ ctx'.values.size)
    (hb : ctx.blocks.size ≤ ctx'.blocks.size) (hf : ctx.functions.size ≤ ctx'.functions.size)
    (hm : ctx.modules.size ≤ ctx'.modules.size) (hn : ctx.nodes.size ≤ ctx'.nodes.size) : ctx.Retains ctx' :=
  fun _ h => ⟨fun t k => ht t (h.types t k), fun v k => Nat.lt_of_lt_of_le (h.values v k) hv,
    fun b k => Nat.lt_of_lt_of_le (h.blocks b k) hb, fun f k => Nat.lt_of_lt_of_le (h.functions f k) hf,
    fun m k => Nat.lt_of_lt_of_le (h.modules m k) hm, fun n k => Nat.lt_of_lt_of_le (h.nodes n k) hn⟩

end Retains

theorem mem_modify {α : Type} {xs : Array α} {i : Nat} {f : α → α} {x : α} (h : x ∈ xs.modify i f) :
    x ∈ xs ∨ ∃ y ∈ xs, x = f y := by
  obtain ⟨j, hj⟩ := Array.mem_iff_getElem?.mp h
  rw [Array.getElem?_modify] at hj
  split at hj
  · obtain ⟨y, hy, rfl⟩ := Option.map_eq_some_iff.mp hj
    exact Or.inr ⟨y, Array.mem_of_getElem? hy, rfl⟩
  · exact Or.inl (Array.mem_of_getElem? hj)

theorem mem_of_lt {α : Type} {xs : Array α} {i : Nat} (h : i < xs.size) (d : α) : xs.getD i d ∈ xs := by
  rw [Array.getD_eq_getD_getElem?, Array.getElem?_eq_getElem h]
  exact Array.getElem_mem h

namespace Closed

theorem empty : ({} : Context).Closed where
  pointers := by decide
  widths := nofun
  types := nofun
  values := nofun
  blocks := nofun
  functions := nofun
  modules := nofun
  nodes := nofun
  attachments := nofun

/-! ### Reading -/

theorem value (h : ctx.Closed) {v : ValueId} (hv : ctx.HasValue v) : ctx.Knows (ctx.value v).handles :=
  h.values _ (mem_of_lt hv _)

theorem hasType_typeOf (h : ctx.Closed) {v : ValueId} (hv : ctx.HasValue v) : ctx.HasType (ctx.typeOf v) :=
  (h.value hv).types _ (.head _)

theorem block (h : ctx.Closed) {b : BlockId} (hb : ctx.HasBlock b) : ctx.Knows (ctx.block b).handles :=
  h.blocks _ (mem_of_lt hb _)

theorem function (h : ctx.Closed) {f : FunctionId} (hf : ctx.HasFunction f) : ctx.Knows (ctx.function f).handles :=
  h.functions _ (mem_of_lt hf _)

theorem module (h : ctx.Closed) {m : ModuleId} (hm : ctx.HasModule m) : ctx.Knows (ctx.module m).handles :=
  h.modules _ (mem_of_lt hm _)

theorem node (h : ctx.Closed) {n : NodeId} (hn : ctx.HasNode n) : ∀ o ∈ ctx.node n, ctx.Knows o.handles :=
  h.nodes _ (mem_of_lt hn _)

/-- An instruction that stands somewhere only refers to what is there. -/
theorem operation (h : ctx.Closed) {v : ValueId} (hv : ctx.HasValue v) {op : Operation}
    (ho : (ctx.value v).operation? = some op) :
    ctx.Knows { types := op.types, values := op.operands, blocks := op.targets, functions := op.callee?.toList } := by
  have hk := h.value hv
  unfold Value.operation? at ho
  split at ho
  · next hkind =>
    cases ho
    unfold Value.handles at hk
    rw [hkind] at hk
    exact ⟨fun t ht => hk.types t (.tail _ ht), hk.values, fun b hb => hk.blocks b (.tail _ hb), hk.functions, hk.modules,
      hk.nodes⟩
  · cases ho

/-! ### Growing -/

/-- A context stays closed when all handles that it knew stay known, and the handles of new entries are known. -/
theorem grow (h : ctx.Closed) (hr : ctx.Retains ctx') (hl : ctx'.layout = ctx.layout)
    (ht : ∀ t, ctx'.HasType t →
      ctx.HasType t ∨ (∀ c ∈ t.components, ctx.HasType c) ∧ ∀ width ∈ t.width?, width < Nat.pow 2 32)
    (hv : ∀ v ∈ ctx'.values, v ∈ ctx.values ∨ ctx'.Knows v.handles)
    (hb : ∀ b ∈ ctx'.blocks, b ∈ ctx.blocks ∨ ctx'.Knows b.handles)
    (hf : ∀ f ∈ ctx'.functions, f ∈ ctx.functions ∨ ctx'.Knows f.handles)
    (hm : ∀ m ∈ ctx'.modules, m ∈ ctx.modules ∨ ctx'.Knows m.handles) (hn : ctx'.nodes = ctx.nodes)
    (ha : ctx'.attachments = ctx.attachments) : ctx'.Closed where
  pointers := hl ▸ h.pointers
  widths t k := (ht t k).elim (h.widths t) And.right
  types t k c hc := hr.hasType ((ht t k).elim (fun k => h.types t k c hc) fun k => k.1 c hc)
  values v k := (hv v k).elim (fun k => hr _ (h.values v k)) id
  blocks b k := (hb b k).elim (fun k => hr _ (h.blocks b k)) id
  functions f k := (hf f k).elim (fun k => hr _ (h.functions f k)) id
  modules m k := (hm m k).elim (fun k => hr _ (h.modules m k)) id
  nodes n k o ho := hr _ (h.nodes n (hn ▸ k) o ho)
  attachments a k := hr _ (h.attachments a (ha ▸ k))

end Closed

/-- What an edit makes of a context: all known handles stay known, and the new context is closed. -/
structure Becomes (ctx ctx' : Context) : Prop where
  closed : ctx'.Closed
  retains : ctx.Retains ctx'

namespace Closed

theorem intern (h : ctx.Closed) {t : Ty} (hc : ∀ c ∈ t.components, ctx.HasType c)
    (hw : ∀ width ∈ t.width?, width < Nat.pow 2 32) :
    ctx.Becomes (ctx.intern t) ∧ (ctx.intern t).HasType t := by
  unfold Context.intern
  split
  · next hin => exact ⟨⟨h, .refl ctx⟩, hin⟩
  · have hr : ctx.Retains { ctx with types := ctx.types.push t } :=
      .of_sizes (fun u hu => by simpa [HasType] using Or.inl hu) (Nat.le_refl _) (Nat.le_refl _) (Nat.le_refl _)
        (Nat.le_refl _) (Nat.le_refl _)
    refine ⟨⟨h.grow hr rfl (fun u hu => ?_) (fun _ k => Or.inl k) (fun _ k => Or.inl k) (fun _ k => Or.inl k)
      (fun _ k => Or.inl k) rfl rfl, hr⟩, by simp [HasType]⟩
    have hu' : ctx.HasType u ∨ u = t := by simpa [HasType] using hu
    rcases hu' with hu | rfl
    · exact Or.inl hu
    · exact Or.inr ⟨hc, hw⟩

theorem addValue (h : ctx.Closed) {v : Value} (hv : ctx.Knows v.handles) :
    ctx.Becomes (ctx.addValue v).2 ∧ (ctx.addValue v).2.HasValue (ctx.addValue v).1 := by
  have hr : ctx.Retains (ctx.addValue v).2 :=
    .of_sizes (fun _ ht => ht) (by simp [Context.addValue]) (Nat.le_refl _) (Nat.le_refl _) (Nat.le_refl _) (Nat.le_refl _)
  refine ⟨⟨h.grow hr rfl (fun _ k => Or.inl k) (fun w hw => ?_) (fun _ k => Or.inl k) (fun _ k => Or.inl k)
    (fun _ k => Or.inl k) rfl rfl, hr⟩, by simp [HasValue, Context.addValue]⟩
  rcases Array.mem_push.mp hw with hw | rfl
  · exact Or.inl hw
  · exact Or.inr (hr _ hv)

theorem constant (h : ctx.Closed) {t : Ty} (ht : ctx.HasType t) (c : Constant) :
    ctx.Becomes (ctx.constant t c).2 ∧ (ctx.constant t c).2.HasValue (ctx.constant t c).1 := by
  unfold Context.constant
  cases hf : ctx.values.toList.findIdx? (isConstant t c) with
  | some i =>
    obtain ⟨hi, _⟩ := List.findIdx?_eq_some_iff_getElem.mp hf
    exact ⟨⟨h, .refl ctx⟩, by simpa [HasValue] using hi⟩
  | none => exact h.addValue (v := ⟨t, none, .constant c⟩) (knows_type.mpr ht)

theorem addModule (h : ctx.Closed) (name : String) :
    ctx.Becomes (ctx.addModule name).2 ∧ (ctx.addModule name).2.HasModule (ctx.addModule name).1 := by
  have hr : ctx.Retains (ctx.addModule name).2 :=
    .of_sizes (fun _ ht => ht) (Nat.le_refl _) (Nat.le_refl _) (Nat.le_refl _) (by simp [Context.addModule]) (Nat.le_refl _)
  refine ⟨⟨h.grow hr rfl (fun _ k => Or.inl k) (fun _ k => Or.inl k) (fun _ k => Or.inl k) (fun _ k => Or.inl k)
    (fun m hm => ?_) rfl rfl, hr⟩, by simp [HasModule, Context.addModule]⟩
  rcases Array.mem_push.mp hm with hm | rfl
  · exact Or.inl hm
  · exact Or.inr knows_nothing

theorem addBlock (h : ctx.Closed) (name : Option String) :
    ctx.Becomes (ctx.addBlock name).2 ∧ (ctx.addBlock name).2.HasBlock (ctx.addBlock name).1 := by
  have hr : ctx.Retains (ctx.addBlock name).2 :=
    .of_sizes (fun _ ht => ht) (Nat.le_refl _) (by simp [Context.addBlock]) (Nat.le_refl _) (Nat.le_refl _) (Nat.le_refl _)
  refine ⟨⟨h.grow hr rfl (fun _ k => Or.inl k) (fun _ k => Or.inl k) (fun b hb => ?_) (fun _ k => Or.inl k)
    (fun _ k => Or.inl k) rfl rfl, hr⟩, by simp [HasBlock, Context.addBlock]⟩
  rcases Array.mem_push.mp hb with hb | rfl
  · exact Or.inl hb
  · exact Or.inr knows_nothing

theorem addInstruction (h : ctx.Closed) {b : BlockId} {op : Operation} {t : Ty} (name : Option String)
    (hk : ctx.Knows (Value.handles ⟨t, name, .instruction op b⟩)) :
    ctx.Becomes (ctx.addInstruction b op t name).2 ∧
      (ctx.addInstruction b op t name).2.HasValue (ctx.addInstruction b op t name).1 := by
  obtain ⟨⟨hclosed, hretains⟩, hnew⟩ := h.addValue hk
  refine ⟨?_, hnew⟩
  have hr : (ctx.addValue ⟨t, name, .instruction op b⟩).2.Retains (ctx.addInstruction b op t name).2 :=
    .of_sizes (fun _ ht => ht) (Nat.le_refl _) (by simp [Context.addInstruction]) (Nat.le_refl _) (Nat.le_refl _)
      (Nat.le_refl _)
  refine ⟨hclosed.grow hr rfl (fun _ k => Or.inl k) (fun _ k => Or.inl k) (fun c hc => ?_) (fun _ k => Or.inl k)
    (fun _ k => Or.inl k) rfl rfl, hretains.trans hr⟩
  rcases mem_modify (f := fun c : Block => { c with instructions := c.instructions.push ⟨ctx.values.size⟩ }) hc with
    hc | ⟨d, hd, rfl⟩
  · exact Or.inl hc
  obtain ⟨_, hvalues, _, hfunctions, _⟩ := hr _ (hclosed.blocks d hd)
  refine Or.inr ⟨List.forall_mem_nil _, fun v hv => ?_, List.forall_mem_nil _, hfunctions, List.forall_mem_nil _,
    List.forall_mem_nil _⟩
  rcases Array.mem_push.mp (Array.mem_toList_iff.mp hv) with hv | rfl
  · exact hvalues v (Array.mem_toList_iff.mpr hv)
  · exact hr.hasValue hnew

theorem adopt (h : ctx.Closed) {f : FunctionId} {b : BlockId} (hf : ctx.HasFunction f) (hb : ctx.HasBlock b) :
    ctx.Becomes (ctx.adopt f b) := by
  have hr : ctx.Retains (ctx.adopt f b) :=
    .of_sizes (fun _ ht => ht) (Nat.le_refl _) (by simp [Context.adopt]) (by simp [Context.adopt]) (Nat.le_refl _)
      (Nat.le_refl _)
  refine ⟨h.grow hr rfl (fun _ k => Or.inl k) (fun _ k => Or.inl k) (fun c hc => ?_) (fun g hg => ?_)
    (fun _ k => Or.inl k) rfl rfl, hr⟩
  · rcases mem_modify (f := fun c : Block => { c with function := some f }) hc with hc | ⟨d, hd, rfl⟩
    · exact Or.inl hc
    have hk := hr _ (h.blocks d hd)
    exact Or.inr ⟨List.forall_mem_nil _, hk.values, List.forall_mem_nil _,
      List.forall_mem_singleton.mpr (hr.hasFunction hf), List.forall_mem_nil _, List.forall_mem_nil _⟩
  · rcases mem_modify (f := fun g : Function => { g with blocks := g.blocks.push b }) hg with hg | ⟨d, hd, rfl⟩
    · exact Or.inl hg
    obtain ⟨htypes, hvalues, hblocks, _, hmodules, _⟩ := hr _ (h.functions d hd)
    refine Or.inr ⟨htypes, hvalues, fun c hc => ?_, List.forall_mem_nil _, hmodules, List.forall_mem_nil _⟩
    rcases Array.mem_push.mp (Array.mem_toList_iff.mp hc) with hc | rfl
    · exact hblocks c (Array.mem_toList_iff.mpr hc)
    · exact hr.hasBlock hb

theorem declare (h : ctx.Closed) {m : ModuleId} (name : String) {result : Ty} {params : List Ty} {variadic : Bool}
    (linkage : Linkage) (hm : ctx.HasModule m) (ht : ctx.HasType (.function result params variadic))
    (hp : ctx.HasType (.pointer (.function result params variadic) 0)) :
    ctx.Becomes (ctx.declare m name result params variadic linkage) ∧
      (ctx.declare m name result params variadic linkage).HasFunction ⟨ctx.functions.size⟩ := by
  have hr : ctx.Retains (ctx.declare m name result params variadic linkage) :=
    .of_sizes (fun _ ht => ht) (by simp [Context.declare]) (Nat.le_refl _) (by simp [Context.declare])
      (by simp [Context.declare]) (Nat.le_refl _)
  have hnew : (ctx.declare m name result params variadic linkage).HasFunction ⟨ctx.functions.size⟩ := by
    simp [HasFunction, Context.declare]
  refine ⟨⟨h.grow hr rfl (fun _ k => Or.inl k) (fun v hv => ?_) (fun _ k => Or.inl k) (fun f hf => ?_) (fun n hn => ?_)
    rfl rfl, hr⟩, hnew⟩
  · rcases Array.mem_append.mp hv with hv | hv
    · rcases Array.mem_push.mp hv with hv | rfl
      · exact Or.inl hv
      exact Or.inr ⟨List.forall_mem_singleton.mpr (hr.hasType hp), List.forall_mem_nil _, List.forall_mem_nil _,
        List.forall_mem_singleton.mpr hnew, List.forall_mem_nil _, List.forall_mem_nil _⟩
    · refine Or.inr ?_
      obtain ⟨p, hin, rfl⟩ := List.mem_map.mp (List.mem_toArray.mp hv)
      have hparam : p.1 ∈ params := List.fst_mem_of_mem_zipIdx hin
      have htype := hr.hasType (h.types _ ht p.1 (.tail _ hparam))
      exact ⟨List.forall_mem_singleton.mpr htype, List.forall_mem_nil _, List.forall_mem_nil _,
        List.forall_mem_singleton.mpr hnew, List.forall_mem_nil _, List.forall_mem_nil _⟩
  · rcases Array.mem_push.mp hf with hf | rfl
    · exact Or.inl hf
    refine Or.inr ⟨List.forall_mem_cons.mpr ⟨hr.hasType ht, fun c hc => hr.hasType (h.types _ ht c hc)⟩,
      fun v hv => ?_, List.forall_mem_nil _, List.forall_mem_nil _, List.forall_mem_singleton.mpr (hr.hasModule hm),
      List.forall_mem_nil _⟩
    have hlen : (ctx.declare m name result params variadic linkage).values.size =
        ctx.values.size + 1 + params.length := by
      simp [Context.declare, argumentValues]
      omega
    rw [HasValue, hlen]
    rcases List.mem_cons.mp hv with rfl | hv
    · dsimp only
      omega
    · obtain ⟨i, hi, rfl⟩ := List.mem_map.mp hv
      have := (List.mem_range'_1.mp hi).2
      dsimp only
      omega
  · rcases mem_modify (f := fun n : Module => { n with functions := n.functions.push ⟨ctx.functions.size⟩ }) hn with
      hn | ⟨d, hd, rfl⟩
    · exact Or.inl hn
    have hk := hr _ (h.modules d hd)
    refine Or.inr ⟨List.forall_mem_nil _, List.forall_mem_nil _, List.forall_mem_nil _, fun f hf => ?_,
      List.forall_mem_nil _, List.forall_mem_nil _⟩
    rcases Array.mem_push.mp (Array.mem_toList_iff.mp hf) with hf | rfl
    · exact hk.functions f (Array.mem_toList_iff.mpr hf)
    · exact hnew

end Closed

namespace Becomes

theorem refl (h : ctx.Closed) : ctx.Becomes ctx := ⟨h, .refl ctx⟩

theorem trans (h : ctx.Becomes ctx') (k : ctx'.Becomes ctx'') : ctx.Becomes ctx'' := ⟨k.closed, h.retains.trans k.retains⟩

end Becomes
end Context
end StackAssembler.IR
