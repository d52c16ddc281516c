import Mathlib.Data.List.Basic
import StackAssembler.IR.Printer
import StackAssembler.Proofs.Placement

/-! When values stand in other places, the text of a module stays the same. Of what was there before, all stays in
place; of the rest, the text shows no position. -/
namespace StackAssembler.IR

/-- The same operation on other values. -/
def Operation.map (ρ : ValueId → ValueId) : Operation → Operation
  | alloca t => alloca t
  | load p => load (ρ p)
  | store v p => store (ρ v) (ρ p)
  | binary op l r => binary op (ρ l) (ρ r)
  | icmp p l r => icmp p (ρ l) (ρ r)
  | fcmp p l r => fcmp p (ρ l) (ρ r)
  | cast op v => cast op (ρ v)
  | phi incoming => phi (incoming.map fun edge => (ρ edge.1, edge.2))
  | br d => br d
  | condBr c t f => condBr (ρ c) t f
  | call f args => call f (args.map ρ)
  | ret v => ret (v.map ρ)

theorem Operation.map_congr {ρ σ : ValueId → ValueId} {op : Operation} (h : ∀ v ∈ op.operands, ρ v = σ v) :
    op.map ρ = op.map σ := by
  cases op with
  | alloca | br => rfl
  | load p => rw [map, map, h p (.head _)]
  | store v p => rw [map, map, h v (.head _), h p (.tail _ (.head _))]
  | binary _ l r | icmp _ l r | fcmp _ l r => rw [map, map, h l (.head _), h r (.tail _ (.head _))]
  | cast _ v => rw [map, map, h v (.head _)]
  | phi incoming =>
    have hi : ∀ edge ∈ incoming, (ρ edge.1, edge.2) = (σ edge.1, edge.2) := fun edge he => by
      rw [h edge.1 (List.mem_map_of_mem he)]
    rw [map, map, List.map_congr_left hi]
  | condBr c _ _ => rw [map, map, h c (.head _)]
  | call f args =>
    have ha : args.map ρ = args.map σ := List.map_congr_left h
    rw [map, map, ha]
  | ret v =>
    cases v with
    | none => rfl
    | some v => rw [map, map, Option.map_some, Option.map_some, h v (.head _)]

theorem Operation.map_id (op : Operation) : op.map id = op := by
  cases op <;> simp [map]

/-- The same value with other operands, if it is an instruction. -/
def Value.map (ρ : ValueId → ValueId) (v : Value) : Value :=
  { v with kind := match v.kind with
    | .instruction op b => .instruction (op.map ρ) b
    | kind => kind }

def Site.map (ρ : ValueId → ValueId) : Site → Site
  | value v => value (ρ v)
  | block b => block b

theorem Site.map_injective {ρ : ValueId → ValueId} (h : Function.Injective ρ) : Function.Injective (Site.map ρ) := by
  intro s t hst
  cases s <;> cases t <;> simp_all [Site.map, h.eq_iff]

namespace Spelling

/-- The sites that a spelling is for, moved. -/
def move (ρ : ValueId → ValueId) (s : Spelling) : Spelling := s.map (Prod.map (Site.map ρ) id)

theorem lookup_move {ρ : ValueId → ValueId} (h : Function.Injective ρ) (s : Spelling) (site : Site) :
    (s.move ρ).lookup (site.map ρ) = s.lookup site := by
  induction s with
  | nil => rfl
  | cons entry s ih =>
    obtain ⟨first, text⟩ := entry
    have hs : (site.map ρ == first.map ρ) = (site == first) := by
      rw [Bool.eq_iff_iff, beq_iff_eq, beq_iff_eq, (Site.map_injective h).eq_iff]
    change List.lookup (site.map ρ) ((first.map ρ, text) :: move ρ s) = List.lookup site ((first, text) :: s)
    rw [List.lookup_cons, List.lookup_cons, hs, ih]

theorem assign_move (ρ : ValueId → ValueId) (next : Nat) (sites : List (Site × Option String)) :
    assign next (sites.map (Prod.map (Site.map ρ) id)) = (assign next sites).move ρ := by
  induction sites generalizing next with
  | nil => rfl
  | cons site sites ih =>
    obtain ⟨site, name⟩ := site
    cases name <;> simp only [assign, List.map_cons, Prod.map_apply, id_eq, ih] <;> rfl

theorem map_fst_assign (next : Nat) (sites : List (Site × Option String)) :
    (assign next sites).map Prod.fst = sites.map Prod.fst := by
  induction sites generalizing next with
  | nil => rfl
  | cons site sites ih =>
    obtain ⟨site, name⟩ := site
    cases name <;> simp [assign, ih]

end Spelling

/-- All that a context refers to besides its instructions is among the values before a position. -/
structure Grounded (n : Nat) (ctx : Context) : Prop where
  functions : ∀ m, ∀ f ∈ (ctx.module m).functions,
    (ctx.function f).value.index < n ∧ ∀ v ∈ (ctx.function f).args, v.index < n
  attachments : ∀ a ∈ ctx.attachments, a.target.index < n
  nodes : ∀ k v, .value v ∈ ctx.node k → v.index < n

/-- The second context has the instructions of the first in other places. The values before a position stay where
they are. -/
structure Relocation (ρ : ValueId → ValueId) (n : Nat) (c d : Context) : Prop where
  injective : Function.Injective ρ
  fixed : ∀ v, v.index < n → ρ v = v
  old : ∀ v, v.index < n → d.value v = c.value v
  functions : d.functions = c.functions
  modules : d.modules = c.modules
  nodes : d.nodes = c.nodes
  attachments : d.attachments = c.attachments
  names : ∀ b, (d.block b).name = (c.block b).name
  lists : ∀ b, (d.block b).instructions.toList = (c.block b).instructions.toList.map ρ
  listed : ∀ b, ∀ v ∈ (c.block b).instructions, d.value (ρ v) = (c.value v).map ρ
  /-- The operands of an instruction are old, or they are results in its block. -/
  closed : ∀ b, ∀ v ∈ (c.block b).instructions, ∃ op e, (c.value v).kind = .instruction op e ∧ ∀ u ∈ op.operands,
    u.index < n ∨ u ∈ (c.block b).instructions ∧ (c.typeOf u).isVoid = false

namespace Relocation
variable {ρ : ValueId → ValueId} {n : Nat} {c d : Context}

/-- A value that the text of a spelling can name without its position. -/
def Legible (n : Nat) (c : Context) (s : Spelling) (v : ValueId) : Prop :=
  v.index < n ∨ (∃ b, v ∈ (c.block b).instructions) ∧ (s.lookup (.value v)).isSome

/-! ### Operands -/

theorem function (h : Relocation ρ n c d) : d.function = c.function := by
  funext f
  rw [Context.function, h.functions, Context.function]

theorem module (h : Relocation ρ n c d) : d.module = c.module := by
  funext m
  rw [Context.module, h.modules, Context.module]

theorem typeOf_listed (h : Relocation ρ n c d) {b : BlockId} {v : ValueId} (hv : v ∈ (c.block b).instructions) :
    d.typeOf (ρ v) = c.typeOf v := by
  rw [Context.typeOf, h.listed b v hv]
  rfl

theorem nameText (h : Relocation ρ n c d) {s : Spelling} {v : ValueId} (hv : Legible n c s v) :
    d.nameText (s.move ρ) (ρ v) = c.nameText s v := by
  have hs : (s.move ρ).lookup (.value (ρ v)) = s.lookup (.value v) := s.lookup_move h.injective (.value v)
  unfold Context.nameText
  rcases hv with hv | ⟨⟨b, hb⟩, ht⟩
  · rw [h.fixed v hv] at hs ⊢
    rw [h.old v hv, hs, h.function]
  · obtain ⟨op, e, hk, _⟩ := h.closed b v hb
    obtain ⟨text, ht⟩ := Option.isSome_iff_exists.mp ht
    simp only [h.listed b v hb, Value.map, hk, hs, ht]

theorem operandText (h : Relocation ρ n c d) {s : Spelling} {v : ValueId} (hv : Legible n c s v) :
    d.operandText (s.move ρ) (ρ v) = c.operandText s v := by
  have ht : d.typeOf (ρ v) = c.typeOf v := by
    rcases hv with hv | ⟨⟨b, hb⟩, _⟩
    · rw [h.fixed v hv, Context.typeOf, h.old v hv, Context.typeOf]
    · exact h.typeOf_listed hb
  rw [Context.operandText, Context.operandText, ht, h.nameText hv]

theorem operandText_old (h : Relocation ρ n c d) (s : Spelling) {v : ValueId} (hv : v.index < n) :
    d.operandText (s.move ρ) v = c.operandText s v := by
  have hm : d.operandText (s.move ρ) (ρ v) = c.operandText s v := h.operandText (Or.inl hv)
  rwa [h.fixed v hv] at hm

theorem labelText (h : Relocation ρ n c d) (s : Spelling) (b : BlockId) :
    d.labelText (s.move ρ) b = c.labelText s b := by
  have hs : (s.move ρ).lookup (.block b) = s.lookup (.block b) := s.lookup_move h.injective (.block b)
  rw [Context.labelText, Context.labelText, hs, Context.blockLabel, Context.blockLabel, h.names]

theorem operationText (h : Relocation ρ n c d) {s : Spelling} {op : Operation}
    (hop : ∀ v ∈ op.operands, Legible n c s v) (t : Ty) :
    d.operationText (s.move ρ) t (op.map ρ) = c.operationText s t op := by
  have name : ∀ v ∈ op.operands, d.nameText (s.move ρ) (ρ v) = c.nameText s v := fun v hv => h.nameText (hop v hv)
  have operand : ∀ v ∈ op.operands, d.operandText (s.move ρ) (ρ v) = c.operandText s v := fun v hv =>
    h.operandText (hop v hv)
  cases op with
  | alloca => rfl
  | br b => rw [Operation.map, Context.operationText, Context.operationText, h.labelText]
  | load p => simp only [Operation.map, Context.operationText, operand p (.head _)]
  | store v p => simp only [Operation.map, Context.operationText, operand v (.head _), operand p (.tail _ (.head _))]
  | binary _ l r | icmp _ l r | fcmp _ l r =>
    simp only [Operation.map, Context.operationText, operand l (.head _), name r (.tail _ (.head _))]
  | cast _ v => simp only [Operation.map, Context.operationText, operand v (.head _)]
  | phi incoming =>
    have edges : ∀ edge ∈ incoming, "[ " ++ d.nameText (s.move ρ) (ρ edge.1) ++ ", " ++
        d.labelText (s.move ρ) edge.2 ++ " ]" = "[ " ++ c.nameText s edge.1 ++ ", " ++ c.labelText s edge.2 ++ " ]" :=
      fun edge he => by rw [name edge.1 (List.mem_map_of_mem he), h.labelText]
    simp only [Operation.map, Context.operationText, List.map_map, Function.comp_def, List.map_congr_left edges]
  | condBr c _ _ => simp only [Operation.map, Context.operationText, operand c (.head _), h.labelText]
  | call f args =>
    have texts : args.map (fun v => d.operandText (s.move ρ) (ρ v)) = args.map (c.operandText s) :=
      List.map_congr_left operand
    simp only [Operation.map, Context.operationText, List.map_map, Function.comp_def, texts, h.function]
  | ret v =>
    cases v with
    | none => rfl
    | some v => simp only [Operation.map, Option.map_some, Context.operationText, operand v (.head _)]

/-! ### Spellings -/

theorem blockSites (h : Relocation ρ n c d) (b : BlockId) :
    d.blockSites b = (c.blockSites b).map (Prod.map (Site.map ρ) id) := by
  have nonvoid : ∀ v ∈ (c.block b).instructions.toList, (!(d.typeOf (ρ v)).isVoid) = !(c.typeOf v).isVoid :=
    fun v hv => by rw [h.typeOf_listed (Array.mem_toList_iff.mp hv)]
  have site : ∀ v ∈ (c.block b).instructions.toList.filter fun v => !(c.typeOf v).isVoid,
      (Site.value (ρ v), (d.value (ρ v)).name) = Prod.map (Site.map ρ) id (Site.value v, (c.value v).name) :=
    fun v hv => by rw [h.listed b v (Array.mem_toList_iff.mp (List.mem_of_mem_filter hv))]; rfl
  rw [Context.blockSites, Context.blockSites, h.lists, h.names, List.filter_map, List.map_map, List.map_cons,
    List.map_map]
  simp only [Function.comp_def]
  rw [List.filter_congr nonvoid, List.map_congr_left site]
  rfl

theorem spelling (h : Relocation ρ n c d) {f : FunctionId} (hf : ∀ v ∈ (c.function f).args, v.index < n) :
    d.spelling f = (c.spelling f).move ρ := by
  have args : ∀ v ∈ (c.function f).args,
      (Site.value v, (d.value v).name) = Prod.map (Site.map ρ) id (Site.value v, (c.value v).name) := fun v hv => by
    rw [h.old v (hf v hv), Prod.map_apply, Site.map, h.fixed v (hf v hv)]
    rfl
  rw [Context.spelling, Context.spelling, ← Spelling.assign_move, Context.sites, Context.sites, h.function,
    List.map_append, List.map_map, List.map_congr_left args, List.map_flatMap, funext h.blockSites]
  rfl

/-- The results in the blocks of a function are spelled in its text. -/
theorem isSome_spelling {f : FunctionId} {b : BlockId} (hb : b ∈ (c.function f).blocks) {v : ValueId}
    (hv : v ∈ (c.block b).instructions) (ht : (c.typeOf v).isVoid = false) :
    ((c.spelling f).lookup (.value v)).isSome := by
  rw [isSome_lookup, Context.spelling, Spelling.map_fst_assign]
  have hsite : (Site.value v, (c.value v).name) ∈ c.blockSites b := by
    refine List.mem_cons_of_mem _ (List.mem_map_of_mem (List.mem_filter.mpr ⟨?_, ?_⟩))
    · exact Array.mem_toList_iff.mpr hv
    · simp [ht]
  have hin : (Site.value v, (c.value v).name) ∈ c.sites f :=
    List.mem_append_right _ (List.mem_flatMap.mpr ⟨b, Array.mem_toList_iff.mpr hb, hsite⟩)
  exact List.mem_map.mpr ⟨_, hin, rfl⟩

theorem instructionText (h : Relocation ρ n c d) {f : FunctionId} {b : BlockId} (hb : b ∈ (c.function f).blocks)
    {v : ValueId} (hv : v ∈ (c.block b).instructions) :
    d.instructionText ((c.spelling f).move ρ) (ρ v) = c.instructionText (c.spelling f) v := by
  obtain ⟨op, e, hk, hop⟩ := h.closed b v hv
  have legible : ∀ u ∈ op.operands, Legible n c (c.spelling f) u := by
    intro u hu
    rcases hop u hu with hold | ⟨hin, ht⟩
    · exact Or.inl hold
    · exact Or.inr ⟨⟨b, hin⟩, isSome_spelling hb hin ht⟩
  simp only [Context.instructionText, h.typeOf_listed hv, h.listed b v hv, Value.map, Value.operation?, hk,
    h.operationText legible]
  split
  · rfl
  · next ht =>
    rw [h.nameText (Or.inr ⟨⟨b, hv⟩, isSome_spelling hb hv (Bool.eq_false_iff.mpr ht)⟩)]

/-! ### Metadata -/

theorem attachmentsOf (h : Relocation ρ n c d) (hg : Grounded n c) (v : ValueId) :
    d.attachmentsOf (ρ v) = c.attachmentsOf v := by
  rw [Context.attachmentsOf, Context.attachmentsOf, h.attachments]
  refine List.filter_congr fun a ha => ?_
  have ht := h.fixed a.target (hg.attachments a (Array.mem_toList_iff.mp ha))
  rw [decide_eq_decide]
  constructor
  · intro he
    exact h.injective (ht.trans he)
  · rintro rfl
    exact ht.symm

theorem attachmentText (h : Relocation ρ n c d) (hg : Grounded n c) (order : List NodeId) (v : ValueId) :
    d.attachmentText order (ρ v) = c.attachmentText order v := by
  rw [Context.attachmentText, Context.attachmentText, h.attachmentsOf hg]

theorem node (h : Relocation ρ n c d) : d.node = c.node := by
  funext k
  rw [Context.node, h.nodes, Context.node]

theorem followReferences (h : Relocation ρ n c d) (fuel i : Nat) (order : List NodeId) :
    d.followReferences fuel i order = c.followReferences fuel i order := by
  induction fuel generalizing i order with
  | zero => rfl
  | succ fuel ih => simp only [Context.followReferences, Context.nodeReferences, h.node, ih]

theorem attachedNodes (h : Relocation ρ n c d) (hg : Grounded n c) {f : FunctionId}
    (hf : (c.function f).value.index < n) : d.attachedNodes f = c.attachedNodes f := by
  have carriers : d.carriers f = (c.carriers f).map ρ := by
    rw [Context.carriers, Context.carriers, h.function, List.map_cons, h.fixed _ hf, List.map_flatMap]
    simp only [h.lists]
  rw [Context.attachedNodes, Context.attachedNodes, carriers, List.flatMap_map]
  simp only [h.attachmentsOf hg]

theorem nodeOrder (h : Relocation ρ n c d) (hg : Grounded n c) {fs : List FunctionId}
    (hfs : ∀ f ∈ fs, (c.function f).value.index < n) : d.nodeOrder fs = c.nodeOrder fs := by
  have nodes : ∀ f ∈ fs, d.attachedNodes f = c.attachedNodes f := fun f hf => h.attachedNodes hg (hfs f hf)
  rw [Context.nodeOrder, Context.nodeOrder, h.nodes, List.flatMap_congr nodes, h.followReferences]

theorem nodeTable (h : Relocation ρ n c d) (hg : Grounded n c) (s : Spelling) (order : List NodeId) :
    d.nodeTable (s.move ρ) order = c.nodeTable s order := by
  have operand : ∀ k, ∀ o ∈ c.node k, d.nodeOperandText (s.move ρ) order o = c.nodeOperandText s order o := by
    intro k o ho
    cases o with
    | value v => exact h.operandText_old s (hg.nodes k v ho)
    | _ => rfl
  have text : ∀ k, d.nodeText (s.move ρ) order k = c.nodeText s order k := fun k => by
    rw [Context.nodeText, Context.nodeText, h.node, List.map_congr_left (operand k)]
  unfold Context.nodeTable
  rw [funext text]

/-! ### Functions and modules -/

theorem blockText (h : Relocation ρ n c d) (hg : Grounded n c) {f : FunctionId} {b : BlockId}
    (hb : b ∈ (c.function f).blocks) (order : List NodeId) :
    d.blockText ((c.spelling f).move ρ) order b = c.blockText (c.spelling f) order b := by
  have label : ((c.spelling f).move ρ).lookup (.block b) = (c.spelling f).lookup (.block b) :=
    (c.spelling f).lookup_move h.injective (.block b)
  have line : ∀ v ∈ (c.block b).instructions.toList,
      "  " ++ d.instructionText ((c.spelling f).move ρ) (ρ v) ++ d.attachmentText order (ρ v) ++ "\n" =
        "  " ++ c.instructionText (c.spelling f) v ++ c.attachmentText order v ++ "\n" := fun v hv => by
    rw [h.instructionText hb (Array.mem_toList_iff.mp hv), h.attachmentText hg]
  rw [Context.blockText, Context.blockText, label, h.lists, List.map_map]
  simp only [Function.comp_def, List.map_congr_left line]

theorem headingText (h : Relocation ρ n c d) (hg : Grounded n c) {f : Function} (hv : f.value.index < n)
    (hargs : ∀ v ∈ f.args, v.index < n) (s : Spelling) (order : List NodeId) :
    d.headingText (s.move ρ) order f = c.headingText s order f := by
  have args : ∀ v ∈ f.args, d.operandText (s.move ρ) v = c.operandText s v := fun v hv =>
    h.operandText_old s (hargs v hv)
  have attached : d.attachmentText order f.value = c.attachmentText order f.value := by
    have hm := h.attachmentText hg order f.value
    rwa [h.fixed _ hv] at hm
  rw [Context.headingText, Context.headingText, Context.parameterText, Context.parameterText,
    List.map_congr_left args, attached]

theorem functionText (h : Relocation ρ n c d) (hg : Grounded n c) {f : FunctionId}
    (hv : (c.function f).value.index < n) (hargs : ∀ v ∈ (c.function f).args, v.index < n) (order : List NodeId) :
    d.functionText order f = c.functionText order f := by
  have blocks : ∀ b ∈ (c.function f).blocks.toList,
      d.blockText ((c.spelling f).move ρ) order b = c.blockText (c.spelling f) order b := fun b hb =>
    h.blockText hg (Array.mem_toList_iff.mp hb) order
  simp only [Context.functionText, h.function, h.spelling hargs, h.headingText hg hv hargs,
    List.map_congr_left blocks]

theorem finalSpelling (h : Relocation ρ n c d) {fs : List FunctionId}
    (hfs : ∀ f ∈ fs, ∀ v ∈ (c.function f).args, v.index < n) :
    d.finalSpelling fs = (c.finalSpelling fs).move ρ := by
  unfold Context.finalSpelling
  cases hl : fs.getLast? with
  | none => rfl
  | some f => exact h.spelling (hfs f (List.mem_of_getLast? hl))

/-- The text of a module does not show where its instructions stand in the table of values. -/
theorem printModule (h : Relocation ρ n c d) (hg : Grounded n c) (m : ModuleId) :
    d.printModule m = c.printModule m := by
  have known := fun f (hf : f ∈ (c.module m).functions.toList) => hg.functions m f (Array.mem_toList_iff.mp hf)
  have order : d.nodeOrder (c.module m).functions.toList = c.nodeOrder (c.module m).functions.toList :=
    h.nodeOrder hg fun f hf => (known f hf).1
  have text : ∀ f ∈ (c.module m).functions.toList,
      "\n" ++ d.functionText (c.nodeOrder (c.module m).functions.toList) f =
        "\n" ++ c.functionText (c.nodeOrder (c.module m).functions.toList) f := fun f hf => by
    rw [h.functionText hg (known f hf).1 (known f hf).2]
  have table := h.nodeTable hg (c.finalSpelling (c.module m).functions.toList)
    (c.nodeOrder (c.module m).functions.toList)
  unfold Context.printModule
  dsimp only
  rw [h.module, order, List.map_congr_left text, h.finalSpelling fun f hf => (known f hf).2, table]

end Relocation
end StackAssembler.IR
