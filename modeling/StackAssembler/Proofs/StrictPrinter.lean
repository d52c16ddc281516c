import Mathlib.Data.List.Nodup
import Mathlib.Data.List.Perm.Subperm
import StackAssembler.IR.Naming
import StackAssembler.Proofs.Relocation
import StackAssembler.Proofs.Slices
import StackAssembler.Proofs.StrictContext

/-! The text of a module, with no answer where something is read that is not there. A block has no label where the
spelling of its function does not have it. -/
namespace StackAssembler.IR
namespace Strict

section
variable (ctx : Context)

/-! ### Spellings -/

def valueSite (v : ValueId) : Option (Site × Option String) := return (.value v, (← value ctx v).name)

def resultSites : List ValueId → Option (List (Site × Option String))
  | [] => return []
  | v :: vs => do
    let rest ← resultSites vs
    if (← type ctx (← typeOf ctx v)).isVoid then return rest
    else return (← valueSite ctx v) :: rest

def blockSites (b : BlockId) : Option (List (Site × Option String)) := do
  let entry ← block ctx b
  return (.block b, entry.name) :: (← resultSites ctx entry.instructions.toList)

def sites (f : FunctionId) : Option (List (Site × Option String)) := do
  let entry ← function ctx f
  let args ← entry.args.mapM (valueSite ctx)
  return args ++ (← entry.blocks.toList.mapM (blockSites ctx)).flatten

/-- The next number is one less than what is counted then. -/
def assign : Nat → List (Site × Option String) → Option Spelling
  | _, [] => return []
  | next, (site, some name) :: rest => return (site, name) :: (← assign next rest)
  | next, (site, none) :: rest => return (site, toString (← sub (next + 1) 1)) :: (← assign (next + 1) rest)

def spelling (f : FunctionId) : Option Spelling := do assign 0 (← sites ctx f)

/-! ### Instructions -/

def constantText (t : Ty) : Constant → Option String
  | .int payload => do
    match ← type ctx t with
    | .int 1 => return if payload = 0 then "false" else "true"
    | .int width => return toString (← signed width payload)
    | _ => return toString payload
  | .float bits => return Binary.text bits
  | .null => return "null"
  | .undef => return "undef"

def nameText (s : Spelling) (v : ValueId) : Option String := do
  let entry ← value ctx v
  match entry.kind with
  | .constant c => constantText ctx entry.type c
  | .function f => return "@" ++ (← function ctx f).name
  | .argument .. | .instruction .. =>
    match s.lookup (.value v) with
    | some text => return "%" ++ text
    | none =>
      match entry.name with
      | some name => return "%" ++ name
      | none => return "%v" ++ toString v.index

def operandText (s : Spelling) (v : ValueId) : Option String :=
  return (← typeName ctx (← typeOf ctx v)) ++ " " ++ (← nameText ctx s v)

def labelText (s : Spelling) (b : BlockId) : Option String := do
  match s.lookup (.block b) with
  | some text => return "%" ++ text
  | none => return "%" ++ (← blockLabel ctx b)

def edgeText (s : Spelling) (edge : ValueId × BlockId) : Option String :=
  return "[ " ++ (← nameText ctx s edge.1) ++ ", " ++ (← labelText ctx s edge.2) ++ " ]"

def operationText (s : Spelling) (t : Ty) : Operation → Option String
  | .alloca allocated => return "alloca " ++ (← typeName ctx allocated)
  | .load pointer => return "load " ++ (← typeName ctx t) ++ ", " ++ (← operandText ctx s pointer)
  | .store value pointer => return "store " ++ (← operandText ctx s value) ++ ", " ++ (← operandText ctx s pointer)
  | .binary op lhs rhs => return op.mnemonic ++ " " ++ (← operandText ctx s lhs) ++ ", " ++ (← nameText ctx s rhs)
  | .icmp p lhs rhs =>
    return "icmp " ++ p.keyword ++ " " ++ (← operandText ctx s lhs) ++ ", " ++ (← nameText ctx s rhs)
  | .fcmp p lhs rhs =>
    return "fcmp " ++ p.keyword ++ " " ++ (← operandText ctx s lhs) ++ ", " ++ (← nameText ctx s rhs)
  | .cast op value => return op.mnemonic ++ " " ++ (← operandText ctx s value) ++ " to " ++ (← typeName ctx t)
  | .phi incoming => return "phi " ++ (← typeName ctx t) ++ " " ++ Ty.commas (← incoming.mapM (edgeText ctx s))
  | .br dest => return "br label " ++ (← labelText ctx s dest)
  | .condBr cond onTrue onFalse =>
    return "br " ++ (← operandText ctx s cond) ++ ", label " ++ (← labelText ctx s onTrue) ++ ", label " ++
      (← labelText ctx s onFalse)
  | .call callee args =>
    return "call " ++ (← typeName ctx t) ++ " @" ++ (← function ctx callee).name ++ "(" ++
      Ty.commas (← args.mapM (operandText ctx s)) ++ ")"
  | .ret (some value) => return "ret " ++ (← operandText ctx s value)
  | .ret none => return "ret void"

def instructionText (s : Spelling) (v : ValueId) : Option String := do
  match (← value ctx v).operation? with
  | none => operandText ctx s v
  | some op =>
    let t ← typeOf ctx v
    let body ← operationText ctx s t op
    if (← type ctx t).isVoid then return body else return (← nameText ctx s v) ++ " = " ++ body

/-! ### Metadata -/

def nodeReferences (n : NodeId) : Option (List NodeId) :=
  return (← node ctx n).filterMap fun
    | .node m => some m
    | _ => none

def carriers (f : FunctionId) : Option (List ValueId) := do
  let entry ← function ctx f
  let blocks ← entry.blocks.toList.mapM (block ctx)
  return entry.value :: blocks.flatMap (·.instructions.toList)

def attachedNodes (f : FunctionId) : Option (List NodeId) :=
  return (← carriers ctx f).flatMap fun v => (ctx.attachmentsOf v).map (·.node)

/-- There is no answer when the steps are used up before the nodes are. -/
def followReferences : Nat → Nat → List NodeId → Option (List NodeId)
  | 0, i, order => if order.length ≤ i then some order else none
  | fuel + 1, i, order =>
    match order[i]? with
    | none => return order
    | some n => do followReferences fuel (i + 1) ((← nodeReferences ctx n).foldl Context.refer order)

def nodeOrder (fs : List FunctionId) : Option (List NodeId) := do
  let attached ← fs.mapM (attachedNodes ctx)
  followReferences ctx ctx.nodes.size 0 (attached.flatten.foldl Context.refer [])

def nodeOperandText (s : Spelling) (order : List NodeId) : NodeOperand → Option String
  | .string text => return "!\"" ++ text ++ "\""
  | .node n => return Context.nodeNumber order n
  | .value v => operandText ctx s v

def nodeText (s : Spelling) (order : List NodeId) (n : NodeId) : Option String :=
  return Context.nodeNumber order n ++ " = !\x7b" ++
    Ty.commas (← (← node ctx n).mapM (nodeOperandText ctx s order)) ++ "\x7d\n"

def nodeTable (s : Spelling) (order : List NodeId) : Option String :=
  match order with
  | [] => return ""
  | _ => return "\n" ++ String.join (← order.mapM (nodeText ctx s order))

/-! ### Functions and modules -/

def lineText (s : Spelling) (order : List NodeId) (v : ValueId) : Option String :=
  return "  " ++ (← instructionText ctx s v) ++ ctx.attachmentText order v ++ "\n"

def blockText (s : Spelling) (order : List NodeId) (b : BlockId) : Option String :=
  return (← s.lookup (.block b)) ++ ":\n" ++
    String.join (← (← block ctx b).instructions.toList.mapM (lineText ctx s order))

def parameterText (s : Spelling) (f : Function) : Option String := do
  let texts ← if f.isDeclaration then f.params.mapM (typeName ctx) else f.args.mapM (operandText ctx s)
  return Ty.commas (texts ++ if f.variadic then ["..."] else [])

def headingText (s : Spelling) (order : List NodeId) (f : Function) : Option String := do
  let _ ← type ctx f.type
  return (if f.isDeclaration then "declare " else "define ") ++ f.linkage.keyword ++ (← typeName ctx f.result) ++ " @" ++
    f.name ++ "(" ++ (← parameterText ctx s f) ++ ")" ++ ctx.attachmentText order f.value

def functionText (order : List NodeId) (id : FunctionId) : Option String := do
  let f ← function ctx id
  let s ← spelling ctx id
  if f.isDeclaration then return (← headingText ctx s order f) ++ "\n"
  else
    return (← headingText ctx s order f) ++ " \x7b\n" ++
      "\n".intercalate (← f.blocks.toList.mapM (blockText ctx s order)) ++ "\x7d\n"

def finalSpelling (fs : List FunctionId) : Option Spelling :=
  match fs.getLast? with
  | some f => spelling ctx f
  | none => return []

def printModule (m : ModuleId) : Option String := do
  let entry ← module ctx m
  let fs := entry.functions.toList
  let order ← nodeOrder ctx fs
  let texts ← fs.mapM (functionText ctx order)
  return "; ModuleID = '" ++ entry.name ++ "'\n" ++ String.join (texts.map ("\n" ++ ·)) ++
    (← nodeTable ctx (← finalSpelling ctx fs) order)

/-! ### Names of values -/

/-- The spelling of the function that an instruction stands in. -/
def spellingAround (v : ValueId) : Option Spelling := do
  match ← functionOf? ctx v with
  | some f => spelling ctx f
  | none => return []

/-- The spelling of a result is what stands in front of the equals sign in its line. -/
def localName (v : ValueId) : Option String := do
  let line ← instructionText ctx (← spellingAround ctx v) v
  let halves ← Text.Strict.cut '=' line.toList
  return String.ofList (Text.Strict.trim halves.1)

def displayName (v : ValueId) : Option String := do
  let entry ← value ctx v
  match entry.name with
  | some name => return name
  | none =>
    match entry.operation? with
    | some _ => if (← type ctx (← typeOf ctx v)).isVoid then return "" else localName ctx v
    | none => operandText ctx [] v

end

/-! ### Answers -/

theorem assign_eq (next : Nat) (sites : List (Site × Option String)) :
    assign next sites = some (Spelling.assign next sites) := by
  induction sites generalizing next with
  | nil => rfl
  | cons site sites ih =>
    obtain ⟨site, _ | name⟩ := site
    · rw [assign, sub, if_pos (Nat.le_add_left 1 next), ih]
      rfl
    · rw [assign, ih]
      rfl

section
variable {ctx : Context} (hc : ctx.Closed)
include hc

omit hc in
theorem valueSite_eq {v : ValueId} (h : ctx.HasValue v) : valueSite ctx v = some (.value v, (ctx.value v).name) := by
  rw [valueSite, value_eq h]
  rfl

theorem resultSites_eq {vs : List ValueId} (h : ∀ v ∈ vs, ctx.HasValue v) :
    resultSites ctx vs = some ((vs.filter fun v => !(ctx.typeOf v).isVoid).map fun v => (.value v, (ctx.value v).name)) := by
  induction vs with
  | nil => rfl
  | cons v vs ih =>
    obtain ⟨hv, hvs⟩ := List.forall_mem_cons.mp h
    rw [resultSites, ih hvs, typeOf_eq hv]
    dsimp only [bind, Option.bind]
    rw [type_eq (hc.hasType_typeOf hv), valueSite_eq hv]
    cases ht : (ctx.typeOf v).isVoid <;> simp [ht]

theorem blockSites_eq {b : BlockId} (h : ctx.HasBlock b) : blockSites ctx b = some (ctx.blockSites b) := by
  rw [blockSites, block_eq h]
  dsimp only [bind, Option.bind]
  rw [resultSites_eq hc (show ∀ v ∈ (ctx.block b).instructions.toList, ctx.HasValue v from (hc.block h).values)]
  rfl

theorem sites_eq {f : FunctionId} (h : ctx.HasFunction f) : sites ctx f = some (ctx.sites f) := by
  have hf := hc.function h
  have hargs : (ctx.function f).args.mapM (valueSite ctx) =
      some ((ctx.function f).args.map fun v => (.value v, (ctx.value v).name)) :=
    mapM_eq fun v hv => valueSite_eq (hf.values v (.tail _ hv))
  have hblocks : (ctx.function f).blocks.toList.mapM (blockSites ctx) =
      some ((ctx.function f).blocks.toList.map ctx.blockSites) :=
    mapM_eq fun b hb => blockSites_eq hc (hf.blocks b hb)
  rw [sites, function_eq h]
  dsimp only [bind, Option.bind]
  rw [hargs]
  dsimp only
  rw [hblocks]
  rfl

theorem spelling_eq {f : FunctionId} (h : ctx.HasFunction f) : spelling ctx f = some (ctx.spelling f) := by
  rw [spelling, sites_eq hc h]
  exact assign_eq 0 (ctx.sites f)

omit hc in
theorem constantText_eq {t : Ty} (h : ctx.HasType t) (c : Constant) :
    constantText ctx t c = some (Context.constantText t c) := by
  cases c with
  | int payload =>
    rw [constantText, type_eq h]
    cases t with
    | int width =>
      by_cases h1 : width = 1
      · subst h1
        rfl
      · simp [Context.constantText, signed_eq]
    | void | float | pointer | array | struct | function => rfl
  | float | null | undef => rfl

theorem nameText_eq {v : ValueId} (h : ctx.HasValue v) (s : Spelling) : nameText ctx s v = some (ctx.nameText s v) := by
  have hk := hc.value h
  unfold Value.handles at hk
  rw [nameText, value_eq h, Context.nameText]
  dsimp only [bind, Option.bind]
  cases hkind : (ctx.value v).kind with
  | constant c => exact constantText_eq (hk.types _ (.head _)) c
  | function f =>
    rw [hkind] at hk
    dsimp only
    rw [function_eq (hk.functions f (.head _))]
    rfl
  | argument | instruction =>
    dsimp only
    cases s.lookup (.value v) with
    | some text => rfl
    | none => cases (ctx.value v).name <;> rfl

theorem operandText_eq {v : ValueId} (h : ctx.HasValue v) (s : Spelling) :
    operandText ctx s v = some (ctx.operandText s v) := by
  rw [operandText, typeOf_eq h]
  dsimp only [bind, Option.bind]
  rw [typeName_eq hc (hc.hasType_typeOf h)]
  dsimp only
  rw [nameText_eq hc h]
  rfl

omit hc in
theorem labelText_eq {b : BlockId} (h : ctx.HasBlock b) (s : Spelling) : labelText ctx s b = some (ctx.labelText s b) := by
  rw [labelText, Context.labelText]
  cases s.lookup (.block b) with
  | some text => rfl
  | none =>
    dsimp only
    rw [blockLabel_eq h]
    rfl

theorem operationText_eq {t : Ty} (ht : ctx.HasType t) {op : Operation}
    (h : ctx.Knows { types := op.types, values := op.operands, blocks := op.targets, functions := op.callee?.toList })
    (s : Spelling) : operationText ctx s t op = some (ctx.operationText s t op) := by
  have type : typeName ctx t = some t.name := typeName_eq hc ht
  have name : ∀ v ∈ op.operands, nameText ctx s v = some (ctx.nameText s v) := fun v hv =>
    nameText_eq hc (h.values v hv) s
  have operand : ∀ v ∈ op.operands, operandText ctx s v = some (ctx.operandText s v) := fun v hv =>
    operandText_eq hc (h.values v hv) s
  have label : ∀ b ∈ op.targets, labelText ctx s b = some (ctx.labelText s b) := fun b hb =>
    labelText_eq (h.blocks b hb) s
  cases op with
  | alloca allocated => simp [operationText, Context.operationText, typeName_eq hc (h.types _ (.head _))]
  | load p => simp [operationText, Context.operationText, type, operand p (.head _)]
  | store v p => simp [operationText, Context.operationText, operand v (.head _), operand p (.tail _ (.head _))]
  | binary _ l r | icmp _ l r | fcmp _ l r =>
    simp [operationText, Context.operationText, operand l (.head _), name r (.tail _ (.head _))]
  | cast _ v => simp [operationText, Context.operationText, type, operand v (.head _)]
  | phi incoming =>
    have edges : incoming.mapM (edgeText ctx s) = some (incoming.map fun edge =>
        "[ " ++ ctx.nameText s edge.1 ++ ", " ++ ctx.labelText s edge.2 ++ " ]") :=
      mapM_eq fun edge he => by
        rw [edgeText, name edge.1 (List.mem_map_of_mem he), label edge.2 (List.mem_map_of_mem he)]
        rfl
    simp [operationText, Context.operationText, type, edges]
  | br b => simp [operationText, Context.operationText, label b (.head _)]
  | condBr c b d =>
    simp [operationText, Context.operationText, operand c (.head _), label b (.head _), label d (.tail _ (.head _))]
  | call f args =>
    have texts : args.mapM (operandText ctx s) = some (args.map (ctx.operandText s)) := mapM_eq operand
    simp [operationText, Context.operationText, type, function_eq (h.functions f (.head _)), texts]
  | ret v =>
    cases v with
    | none => rfl
    | some v => simp [operationText, Context.operationText, operand v (.head _)]

theorem instructionText_eq {v : ValueId} (h : ctx.HasValue v) (s : Spelling) :
    instructionText ctx s v = some (ctx.instructionText s v) := by
  rw [instructionText, value_eq h, Context.instructionText]
  dsimp only [bind, Option.bind]
  cases ho : (ctx.value v).operation? with
  | none => exact operandText_eq hc h s
  | some op =>
    dsimp only
    rw [typeOf_eq h]
    dsimp only
    rw [operationText_eq hc (hc.hasType_typeOf h) (hc.operation h ho)]
    dsimp only
    rw [type_eq (hc.hasType_typeOf h), nameText_eq hc h]
    cases ht : (ctx.typeOf v).isVoid <;> simp [ht]

/-! ### Metadata -/

omit hc in
theorem nodeReferences_eq {n : NodeId} (h : ctx.HasNode n) : nodeReferences ctx n = some (ctx.nodeReferences n) := by
  rw [nodeReferences, node_eq h]
  rfl

theorem hasNode_nodeReferences {n m : NodeId} (h : ctx.HasNode n) (hm : m ∈ ctx.nodeReferences n) : ctx.HasNode m := by
  obtain ⟨o, ho, hom⟩ := List.mem_filterMap.mp hm
  have hk := hc.node h o ho
  cases o with
  | node k =>
    cases hom
    exact hk.nodes m (.head _)
  | string | value => cases hom

theorem carriers_eq {f : FunctionId} (h : ctx.HasFunction f) : carriers ctx f = some (ctx.carriers f) := by
  have hblocks : (ctx.function f).blocks.toList.mapM (block ctx) = some ((ctx.function f).blocks.toList.map ctx.block) :=
    mapM_eq fun b hb => block_eq ((hc.function h).blocks b hb)
  rw [carriers, function_eq h]
  dsimp only [bind, Option.bind]
  rw [hblocks]
  dsimp only
  rw [List.flatMap_map]
  rfl

theorem attachedNodes_eq {f : FunctionId} (h : ctx.HasFunction f) : attachedNodes ctx f = some (ctx.attachedNodes f) := by
  rw [attachedNodes, carriers_eq hc h]
  rfl

theorem hasNode_attachedNodes {f : FunctionId} {n : NodeId} (h : n ∈ ctx.attachedNodes f) : ctx.HasNode n := by
  obtain ⟨v, _, hv⟩ := List.mem_flatMap.mp h
  obtain ⟨a, ha, rfl⟩ := List.mem_map.mp hv
  have ha : a ∈ ctx.attachments := Array.mem_toList_iff.mp (List.mem_of_mem_filter ha)
  exact (hc.attachments a ha).nodes _ (.head _)

/-- Nodes that a context has, each of them once. -/
structure Listed (ctx : Context) (order : List NodeId) : Prop where
  nodup : order.Nodup
  known : ∀ n ∈ order, ctx.HasNode n

omit hc in
theorem Listed.refer {order : List NodeId} (h : Listed ctx order) {n : NodeId} (hn : ctx.HasNode n) :
    Listed ctx (Context.refer order n) := by
  unfold Context.refer
  split
  · exact h
  · next hin =>
    refine ⟨List.Nodup.append h.nodup (List.nodup_singleton n) (List.disjoint_singleton.mpr hin), fun m hm => ?_⟩
    rcases List.mem_append.mp hm with hm | hm
    · exact h.known m hm
    · exact List.mem_singleton.mp hm ▸ hn

omit hc in
theorem Listed.refer_all {order ns : List NodeId} (h : Listed ctx order) (hns : ∀ n ∈ ns, ctx.HasNode n) :
    Listed ctx (ns.foldl Context.refer order) := by
  induction ns generalizing order with
  | nil => exact h
  | cons n ns ih =>
    obtain ⟨hn, hns⟩ := List.forall_mem_cons.mp hns
    exact ih (h.refer hn) hns

omit hc in
/-- There are no more of them than entries. -/
theorem Listed.length_le {order : List NodeId} (h : Listed ctx order) : order.length ≤ ctx.nodes.size := by
  have hsub : order.map NodeId.index ⊆ List.range ctx.nodes.size := fun i hi => by
    obtain ⟨n, hn, rfl⟩ := List.mem_map.mp hi
    exact List.mem_range.mpr (h.known n hn)
  have hinj : Function.Injective NodeId.index := fun ⟨_⟩ ⟨_⟩ he => congrArg NodeId.mk he
  have hle := (List.subperm_of_subset (h.nodup.map hinj) hsub).length_le
  rwa [List.length_map, List.length_range] at hle

theorem followReferences_eq {fuel i : Nat} (hi : i + fuel = ctx.nodes.size) {order : List NodeId}
    (h : Listed ctx order) : followReferences ctx fuel i order = some (ctx.followReferences fuel i order) ∧
      Listed ctx (ctx.followReferences fuel i order) := by
  induction fuel generalizing i order with
  | zero => exact ⟨if_pos (Nat.le_trans h.length_le (Nat.le_of_eq hi.symm)), h⟩
  | succ fuel ih =>
    rw [followReferences, Context.followReferences]
    cases ho : order[i]? with
    | none => exact ⟨rfl, h⟩
    | some n =>
      have hn : ctx.HasNode n := h.known n (List.mem_of_getElem? ho)
      dsimp only
      rw [nodeReferences_eq hn]
      exact ih (by omega) (h.refer_all fun m hm => hasNode_nodeReferences hc hn hm)

theorem nodeOrder_eq {fs : List FunctionId} (h : ∀ f ∈ fs, ctx.HasFunction f) :
    nodeOrder ctx fs = some (ctx.nodeOrder fs) ∧ Listed ctx (ctx.nodeOrder fs) := by
  have hroots : Listed ctx ((fs.flatMap ctx.attachedNodes).foldl Context.refer []) :=
    Listed.refer_all ⟨List.nodup_nil, List.forall_mem_nil _⟩ fun n hn => by
      obtain ⟨f, _, hf⟩ := List.mem_flatMap.mp hn
      exact hasNode_attachedNodes hc hf
  rw [nodeOrder, mapM_eq fun f hf => attachedNodes_eq hc (h f hf)]
  exact followReferences_eq hc (Nat.zero_add _) hroots

theorem nodeText_eq {n : NodeId} (h : ctx.HasNode n) (s : Spelling) (order : List NodeId) :
    nodeText ctx s order n = some (ctx.nodeText s order n) := by
  have hops : (ctx.node n).mapM (nodeOperandText ctx s order) = some ((ctx.node n).map (ctx.nodeOperandText s order)) :=
    mapM_eq fun o ho => by
      cases o with
      | value v => exact operandText_eq hc ((hc.node h _ ho).values v (.head _)) s
      | string | node => rfl
  rw [nodeText, node_eq h]
  dsimp only [bind, Option.bind]
  rw [hops]
  rfl

theorem nodeTable_eq {order : List NodeId} (h : Listed ctx order) (s : Spelling) :
    nodeTable ctx s order = some (ctx.nodeTable s order) := by
  cases order with
  | nil => rfl
  | cons n ns =>
    change (do return "\n" ++ String.join (← (n :: ns).mapM (nodeText ctx s (n :: ns)))) = _
    rw [mapM_eq fun m hm => nodeText_eq hc (h.known m hm) s (n :: ns)]
    rfl

/-! ### Functions and modules -/

omit hc in
/-- The blocks of a function are spelled in its text. -/
theorem isSome_label {f : FunctionId} {b : BlockId} (hb : b ∈ (ctx.function f).blocks.toList) :
    ((ctx.spelling f).lookup (.block b)).isSome := by
  rw [isSome_lookup, Context.spelling, Spelling.map_fst_assign]
  have hin : (Site.block b, (ctx.block b).name) ∈ ctx.sites f :=
    List.mem_append_right _ (List.mem_flatMap.mpr ⟨b, hb, .head _⟩)
  exact List.mem_map.mpr ⟨_, hin, rfl⟩

theorem blockText_eq {b : BlockId} (h : ctx.HasBlock b) {s : Spelling} (hs : (s.lookup (.block b)).isSome)
    (order : List NodeId) : blockText ctx s order b = some (ctx.blockText s order b) := by
  have hlines : (ctx.block b).instructions.toList.mapM (lineText ctx s order) =
      some ((ctx.block b).instructions.toList.map fun v =>
        "  " ++ ctx.instructionText s v ++ ctx.attachmentText order v ++ "\n") :=
    mapM_eq fun v hv => by
      rw [lineText, instructionText_eq hc ((hc.block h).values v hv)]
      rfl
  obtain ⟨label, hlabel⟩ := Option.isSome_iff_exists.mp hs
  rw [blockText, Context.blockText, hlabel, block_eq h]
  dsimp only [bind, Option.bind]
  rw [hlines]
  rfl

theorem parameterText_eq {f : FunctionId} (h : ctx.HasFunction f) (s : Spelling) :
    parameterText ctx s (ctx.function f) = some (ctx.parameterText s (ctx.function f)) := by
  have hf := hc.function h
  have hparams : (ctx.function f).params.mapM (typeName ctx) = some ((ctx.function f).params.map Ty.name) :=
    mapM_eq fun t ht => typeName_eq hc (hf.types t (.tail _ (.tail _ ht)))
  have hargs : (ctx.function f).args.mapM (operandText ctx s) = some ((ctx.function f).args.map (ctx.operandText s)) :=
    mapM_eq fun v hv => operandText_eq hc (hf.values v (.tail _ hv)) s
  rw [parameterText, Context.parameterText, hparams, hargs]
  cases (ctx.function f).isDeclaration <;> rfl

theorem headingText_eq {f : FunctionId} (h : ctx.HasFunction f) (s : Spelling) (order : List NodeId) :
    headingText ctx s order (ctx.function f) = some (ctx.headingText s order (ctx.function f)) := by
  have hf := hc.function h
  rw [headingText, type_eq (hf.types _ (.head _)), typeName_eq hc (hf.types _ (.tail _ (.head _))), parameterText_eq hc h]
  rfl

theorem functionText_eq {f : FunctionId} (h : ctx.HasFunction f) (order : List NodeId) :
    functionText ctx order f = some (ctx.functionText order f) := by
  have hblocks : (ctx.function f).blocks.toList.mapM (blockText ctx (ctx.spelling f) order) =
      some ((ctx.function f).blocks.toList.map (ctx.blockText (ctx.spelling f) order)) :=
    mapM_eq fun b hb => blockText_eq hc ((hc.function h).blocks b hb) (isSome_label hb) order
  rw [functionText, Context.functionText, function_eq h]
  dsimp only [bind, Option.bind]
  rw [spelling_eq hc h]
  dsimp only
  rw [headingText_eq hc h, hblocks]
  cases (ctx.function f).isDeclaration <;> rfl

theorem finalSpelling_eq {fs : List FunctionId} (h : ∀ f ∈ fs, ctx.HasFunction f) :
    finalSpelling ctx fs = some (ctx.finalSpelling fs) := by
  rw [finalSpelling, Context.finalSpelling]
  cases hl : fs.getLast? with
  | none => rfl
  | some f => exact spelling_eq hc (h f (List.mem_of_getLast? hl))

/-- The text of a module can always be written. -/
theorem printModule_eq {m : ModuleId} (h : ctx.HasModule m) : printModule ctx m = some (ctx.printModule m) := by
  have hfs : ∀ f ∈ (ctx.module m).functions.toList, ctx.HasFunction f := (hc.module h).functions
  obtain ⟨horder, hlisted⟩ := nodeOrder_eq hc hfs
  unfold printModule Context.printModule
  rw [module_eq h]
  dsimp only [bind, Option.bind]
  rw [horder]
  dsimp only
  rw [mapM_eq fun f hf => functionText_eq hc (hfs f hf) (ctx.nodeOrder (ctx.module m).functions.toList)]
  dsimp only
  rw [finalSpelling_eq hc hfs]
  dsimp only
  rw [nodeTable_eq hc hlisted, List.map_map]
  rfl

/-! ### Names of values -/

omit hc in
/-- A site is spelled as it is called, or by a number. -/
theorem lookup_assign {next : Nat} {sites : List (Site × Option String)} {site : Site} {text : String}
    (h : (Spelling.assign next sites).lookup site = some text) :
    (site, some text) ∈ sites ∨ ∃ n : Nat, text = toString n := by
  induction sites generalizing next with
  | nil => cases h
  | cons entry sites ih =>
    obtain ⟨first, _ | name⟩ := entry
    · rw [Spelling.assign, List.lookup_cons] at h
      split at h
      · exact .inr ⟨next, (Option.some.inj h).symm⟩
      · exact (ih h).imp_left (.tail _)
    · rw [Spelling.assign, List.lookup_cons] at h
      split at h
      · next hs =>
        rw [← Option.some.inj h, eq_of_beq hs]
        exact .inl (.head _)
      · exact (ih h).imp_left (.tail _)

omit hc in
theorem name_of_mem_sites {f : FunctionId} {v : ValueId} {name : Option String}
    (h : (Site.value v, name) ∈ ctx.sites f) : name = (ctx.value v).name := by
  rcases List.mem_append.mp h with h | h
  · obtain ⟨u, _, hu⟩ := List.mem_map.mp h
    cases hu
    rfl
  · obtain ⟨b, _, hb⟩ := List.mem_flatMap.mp h
    rcases List.mem_cons.mp hb with hb | hb
    · cases hb
    · obtain ⟨u, _, hu⟩ := List.mem_map.mp hb
      cases hu
      rfl

/-- Nothing in a text is taken for the end of a name. -/
def Plain (text : String) : Prop := ∀ c ∈ text.toList, c ≠ '=' ∧ c.isWhitespace = false

omit hc in
theorem not_isWhitespace {c : Char} (h : c.isDigit) : c.isWhitespace = false := by
  cases hw : c.isWhitespace with
  | false => rfl
  | true =>
    simp only [Char.isWhitespace, Bool.or_eq_true, decide_eq_true_eq] at hw
    rcases hw with ((rfl | rfl) | rfl) | rfl <;> cases h

omit hc in
theorem plain_number {mark : String} (hm : Plain mark) (n : Nat) : Plain (mark ++ toString n) := by
  intro c hmem
  rw [String.toList_append] at hmem
  rcases List.mem_append.mp hmem with hmem | hmem
  · exact hm c hmem
  · rw [Nat.toString_eq_ofList_toDigits, String.toList_ofList] at hmem
    have hd : c.isDigit := Nat.isDigit_of_mem_toDigits (by decide) (by decide) hmem
    exact ⟨ne_of_apply_ne Char.isDigit (by rw [hd]; decide), not_isWhitespace hd⟩

/-- What an instruction without a name is called around it. -/
theorem spellingAround_eq {v : ValueId} (h : ctx.HasValue v) (hname : (ctx.value v).name = none) :
    ∃ s, spellingAround ctx v = some s ∧ ctx.localName v = ctx.nameText s v ∧
      ∀ text, s.lookup (.value v) = some text → ∃ n : Nat, text = toString n := by
  rw [spellingAround, functionOf?_eq hc h, Context.localName]
  cases hf : ctx.functionOf? v with
  | none => exact ⟨[], rfl, rfl, nofun⟩
  | some f =>
    refine ⟨ctx.spelling f, spelling_eq hc (hasFunction_of_functionOf? hc h hf), rfl, fun text ht => ?_⟩
    refine (lookup_assign ht).resolve_left fun hin => ?_
    rw [← name_of_mem_sites hin] at hname
    cases hname

omit hc in
theorem plain_nameText {v : ValueId} (hname : (ctx.value v).name = none) {op : Operation}
    (hop : (ctx.value v).operation? = some op) {s : Spelling}
    (hs : ∀ text, s.lookup (.value v) = some text → ∃ n : Nat, text = toString n) : Plain (ctx.nameText s v) := by
  unfold Value.operation? at hop
  rw [Context.nameText]
  split at hop
  · next hkind =>
    rw [hkind]
    dsimp only
    cases hl : s.lookup (.value v) with
    | some text =>
      obtain ⟨n, rfl⟩ := hs text hl
      exact plain_number (by simp [Plain]) n
    | none =>
      rw [hname]
      exact plain_number (by simp [Plain]) v.index
  · cases hop

theorem localName_eq {v : ValueId} (h : ctx.HasValue v) (hname : (ctx.value v).name = none) {op : Operation}
    (hop : (ctx.value v).operation? = some op) (ht : (ctx.typeOf v).isVoid = false) :
    localName ctx v = some (ctx.localName v) := by
  obtain ⟨s, hs, hlocal, hlookup⟩ := spellingAround_eq hc h hname
  have hplain := plain_nameText hname hop hlookup
  have hline : (ctx.instructionText s v).toList = (ctx.nameText s v).toList ++ [' '] ++
      '=' :: ' ' :: (ctx.operationText s (ctx.typeOf v) op).toList := by
    simp [Context.instructionText, hop, ht]
  have hcut : Text.Strict.cut '=' (ctx.instructionText s v).toList =
      some ((ctx.nameText s v).toList ++ [' '], ' ' :: (ctx.operationText s (ctx.typeOf v) op).toList) := by
    rw [hline]
    refine Text.Strict.cut_append (fun c hc => ?_) _
    rcases List.mem_append.mp hc with hc | hc
    · exact (hplain c hc).1
    · rw [List.mem_singleton.mp hc]
      decide
  have htrim : Text.Strict.trim ((ctx.nameText s v).toList ++ [' ']) = (ctx.nameText s v).toList :=
    Text.Strict.trim_append (fun c hc => (hplain c hc).2) (by simp)
  rw [localName, hs, hlocal]
  dsimp only [bind, Option.bind]
  rw [instructionText_eq hc h]
  dsimp only
  rw [hcut]
  dsimp only
  rw [htrim, String.ofList_toList]
  rfl

/-- A value can always be shown. -/
theorem displayName_eq {v : ValueId} (h : ctx.HasValue v) : displayName ctx v = some (ctx.displayName v) := by
  rw [displayName, value_eq h, Context.displayName]
  dsimp only [bind, Option.bind]
  cases hname : (ctx.value v).name with
  | some name => rfl
  | none =>
    cases hop : (ctx.value v).operation? with
    | none => exact operandText_eq hc h []
    | some op =>
      dsimp only
      rw [typeOf_eq h]
      dsimp only
      rw [type_eq (hc.hasType_typeOf h)]
      dsimp only
      cases ht : (ctx.typeOf v).isVoid with
      | true => rfl
      | false => exact localName_eq hc h hname hop ht

end
end Strict
end StackAssembler.IR
