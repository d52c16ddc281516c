import StackAssembler.Proofs.Numbering
import StackAssembler.Proofs.Reachability
import StackAssembler.Proofs.Relocation

/-! The names in the text of a function. Every argument, block and result goes by one name there, at its definition and
wherever it is referred to. -/
namespace StackAssembler.IR

namespace Spelling
variable {s : Spelling} {sites : List (Site × Option String)} {site : Site}

/-- How a site is spelled. -/
def nameOf (s : Spelling) (site : Site) : String := (s.lookup site).getD ""

theorem lookup_eq_nameOf (h : site ∈ s.map Prod.fst) : s.lookup site = some (s.nameOf site) := by
  obtain ⟨text, ht⟩ := Option.isSome_iff_exists.mp ((isSome_lookup s site).mpr h)
  rw [nameOf, ht, Option.getD_some]

theorem lookup_eq_none (h : site ∉ s.map Prod.fst) : s.lookup site = none := by
  rwa [← isSome_lookup, Option.not_isSome_iff_eq_none] at h

theorem nameOf_cons_self (text : String) : nameOf ((site, text) :: s) site = text := by
  rw [nameOf, List.lookup_cons_self, Option.getD_some]

theorem nameOf_cons_of_ne {other : Site} (h : site ≠ other) (text : String) :
    nameOf ((other, text) :: s) site = s.nameOf site := by
  rw [nameOf, List.lookup_cons, beq_false_of_ne h, nameOf]

/-- A name that was given stands. -/
theorem nameOf_assign_of_named (hn : (sites.map Prod.fst).Nodup) {name : String} (h : (site, some name) ∈ sites)
    (next : Nat) : (assign next sites).nameOf site = name := by
  induction sites generalizing next with
  | nil => cases h
  | cons entry sites ih =>
    obtain ⟨hfresh, htail⟩ := List.nodup_cons.mp hn
    rcases List.mem_cons.mp h with rfl | hin
    · exact nameOf_cons_self name
    · have hne : site ≠ entry.1 := fun he => hfresh (he ▸ List.mem_map_of_mem hin)
      obtain ⟨first, _ | text⟩ := entry
      · exact (nameOf_cons_of_ne hne _).trans (ih htail hin (next + 1))
      · exact (nameOf_cons_of_ne hne _).trans (ih htail hin next)

/-- The other sites get the next numbers one after the other. -/
theorem map_nameOf_assign (hn : (sites.map Prod.fst).Nodup) (next : Nat) :
    (sites.filter (·.2.isNone)).map (fun entry => (assign next sites).nameOf entry.1) =
      (List.range' next (unnamed sites)).map toString := by
  induction sites generalizing next with
  | nil => rfl
  | cons entry sites ih =>
    obtain ⟨hfresh, htail⟩ := List.nodup_cons.mp hn
    have hne : ∀ other ∈ sites.filter (·.2.isNone), other.1 ≠ entry.1 := fun other hin he =>
      hfresh (he ▸ List.mem_map_of_mem (List.mem_of_mem_filter hin))
    obtain ⟨first, _ | text⟩ := entry
    · have hrest : (sites.filter (·.2.isNone)).map (fun other => (assign next ((first, none) :: sites)).nameOf other.1)
          = (List.range' (next + 1) (unnamed sites)).map toString := by
        rw [← ih htail (next + 1)]
        exact List.map_congr_left fun other hin => nameOf_cons_of_ne (hne other hin) _
      rw [List.filter_cons_of_pos rfl, List.map_cons, hrest, unnamed_cons]
      change nameOf ((first, toString next) :: _) first :: _ = _
      rw [nameOf_cons_self]
      rfl
    · rw [List.filter_cons_of_neg (by simp), unnamed_cons]
      exact (List.map_congr_left fun other hin => nameOf_cons_of_ne (hne other hin) _).trans (ih htail next)

end Spelling

/-- Of the sites of some kind, no two are given the same name, and none is given the number of another. -/
structure Unambiguous (sites : List (Site × Option String)) (names : Site → String) (P : Site → Prop) : Prop where
  distinct : ∀ s t name, (s, some name) ∈ sites → (t, some name) ∈ sites → P s → P t → s = t
  unnumbered : ∀ s t name, (s, some name) ∈ sites → (t, none) ∈ sites → P s → P t → name ≠ names t

namespace Context
variable {ctx : Context} {f : FunctionId}

/-! ### Sites -/

/-- Whether the text of a function gives a name to a site. -/
def Names (ctx : Context) (f : FunctionId) (site : Site) : Prop := site ∈ (ctx.sites f).map Prod.fst

instance (ctx : Context) (f : FunctionId) (site : Site) : Decidable (ctx.Names f site) :=
  inferInstanceAs (Decidable (_ ∈ _))

theorem names_value_iff {v : ValueId} :
    ctx.Names f (.value v) ↔ v ∈ (ctx.function f).args ∨
      ∃ b ∈ (ctx.function f).blocks, v ∈ (ctx.block b).instructions ∧ (ctx.typeOf v).isVoid = false := by
  simp [Names, sites, blockSites]

theorem names_block_iff {b : BlockId} : ctx.Names f (.block b) ↔ b ∈ (ctx.function f).blocks := by
  simp [Names, sites, blockSites]

/-- A value that a function's text names is an argument of the function or stands in one of its blocks. -/
theorem Names.kind (hc : Coherent ctx) (hf : ctx.HasFunction f) {v : ValueId} (h : ctx.Names f (.value v)) :
    (∃ i, (ctx.value v).kind = .argument f i) ∨
      ∃ op b, (ctx.value v).kind = .instruction op b ∧ (ctx.block b).function = some f := by
  rcases names_value_iff.mp h with h | ⟨b, hb, hv, _⟩
  · obtain ⟨i, hi⟩ := List.mem_iff_getElem?.mp h
    exact .inl ⟨i, (hc.registered.args f i v hf hi).2⟩
  · obtain ⟨op, hop⟩ := (hc.placed.listed v b).mp hv
    exact .inr ⟨op, b, hop, (hc.adopted.listed f b).mp hb⟩

/-- No two functions name the same value. -/
theorem Names.unique (hc : Coherent ctx) {g : FunctionId} (hf : ctx.HasFunction f) (hg : ctx.HasFunction g)
    {v : ValueId} (h : ctx.Names f (.value v)) (h' : ctx.Names g (.value v)) : f = g := by
  rcases h.kind hc hf with ⟨i, hi⟩ | ⟨op, b, hop, hb⟩ <;> rcases h'.kind hc hg with ⟨j, hj⟩ | ⟨op', c, hop', hb'⟩
  · rw [hi] at hj
    cases hj
    rfl
  · rw [hi] at hop'
    cases hop'
  · rw [hop] at hj
    cases hj
  · rw [hop] at hop'
    cases hop'
    exact Option.some.inj (hb.symm.trans hb')

/-- The results of a block, behind the block. -/
theorem map_fst_blockSites (b : BlockId) : (ctx.blockSites b).map Prod.fst =
    .block b :: ((ctx.block b).instructions.toList.filter fun v => !(ctx.typeOf v).isVoid).map .value := by
  simp [blockSites]

theorem nodup_args (hc : Coherent ctx) (hf : ctx.HasFunction f) : (ctx.function f).args.Nodup := by
  refine List.nodup_iff_getElem?_ne_getElem?.mpr fun i j hij hj h => ?_
  have hv := List.getElem?_eq_getElem hj
  have hi := (hc.registered.args f i _ hf (h.trans hv)).2
  have hj := (hc.registered.args f j _ hf hv).2
  rw [hi] at hj
  cases hj
  exact Nat.lt_irrefl _ hij

theorem kind_of_mem_blockSites (hc : Coherent ctx) {b : BlockId} {site : Site}
    (h : site ∈ (ctx.blockSites b).map Prod.fst) :
    site = .block b ∨ ∃ v op, site = .value v ∧ (ctx.value v).kind = .instruction op b := by
  rw [map_fst_blockSites] at h
  refine (List.mem_cons.mp h).imp_right fun h => ?_
  obtain ⟨v, hv, rfl⟩ := List.mem_map.mp h
  obtain ⟨op, hop⟩ := (hc.placed.listed v b).mp (Array.mem_toList_iff.mp (List.mem_of_mem_filter hv))
  exact ⟨v, op, rfl, hop⟩

/-- Every site is there once. -/
theorem nodup_sites (hc : Coherent ctx) (hf : ctx.HasFunction f) : ((ctx.sites f).map Prod.fst).Nodup := by
  have hinj : Function.Injective Site.value := fun _ _ h => Site.value.inj h
  rw [sites, List.map_append, List.map_map, List.map_flatMap]
  refine List.Nodup.append ((nodup_args hc hf).map hinj) (List.nodup_flatMap.mpr ⟨fun b _ => ?_, ?_⟩) ?_
  · rw [map_fst_blockSites]
    exact List.nodup_cons.mpr ⟨by simp, ((hc.placed.once b).filter _).map hinj⟩
  · -- An instruction stands in one block only.
    refine (hc.adopted.once f).imp fun {b c} hne site hb hin => hne ?_
    rcases kind_of_mem_blockSites hc hb with rfl | ⟨v, op, rfl, hop⟩ <;>
      rcases kind_of_mem_blockSites hc hin with hs | ⟨u, op', hs, hop'⟩ <;> cases hs
    · rfl
    · rw [hop] at hop'
      cases hop'
      rfl
  · -- No argument stands in a block.
    intro site hargs hin
    obtain ⟨b, _, hb⟩ := List.mem_flatMap.mp hin
    obtain ⟨u, hu, rfl⟩ := List.mem_map.mp hargs
    obtain ⟨i, hi⟩ := List.mem_iff_getElem?.mp hu
    rcases kind_of_mem_blockSites hc hb with hs | ⟨v, op, hs, hop⟩ <;> cases hs
    rw [(hc.registered.args f i u hf hi).2] at hop
    cases hop

end Context

/-! ### Operations -/

/-- A part of the text of an operation: fixed, or left open for a value or for a block. -/
inductive Part where
  | text (s : String)
  | gap (site : Site)
  deriving DecidableEq, Repr

namespace Part

/-- The value that a part is left open for. -/
def value? : Part → Option ValueId
  | gap (.value v) => some v
  | _ => none

/-- The block that a part is left open for. -/
def block? : Part → Option BlockId
  | gap (.block b) => some b
  | _ => none

def write (spell : Site → String) : Part → String
  | text s => s
  | gap site => spell site

/-- The text of some parts with the gaps filled. -/
def fill (spell : Site → String) (parts : List Part) : String := String.join (parts.map (write spell))

section
variable (spell : Site → String)

@[simp] theorem fill_nil : fill spell [] = "" := String.join_nil

@[simp] theorem fill_cons (part : Part) (parts : List Part) :
    fill spell (part :: parts) = part.write spell ++ fill spell parts := by
  rw [fill, List.map_cons, String.join_cons, fill]

@[simp] theorem fill_append (xs ys : List Part) : fill spell (xs ++ ys) = fill spell xs ++ fill spell ys := by
  rw [fill, List.map_append, String.join_append, fill, fill]

theorem fill_intercalate (separator : String) (items : List (List Part)) :
    fill spell ([text separator].intercalate items) = separator.intercalate (items.map (fill spell)) := by
  induction items with
  | nil => rfl
  | cons item items ih =>
    cases items with
    | nil => simp [List.intercalate_singleton, String.intercalate_singleton]
    | cons next items =>
      rw [List.intercalate_cons_cons, fill_append, fill_append, ih]
      simp [String.intercalate_cons_cons, write]

end

theorem filterMap_intercalate {α : Type} {gap? : Part → Option α} {separator : Part} (h : gap? separator = none)
    (items : List (List Part)) :
    ([separator].intercalate items).filterMap gap? = items.flatMap (List.filterMap gap?) := by
  induction items with
  | nil => rfl
  | cons item items ih =>
    cases items with
    | nil => simp [List.intercalate_singleton]
    | cons next items =>
      rw [List.intercalate_cons_cons, List.filterMap_append, List.filterMap_append, ih, List.filterMap_cons_none h]
      simp

end Part

namespace Context

/-- A value behind its type. -/
def operandTemplate (ctx : Context) (v : ValueId) : List Part :=
  [.text ((ctx.typeOf v).name ++ " "), .gap (.value v)]

/-- The text of an operation that has a result of type `t`, open for the names of operands and blocks. -/
def template (ctx : Context) (t : Ty) : Operation → List Part
  | .alloca allocated => [.text ("alloca " ++ allocated.name)]
  | .load pointer => .text ("load " ++ t.name ++ ", ") :: ctx.operandTemplate pointer
  | .store value pointer =>
    .text "store " :: ctx.operandTemplate value ++ .text ", " :: ctx.operandTemplate pointer
  | .binary op lhs rhs =>
    .text (op.mnemonic ++ " ") :: ctx.operandTemplate lhs ++ [.text ", ", .gap (.value rhs)]
  | .icmp p lhs rhs =>
    .text ("icmp " ++ p.keyword ++ " ") :: ctx.operandTemplate lhs ++ [.text ", ", .gap (.value rhs)]
  | .fcmp p lhs rhs =>
    .text ("fcmp " ++ p.keyword ++ " ") :: ctx.operandTemplate lhs ++ [.text ", ", .gap (.value rhs)]
  | .cast op value => .text (op.mnemonic ++ " ") :: ctx.operandTemplate value ++ [.text (" to " ++ t.name)]
  | .phi incoming => .text ("phi " ++ t.name ++ " ") :: [.text ", "].intercalate (incoming.map fun edge =>
      [.text "[ ", .gap (.value edge.1), .text ", ", .gap (.block edge.2), .text " ]"])
  | .br dest => [.text "br label ", .gap (.block dest)]
  | .condBr cond onTrue onFalse =>
    .text "br " :: ctx.operandTemplate cond ++
      [.text ", label ", .gap (.block onTrue), .text ", label ", .gap (.block onFalse)]
  | .call callee args =>
    .text ("call " ++ t.name ++ " @" ++ (ctx.function callee).name ++ "(") ::
      [.text ", "].intercalate (args.map ctx.operandTemplate) ++ [.text ")"]
  | .ret (some value) => .text "ret " :: ctx.operandTemplate value
  | .ret none => [.text "ret void"]

/-- A value or a label in a text. -/
def siteText (ctx : Context) (s : Spelling) : Site → String
  | .value v => ctx.nameText s v
  | .block b => ctx.labelText s b

section
variable (ctx : Context) (s : Spelling) (t : Ty) (op : Operation)

/-- The values that a template is open for are the operands. -/
theorem values_template : (ctx.template t op).filterMap Part.value? = op.operands := by
  cases op with
  | phi incoming =>
    rw [template, List.filterMap_cons_none rfl, Part.filterMap_intercalate rfl, List.flatMap_map, Operation.operands,
      List.map_eq_flatMap]
    rfl
  | call f args =>
    rw [template, List.filterMap_append, List.filterMap_cons_none rfl, Part.filterMap_intercalate rfl, List.flatMap_map]
    change args.flatMap (fun v => [v]) ++ [] = args
    simp
  | ret v => cases v <;> rfl
  | _ => rfl

/-- The blocks that a template is open for are those that the operation names. -/
theorem blocks_template : (ctx.template t op).filterMap Part.block? = op.targets := by
  cases op with
  | phi incoming =>
    rw [template, List.filterMap_cons_none rfl, Part.filterMap_intercalate rfl, List.flatMap_map, Operation.targets,
      List.map_eq_flatMap]
    rfl
  | call f args =>
    rw [template, List.filterMap_append, List.filterMap_cons_none rfl, Part.filterMap_intercalate rfl, List.flatMap_map]
    change args.flatMap (fun _ => []) ++ [] = []
    simp
  | ret v => cases v <;> rfl
  | _ => rfl

theorem operationText_eq_fill : ctx.operationText s t op = Part.fill (ctx.siteText s) (ctx.template t op) := by
  have operand : ∀ v, Part.fill (ctx.siteText s) (ctx.operandTemplate v) = ctx.operandText s v := fun v => by
    simp [operandTemplate, operandText, Part.write, siteText]
  cases op with
  | phi incoming =>
    have edges : incoming.map (fun edge => Part.fill (ctx.siteText s)
        [.text "[ ", .gap (.value edge.1), .text ", ", .gap (.block edge.2), .text " ]"]) =
      incoming.map fun edge => "[ " ++ ctx.nameText s edge.1 ++ ", " ++ ctx.labelText s edge.2 ++ " ]" :=
      List.map_congr_left fun edge _ => by simp [Part.write, siteText, String.append_assoc]
    rw [operationText, template, Part.fill_cons, Part.fill_intercalate, List.map_map]
    simp only [Function.comp_def, edges, Part.write, Ty.commas]
  | call f args =>
    have texts : args.map (fun v => Part.fill (ctx.siteText s) (ctx.operandTemplate v)) =
        args.map (ctx.operandText s) := List.map_congr_left fun v _ => operand v
    rw [operationText, template, Part.fill_append, Part.fill_cons, Part.fill_intercalate, List.map_map]
    simp [Function.comp_def, texts, Part.write, Ty.commas]
  | ret v => cases v <;> simp [operationText, template, Part.write, operand]
  | _ => simp [operationText, template, Part.write, siteText, operand, String.append_assoc]

end

/-! ### Functions -/

/-- A value or a label in the text of a function whose sites go by the given names. -/
def spell (ctx : Context) (f : FunctionId) (names : Site → String) (site : Site) : String :=
  if ctx.Names f site then "%" ++ names site else ctx.siteText [] site

/-- An instruction in the text of its function. -/
def lineText (ctx : Context) (order : List NodeId) (v : ValueId) : String :=
  "  " ++ ctx.printInstruction v ++ ctx.attachmentText order v ++ "\n"

/-- A block behind its name. -/
def namedBlockText (ctx : Context) (names : Site → String) (order : List NodeId) (b : BlockId) : String :=
  names (.block b) ++ ":\n" ++ String.join ((ctx.block b).instructions.toList.map (ctx.lineText order))

def namedParameterText (ctx : Context) (names : Site → String) (v : ValueId) : String :=
  (ctx.typeOf v).name ++ " " ++ ("%" ++ names (.value v))

/-- What stands in front of the blocks of a function whose sites go by the given names. -/
def namedHeadingText (ctx : Context) (names : Site → String) (order : List NodeId) (f : Function) : String :=
  "define " ++ f.linkage.keyword ++ f.result.name ++ " @" ++ f.name ++ "(" ++
    Ty.commas (f.args.map (ctx.namedParameterText names) ++ if f.variadic then ["..."] else []) ++ ")" ++
    ctx.attachmentText order f.value

/-- The text of a function that has blocks and whose sites go by the given names. -/
def definitionText (ctx : Context) (names : Site → String) (order : List NodeId) (f : Function) : String :=
  ctx.namedHeadingText names order f ++ " \x7b\n" ++
    "\n".intercalate (f.blocks.toList.map (ctx.namedBlockText names order)) ++ "\x7d\n"

/-- The text of a function gives its sites these names, and refers to them by these names. -/
structure NamedBy (ctx : Context) (f : FunctionId) (names : Site → String) : Prop where
  values : ∀ v, ctx.Names f (.value v) ↔ v ∈ (ctx.function f).args ∨
    ∃ b ∈ (ctx.function f).blocks, v ∈ (ctx.block b).instructions ∧ (ctx.typeOf v).isVoid = false
  blocks : ∀ b, ctx.Names f (.block b) ↔ b ∈ (ctx.function f).blocks
  once : ((ctx.sites f).map Prod.fst).Nodup
  /-- Sites that have no name of their own are numbered in the order of the text. -/
  numbers : ((ctx.sites f).filter (·.2.isNone)).map (fun entry => names entry.1) =
    (List.range (Spelling.unnamed (ctx.sites f))).map toString
  own : ∀ site name, (site, some name) ∈ ctx.sites f → names site = name
  definition : (ctx.function f).isDeclaration = false → ∀ order,
    ctx.functionText order f = ctx.definitionText names order (ctx.function f)
  /-- What an instruction refers to is spelled by these names, too. -/
  instruction : ∀ b ∈ (ctx.function f).blocks, ∀ v ∈ (ctx.block b).instructions, ∃ op,
    (ctx.value v).kind = .instruction op b ∧
    (ctx.template (ctx.typeOf v) op).filterMap Part.value? = op.operands ∧
    (ctx.template (ctx.typeOf v) op).filterMap Part.block? = op.targets ∧
    ctx.printInstruction v = (if (ctx.typeOf v).isVoid then "" else "%" ++ names (.value v) ++ " = ") ++
      Part.fill (ctx.spell f names) (ctx.template (ctx.typeOf v) op)

variable {ctx : Context} {f : FunctionId}

section
variable (hc : Coherent ctx) (hf : ctx.HasFunction f)
include hc hf

/-- In the text of a function, what it names is spelled by that name, and everything else as on its own. -/
theorem siteText_spelling (site : Site) :
    ctx.siteText (ctx.spelling f) site = ctx.spell f (ctx.spelling f).nameOf site := by
  have hkeys : (ctx.spelling f).map Prod.fst = (ctx.sites f).map Prod.fst := Spelling.map_fst_assign 0 (ctx.sites f)
  unfold spell
  split
  · next h =>
    have hl : (ctx.spelling f).lookup site = some ((ctx.spelling f).nameOf site) := by
      apply Spelling.lookup_eq_nameOf
      rwa [hkeys]
    cases site with
    | block b => rw [siteText, labelText, hl]
    | value v =>
      rw [siteText, nameText]
      rcases h.kind hc hf with ⟨i, hk⟩ | ⟨op, b, hk, _⟩ <;> rw [hk] <;> dsimp only <;> rw [hl]
  · next h =>
    have hl : (ctx.spelling f).lookup site = none := by
      apply Spelling.lookup_eq_none
      rwa [hkeys]
    cases site with
    | block b => simp only [siteText, labelText, hl, List.lookup_nil]
    | value v => simp only [siteText, nameText, hl, List.lookup_nil]

theorem nameText_of_names {v : ValueId} (h : ctx.Names f (.value v)) :
    ctx.nameText (ctx.spelling f) v = "%" ++ (ctx.spelling f).nameOf (.value v) :=
  (siteText_spelling hc hf (.value v)).trans (if_pos h)

omit hf in
/-- An instruction on its own has the line that it has in the text of its function. -/
theorem printInstruction_eq {b : BlockId} (hb : b ∈ (ctx.function f).blocks) {v : ValueId}
    (hv : v ∈ (ctx.block b).instructions) : ctx.printInstruction v = ctx.instructionText (ctx.spelling f) v := by
  obtain ⟨op, hop⟩ := (hc.placed.listed v b).mp hv
  have howner : ctx.functionOf? v = some f := by
    rw [functionOf?, Value.block?, hop]
    exact (hc.adopted.listed f b).mp hb
  rw [printInstruction, howner]

omit hf in
theorem blockText_eq_named {b : BlockId} (hb : b ∈ (ctx.function f).blocks) (order : List NodeId) :
    ctx.blockText (ctx.spelling f) order b = ctx.namedBlockText (ctx.spelling f).nameOf order b := by
  have lines : (ctx.block b).instructions.toList.map (fun v =>
      "  " ++ ctx.instructionText (ctx.spelling f) v ++ ctx.attachmentText order v ++ "\n") =
        (ctx.block b).instructions.toList.map (ctx.lineText order) := by
    refine List.map_congr_left fun v hv => ?_
    rw [← printInstruction_eq hc hb (Array.mem_toList_iff.mp hv), lineText]
  rw [blockText, lines, namedBlockText, Spelling.nameOf]

theorem headingText_eq_named (hd : (ctx.function f).isDeclaration = false) (order : List NodeId) :
    ctx.headingText (ctx.spelling f) order (ctx.function f) =
      ctx.namedHeadingText (ctx.spelling f).nameOf order (ctx.function f) := by
  have parameters : (ctx.function f).args.map (ctx.operandText (ctx.spelling f)) =
      (ctx.function f).args.map (ctx.namedParameterText (ctx.spelling f).nameOf) := by
    refine List.map_congr_left fun v hv => ?_
    rw [operandText, nameText_of_names hc hf (names_value_iff.mpr (.inl hv)), namedParameterText]
  simp only [headingText, parameterText, hd, Bool.false_eq_true, if_false, parameters]
  rfl

theorem functionText_definition (hd : (ctx.function f).isDeclaration = false) (order : List NodeId) :
    ctx.functionText order f = ctx.definitionText (ctx.spelling f).nameOf order (ctx.function f) := by
  have blocks : (ctx.function f).blocks.toList.map (ctx.blockText (ctx.spelling f) order) =
      (ctx.function f).blocks.toList.map (ctx.namedBlockText (ctx.spelling f).nameOf order) :=
    List.map_congr_left fun b hb => blockText_eq_named hc (Array.mem_toList_iff.mp hb) order
  simp only [functionText, hd, Bool.false_eq_true, if_false, headingText_eq_named hc hf hd, blocks, definitionText]

theorem namedBy : ctx.NamedBy f (ctx.spelling f).nameOf where
  values _ := names_value_iff
  blocks _ := names_block_iff
  once := nodup_sites hc hf
  numbers := by
    rw [List.range_eq_range']
    exact Spelling.map_nameOf_assign (nodup_sites hc hf) 0
  own site name h := Spelling.nameOf_assign_of_named (nodup_sites hc hf) h 0
  definition := functionText_definition hc hf
  instruction b hb v hv := by
    obtain ⟨op, hop⟩ := (hc.placed.listed v b).mp hv
    refine ⟨op, hop, values_template ctx (ctx.typeOf v) op, blocks_template ctx (ctx.typeOf v) op, ?_⟩
    have body := operationText_eq_fill ctx (ctx.spelling f) (ctx.typeOf v) op
    rw [funext (siteText_spelling hc hf)] at body
    rw [printInstruction_eq hc hb hv, instructionText, Value.operation?, hop]
    dsimp only
    rw [body]
    cases ht : (ctx.typeOf v).isVoid with
    | true => simp
    | false =>
      have hname : ctx.Names f (.value v) := names_value_iff.mpr (.inr ⟨b, hb, hv, ht⟩)
      rw [nameText_of_names hc hf hname]
      simp

end

namespace NamedBy
variable {names : Site → String} (h : ctx.NamedBy f names)
include h

/-- Sites without names of their own have different numbers. -/
theorem numbers_inj {s t : Site} (hs : (s, none) ∈ ctx.sites f) (ht : (t, none) ∈ ctx.sites f)
    (he : names s = names t) : s = t := by
  have hinj : Function.Injective (toString : Nat → String) := fun n k hnk => number_inj (congrArg ("%" ++ ·) hnk)
  have hn : (((ctx.sites f).filter (·.2.isNone)).map fun entry => names entry.1).Nodup := by
    rw [h.numbers]
    exact List.nodup_range.map hinj
  have hin : ∀ u, (u, none) ∈ ctx.sites f → (u, none) ∈ (ctx.sites f).filter (·.2.isNone) := fun u hu =>
    List.mem_filter.mpr ⟨hu, rfl⟩
  exact congrArg Prod.fst (List.inj_on_of_nodup_map hn (hin s hs) (hin t ht) he)

/-- Two sites of some kind have the same name only if two of the given names are the same, or one is a number. -/
theorem inj_iff (P : Site → Prop) :
    (∀ s t, ctx.Names f s → ctx.Names f t → P s → P t → names s = names t → s = t) ↔
      Unambiguous (ctx.sites f) names P := by
  have named : ∀ {s name}, (s, name) ∈ ctx.sites f → ctx.Names f s := fun hs => List.mem_map_of_mem hs
  constructor
  · intro hinj
    refine ⟨fun s t name hs ht => ?_, fun s t name hs ht hps hpt he => ?_⟩
    · exact fun hps hpt => hinj s t (named hs) (named ht) hps hpt ((h.own s name hs).trans (h.own t name ht).symm)
    · obtain rfl := hinj s t (named hs) (named ht) hps hpt ((h.own s name hs).trans he)
      have hsame : (s, some name) = (s, none) := List.inj_on_of_nodup_map h.once hs ht rfl
      cases hsame
  · intro hu s t hs ht hps hpt he
    obtain ⟨⟨s, name⟩, hsite, rfl⟩ := List.mem_map.mp hs
    obtain ⟨⟨t, name'⟩, htsite, rfl⟩ := List.mem_map.mp ht
    cases name with
    | none =>
      cases name' with
      | none => exact h.numbers_inj hsite htsite he
      | some name' =>
        have hnumber : name' = names s := (h.own t name' htsite).symm.trans he.symm
        exact absurd hnumber (hu.unnumbered t s name' htsite hsite hpt hps)
    | some name =>
      have hname : name = names t := (h.own s name hsite).symm.trans he
      cases name' with
      | none => exact absurd hname (hu.unnumbered s t name hsite htsite hps hpt)
      | some name' =>
        obtain rfl : name = name' := hname.trans (h.own t name' htsite)
        exact hu.distinct s t name hsite htsite hps hpt

/-- There are no two ways to name the sites of a function. -/
theorem unique {names' : Site → String} (h' : ctx.NamedBy f names') {site : Site} (hs : ctx.Names f site) :
    names site = names' site := by
  obtain ⟨⟨site, name⟩, hin, rfl⟩ := List.mem_map.mp hs
  cases name with
  | none =>
    have hsame := List.map_inj_left.mp (h.numbers.trans h'.numbers.symm)
    exact hsame (site, none) (List.mem_filter.mpr ⟨hin, rfl⟩)
  | some name => exact (h.own site name hin).trans (h'.own site name hin).symm

end NamedBy

end Context
end StackAssembler.IR

namespace StackAssembler.Build
open IR

theorem Reachable.coherent {m : Machine} (h : Reachable m) : Coherent m.context := by
  obtain ⟨layout, hl⟩ := h.leads
  exact (Coherent.empty layout).evolve hl.evolves

/-- Each function has names for its arguments, blocks and results, from which its text is made. Those of some kind, say
of the values or of the blocks, are all different if and only if that can be seen from the given names. -/
theorem Reachable.functions_named {m : Machine} (h : Reachable m) {f : FunctionId} (hf : m.context.HasFunction f) :
    ∃ names, m.context.NamedBy f names ∧ ∀ P : Site → Prop,
      (∀ s t, m.context.Names f s → m.context.Names f t → P s → P t → names s = names t → s = t) ↔
        Unambiguous (m.context.sites f) names P := by
  have hnamed := Context.namedBy h.coherent hf
  exact ⟨_, hnamed, hnamed.inj_iff⟩

/-- A function of two blocks without names. The first has a variable, and passes the argument's double on. -/
def Command.unlabelled : List Command :=
  [.request (.intern (.int 32)), .request (.intern (.function (.int 32) [.int 32] false)), .request (.addModule "m"),
    .request (.addFunction ⟨0⟩ "f" (.function (.int 32) [.int 32] false) .external),
    .request (.appendBlock ⟨0⟩ none), .request (.appendBlock ⟨0⟩ none),
    .emit (some ⟨0⟩) (.alloca (.int 32) (some "x")), .emit (some ⟨0⟩) (.binary .add ⟨1⟩ ⟨1⟩),
    .emit (some ⟨0⟩) (.br ⟨1⟩), .emit (some ⟨1⟩) (.ret ⟨3⟩)]

def Machine.unlabelled : Machine := Machine.runAll {} Command.unlabelled

theorem Reachable.unlabelled : Reachable Machine.unlabelled := ⟨{}, .of_permits Command.unlabelled (by decide +kernel)⟩

/-- The argument, the labels and the sum are numbered as they come in the text, and the variable keeps its name. The
branch refers to a label that is only defined behind it. -/
theorem Reachable.functions_named_unlabelled : ∃ names : Site → String,
    [names (.value ⟨1⟩), names (.block ⟨0⟩), names (.value ⟨3⟩), names (.block ⟨1⟩)] = ["0", "1", "2", "3"] ∧
    names (.value ⟨2⟩) = "x" ∧
    Machine.unlabelled.context.functionText [] ⟨0⟩ =
      Machine.unlabelled.context.definitionText names [] (Machine.unlabelled.context.function ⟨0⟩) ∧
    Machine.unlabelled.context.printInstruction ⟨3⟩ =
      "%" ++ names (.value ⟨3⟩) ++ " = add i32 %" ++ names (.value ⟨1⟩) ++ ", %" ++ names (.value ⟨1⟩) ∧
    Machine.unlabelled.context.printInstruction ⟨4⟩ = "br label %" ++ names (.block ⟨1⟩) ∧
    ∀ s t, Machine.unlabelled.context.Names ⟨0⟩ s → Machine.unlabelled.context.Names ⟨0⟩ t → names s = names t →
      s = t := by
  have hsites : Machine.unlabelled.context.sites ⟨0⟩ = [(.value ⟨1⟩, none), (.block ⟨0⟩, none),
      (.value ⟨2⟩, some "x"), (.value ⟨3⟩, none), (.block ⟨1⟩, none)] := by decide +kernel
  obtain ⟨names, hnamed, hinj⟩ := Reachable.functions_named .unlabelled (f := ⟨0⟩) (by decide +kernel)
  have hnumbers : [names (.value ⟨1⟩), names (.block ⟨0⟩), names (.value ⟨3⟩), names (.block ⟨1⟩)] =
      ["0", "1", "2", "3"] := by
    have h := hnamed.numbers
    rwa [hsites] at h
  have hown : names (.value ⟨2⟩) = "x" := hnamed.own _ _ (by rw [hsites]; simp)
  have hsum : Machine.unlabelled.context.printInstruction ⟨3⟩ = "%2 = add i32 %0, %0" := by decide +kernel
  have hbranch : Machine.unlabelled.context.printInstruction ⟨4⟩ = "br label %3" := by decide +kernel
  refine ⟨names, hnumbers, hown, hnamed.definition (by decide +kernel) [], ?_⟩
  simp only [List.cons.injEq] at hnumbers
  obtain ⟨h0, h1, h2, h3, -⟩ := hnumbers
  -- The only name that is given is the variable's, and it is no number.
  have hclear : Unambiguous (Machine.unlabelled.context.sites ⟨0⟩) names (fun _ => True) := by
    rw [hsites]
    constructor
    · intro s t name hs ht _ _
      obtain ⟨rfl, -⟩ : s = .value ⟨2⟩ ∧ name = "x" := by simpa using hs
      obtain ⟨rfl, -⟩ : t = .value ⟨2⟩ ∧ name = "x" := by simpa using ht
      rfl
    · intro s t name hs ht _ _
      obtain ⟨-, rfl⟩ : s = .value ⟨2⟩ ∧ name = "x" := by simpa using hs
      obtain rfl | rfl | rfl | rfl : t = .value ⟨1⟩ ∨ t = .block ⟨0⟩ ∨ t = .value ⟨3⟩ ∨ t = .block ⟨1⟩ := by
        simpa using ht
      all_goals simp [h0, h1, h2, h3]
  refine ⟨?_, ?_, fun s t hs ht => (hinj _).mpr hclear s t hs ht trivial trivial⟩
  · rw [hsum, h0, h2]
    rfl
  · rw [hbranch, h3]
    rfl

end StackAssembler.Build
