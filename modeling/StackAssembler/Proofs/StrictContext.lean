import StackAssembler.Proofs.Closed
import StackAssembler.Proofs.StrictArithmetic

/-! Reading the tables of a context, with no answer where there is no entry. In a closed context there is an answer to
whatever is asked about known handles. -/
namespace StackAssembler.IR
namespace Strict

section
variable (ctx : Context)

/-! ### Entries -/

def value (v : ValueId) : Option Value := ctx.values[v.index]?

def block (b : BlockId) : Option Block := ctx.blocks[b.index]?

def function (f : FunctionId) : Option Function := ctx.functions[f.index]?

def module (m : ModuleId) : Option Module := ctx.modules[m.index]?

def node (n : NodeId) : Option Node := ctx.nodes[n.index]?

/-- The entry of a type. -/
def type (t : Ty) : Option Ty := if ctx.HasType t then some t else none

/-- The name of a type, which takes the entries of all its parts. -/
def typeName (t : Ty) : Option String := if ∀ p ∈ t.parts, ctx.HasType p then some t.name else none

/-- The size of a type in memory, which takes the entries of its parts. -/
def allocSize? (t : Ty) : Option (Option Nat) :=
  if ∀ p ∈ t.parts, ctx.HasType p then allocSize ctx.layout t else none

/-- The size of a type in bits, which takes the entries of its parts. -/
def sizeInBits? (t : Ty) : Option (Option Nat) :=
  if ∀ p ∈ t.parts, ctx.HasType p then sizeInBits ctx.layout t else none

/-! ### What is asked about entries -/

def typeOf (v : ValueId) : Option Ty := return (← value ctx v).type

def payload? (v : ValueId) : Option (Option Nat) := do
  match (← value ctx v).kind with
  | .constant (.int payload) => return some payload
  | _ => return none

def signed? (v : ValueId) : Option (Option Int) := do
  match ← payload? ctx v with
  | none => return none
  | some payload =>
    match (← type ctx (← typeOf ctx v)).width? with
    | none => return none
    | some width => return some (← signed width payload)

/-- The first of some functions that has a name. -/
def findNamed? (name : String) : List FunctionId → Option (Option FunctionId)
  | [] => return none
  | f :: fs => do if (← function ctx f).name = name then return some f else findNamed? name fs

def findFunction? (m : ModuleId) (name : String) : Option (Option FunctionId) := do
  findNamed? ctx name (← module ctx m).functions.toList

def blockLabel (b : BlockId) : Option String := do
  match (← block ctx b).name with
  | some name => return name
  | none => return "bb" ++ toString b.index

def terminator? (b : BlockId) : Option (Option ValueId) := do
  match (← block ctx b).instructions.back? with
  | none => return none
  | some last =>
    match (← value ctx last).operation? with
    | none => return none
    | some op => return if op.isTerminator then some last else none

/-- The function whose block an instruction stands in. -/
def functionOf? (v : ValueId) : Option (Option FunctionId) := do
  match (← value ctx v).block? with
  | none => return none
  | some b => return (← block ctx b).function

end

/-! ### Answers -/

section
variable {ctx : Context}

private theorem entry {α : Type} {xs : Array α} {i : Nat} (h : i < xs.size) (d : α) : xs[i]? = some (xs.getD i d) := by
  rw [Array.getD_eq_getD_getElem?, Array.getElem?_eq_getElem h]
  rfl

theorem value_eq {v : ValueId} (h : ctx.HasValue v) : value ctx v = some (ctx.value v) := entry h _

theorem block_eq {b : BlockId} (h : ctx.HasBlock b) : block ctx b = some (ctx.block b) := entry h _

theorem function_eq {f : FunctionId} (h : ctx.HasFunction f) : function ctx f = some (ctx.function f) := entry h _

theorem module_eq {m : ModuleId} (h : ctx.HasModule m) : module ctx m = some (ctx.module m) := entry h _

theorem node_eq {n : NodeId} (h : ctx.HasNode n) : node ctx n = some (ctx.node n) := entry h _

theorem type_eq {t : Ty} (h : ctx.HasType t) : type ctx t = some t := if_pos h

theorem typeOf_eq {v : ValueId} (h : ctx.HasValue v) : typeOf ctx v = some (ctx.typeOf v) := by
  rw [typeOf, value_eq h]
  rfl

theorem payload?_eq {v : ValueId} (h : ctx.HasValue v) : payload? ctx v = some (ctx.payload? v) := by
  rw [payload?, value_eq h, Context.payload?]
  dsimp only [bind, Option.bind]
  rcases (ctx.value v).kind with c | _ | _ | _
  · cases c <;> rfl
  all_goals rfl

theorem back_mem {xs : Array ValueId} {v : ValueId} (h : xs.back? = some v) : v ∈ xs.toList := by
  rw [Array.back?_eq_getElem?] at h
  exact Array.mem_toList_iff.mpr (Array.mem_of_getElem? h)

variable (hc : ctx.Closed)
include hc

theorem typeName_eq {t : Ty} (h : ctx.HasType t) : typeName ctx t = some t.name :=
  if_pos (Ty.forall_parts hc.types t h)

private theorem narrow_parts {t : Ty} (h : ctx.HasType t) : ∀ p ∈ t.parts, p.Narrow :=
  fun p hp => hc.widths p (Ty.forall_parts hc.types t h p hp)

theorem allocSize?_eq {t : Ty} (h : ctx.HasType t) : allocSize? ctx t = some (t.allocSize? ctx.layout) := by
  rw [allocSize?, if_pos (Ty.forall_parts hc.types t h), allocSize_eq hc.pointers (narrow_parts hc h)]

theorem sizeInBits?_eq {t : Ty} (h : ctx.HasType t) : sizeInBits? ctx t = some (t.sizeInBits? ctx.layout) := by
  rw [sizeInBits?, if_pos (Ty.forall_parts hc.types t h), sizeInBits_eq hc.pointers t (narrow_parts hc h)]

theorem signed?_eq {v : ValueId} (h : ctx.HasValue v) : signed? ctx v = some (ctx.signed? v) := by
  rw [signed?, payload?_eq h, Context.signed?]
  cases ctx.payload? v with
  | none => rfl
  | some payload =>
    dsimp only [bind, Option.bind]
    rw [typeOf_eq h]
    dsimp only
    rw [type_eq (hc.hasType_typeOf h)]
    dsimp only
    cases (ctx.typeOf v).width? with
    | none => rfl
    | some width =>
      dsimp only
      rw [signed_eq]
      rfl

omit hc in
theorem findNamed?_eq (name : String) {fs : List FunctionId} (h : ∀ f ∈ fs, ctx.HasFunction f) :
    findNamed? ctx name fs = some (fs.find? fun f => (ctx.function f).name = name) := by
  induction fs with
  | nil => rfl
  | cons f fs ih =>
    obtain ⟨hf, hfs⟩ := List.forall_mem_cons.mp h
    rw [findNamed?, function_eq hf, List.find?_cons]
    dsimp only [bind, Option.bind]
    by_cases hn : (ctx.function f).name = name
    · simp [hn]
    · simp [hn, ih hfs]

theorem findFunction?_eq {m : ModuleId} (h : ctx.HasModule m) (name : String) :
    findFunction? ctx m name = some (ctx.findFunction? m name) := by
  rw [findFunction?, module_eq h]
  exact findNamed?_eq name (hc.module h).functions

theorem hasFunction_of_find {m : ModuleId} (h : ctx.HasModule m) {name : String} {f : FunctionId}
    (hf : ctx.findFunction? m name = some f) : ctx.HasFunction f :=
  (hc.module h).functions f (List.mem_of_find?_eq_some hf)

omit hc in
theorem blockLabel_eq {b : BlockId} (h : ctx.HasBlock b) : blockLabel ctx b = some (ctx.blockLabel b) := by
  rw [blockLabel, block_eq h, Context.blockLabel]
  dsimp only [bind, Option.bind]
  cases (ctx.block b).name <;> rfl

theorem terminator?_eq {b : BlockId} (h : ctx.HasBlock b) : terminator? ctx b = some (ctx.terminator? b) := by
  rw [terminator?, block_eq h, Context.terminator?]
  dsimp only [bind, Option.bind]
  cases hlast : (ctx.block b).instructions.back? with
  | none => rfl
  | some last =>
    dsimp only
    rw [value_eq ((hc.block h).values last (back_mem hlast))]
    dsimp only
    cases (ctx.value last).operation? <;> rfl

theorem hasBlock_of_block? {v : ValueId} (h : ctx.HasValue v) {b : BlockId} (hb : (ctx.value v).block? = some b) :
    ctx.HasBlock b := by
  have hk := hc.value h
  unfold Value.block? at hb
  split at hb
  · next hkind =>
    cases hb
    unfold Value.handles at hk
    rw [hkind] at hk
    exact hk.blocks b (.head _)
  · cases hb

theorem functionOf?_eq {v : ValueId} (h : ctx.HasValue v) : functionOf? ctx v = some (ctx.functionOf? v) := by
  rw [functionOf?, value_eq h, Context.functionOf?]
  dsimp only [bind, Option.bind]
  cases hb : (ctx.value v).block? with
  | none => rfl
  | some b =>
    dsimp only
    rw [block_eq (hasBlock_of_block? hc h hb)]
    rfl

theorem hasFunction_of_functionOf? {v : ValueId} (h : ctx.HasValue v) {f : FunctionId}
    (hf : ctx.functionOf? v = some f) : ctx.HasFunction f := by
  obtain ⟨b, hb, hf⟩ := Option.bind_eq_some_iff.mp hf
  exact (hc.block (hasBlock_of_block? hc h hb)).functions f (Option.mem_toList.mpr hf)

end
end Strict
end StackAssembler.IR
