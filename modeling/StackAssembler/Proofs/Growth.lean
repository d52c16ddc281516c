import Mathlib.Logic.Relation
import Mathlib.Tactic.Common
import StackAssembler.IR.Context

/-! How contexts grow. Handles given out keep their meaning, and lists are only added to at their ends. -/
namespace StackAssembler.IR

/-- Every entry of a table is still there, and is related to what stands in its place now. -/
def Grows {α : Type} (R : α → α → Prop) (xs ys : Array α) : Prop :=
  ∀ (i : Nat) (x : α), xs[i]? = some x → ∃ y, ys[i]? = some y ∧ R x y

namespace Grows
variable {α : Type} {R : α → α → Prop} {xs ys zs : Array α}

theorem refl (hR : ∀ x, R x x) (xs : Array α) : Grows R xs xs := fun _ x hx => ⟨x, hx, hR x⟩

theorem trans (hR : ∀ x y z, R x y → R y z → R x z) (h : Grows R xs ys) (k : Grows R ys zs) : Grows R xs zs := by
  intro i x hx
  obtain ⟨y, hy, hxy⟩ := h i x hx
  obtain ⟨z, hz, hyz⟩ := k i y hy
  exact ⟨z, hz, hR x y z hxy hyz⟩

theorem append (hR : ∀ x, R x x) (xs ys : Array α) : Grows R xs (xs ++ ys) := by
  intro i x hx
  have hi := (Array.getElem?_eq_some_iff.mp hx).1
  exact ⟨x, by rw [Array.getElem?_append_left hi, hx], hR x⟩

theorem push (hR : ∀ x, R x x) (xs : Array α) (x : α) : Grows R xs (xs.push x) := by
  rw [Array.push_eq_append]
  exact append hR xs #[x]

theorem modify (hR : ∀ x, R x x) {f : α → α} (j : Nat) (hf : ∀ x, xs[j]? = some x → R x (f x)) :
    Grows R xs (xs.modify j f) := by
  intro i x hx
  by_cases hij : j = i
  · subst hij
    exact ⟨f x, by simp [Array.getElem?_modify, hx], hf x hx⟩
  · exact ⟨x, by simp [Array.getElem?_modify, hij, hx], hR x⟩

theorem size_le (h : Grows R xs ys) : xs.size ≤ ys.size := by
  by_contra hlt
  have hi : ys.size < xs.size := by omega
  obtain ⟨y, hy, _⟩ := h ys.size xs[ys.size] (Array.getElem?_eq_getElem hi)
  simp at hy

/-- Reading an entry that was there. -/
theorem getD (h : Grows R xs ys) {i : Nat} (hi : i < xs.size) (d : α) : R (xs.getD i d) (ys.getD i d) := by
  obtain ⟨y, hy, hR⟩ := h i xs[i] (Array.getElem?_eq_getElem hi)
  have hy' := (Array.getElem?_eq_some_iff.mp hy)
  obtain ⟨hi', rfl⟩ := hy'
  simpa [Array.getD, hi, hi'] using hR

end Grows

/-! ### Reading a table after a change -/

theorem getD_of_size_le {α : Type} {xs : Array α} {i : Nat} (h : xs.size ≤ i) (d : α) : xs.getD i d = d := by
  rw [Array.getD_eq_getD_getElem?, Array.getElem?_eq_none h, Option.getD_none]

theorem getD_push {α : Type} (xs : Array α) (x : α) (i : Nat) (d : α) :
    (xs.push x).getD i d = if i = xs.size then x else xs.getD i d := by
  simp only [Array.getD_eq_getD_getElem?, Array.getElem?_push]
  split <;> rfl

theorem getD_modify {α : Type} (xs : Array α) (j : Nat) (f : α → α) (i : Nat) (d : α) :
    (xs.modify j f).getD i d = if j = i ∧ i < xs.size then f (xs.getD i d) else xs.getD i d := by
  simp only [Array.getD_eq_getD_getElem?, Array.getElem?_modify]
  by_cases hi : i < xs.size <;> by_cases hj : j = i <;> simp [hi, hj]

theorem isSome_lookup {α β : Type} [BEq α] [LawfulBEq α] (xs : List (α × β)) (a : α) :
    (xs.lookup a).isSome ↔ a ∈ xs.map Prod.fst := by
  rw [← not_iff_not, Option.not_isSome_iff_eq_none, List.lookup_eq_none_iff, List.mem_map]
  constructor
  · rintro h ⟨p, hp, rfl⟩
    simpa using h p hp
  · intro h p hp
    simpa using fun he => h ⟨p, hp, he.symm⟩

namespace Value

/-- Only the name of a value may change. -/
def Kept (v w : Value) : Prop := w.type = v.type ∧ w.kind = v.kind

theorem Kept.refl (v : Value) : v.Kept v := ⟨rfl, rfl⟩

theorem Kept.trans (u v w : Value) (h : u.Kept v) (k : v.Kept w) : u.Kept w :=
  ⟨k.1.trans h.1, k.2.trans h.2⟩

end Value

/-- A block keeps its name, and its function once it has one. -/
structure Block.Kept (b c : Block) : Prop where
  name : c.name = b.name
  function : ∀ f, b.function = some f → c.function = some f
  instructions : b.instructions.toList <+: c.instructions.toList

theorem Block.Kept.refl (b : Block) : b.Kept b := ⟨rfl, fun _ h => h, List.prefix_rfl⟩

theorem Block.Kept.trans (a b c : Block) (h : a.Kept b) (k : b.Kept c) : a.Kept c :=
  ⟨k.name.trans h.name, fun f hf => k.function f (h.function f hf), h.instructions.trans k.instructions⟩

/-- Only blocks may be added to a function. -/
structure Function.Kept (f g : Function) : Prop where
  rest : g = { f with blocks := g.blocks }
  blocks : f.blocks.toList <+: g.blocks.toList

theorem Function.Kept.refl (f : Function) : f.Kept f := ⟨rfl, List.prefix_rfl⟩

theorem Function.Kept.trans (f g h : Function) (hf : f.Kept g) (hg : g.Kept h) : f.Kept h := by
  refine ⟨?_, hf.blocks.trans hg.blocks⟩
  rw [hg.rest, hf.rest]

structure Module.Kept (m n : Module) : Prop where
  name : n.name = m.name
  functions : m.functions.toList <+: n.functions.toList

theorem Module.Kept.refl (m : Module) : m.Kept m := ⟨rfl, List.prefix_rfl⟩

theorem Module.Kept.trans (a b c : Module) (h : a.Kept b) (k : b.Kept c) : a.Kept c :=
  ⟨k.name.trans h.name, h.functions.trans k.functions⟩

/-- Handles that are held by a request, an instruction or a builder. -/
structure Handles where
  types : List Ty := []
  values : List ValueId := []
  blocks : List BlockId := []
  functions : List FunctionId := []
  modules : List ModuleId := []
  nodes : List NodeId := []

namespace Context
variable {ctx ctx' ctx'' : Context}

/-! ### Handles that a context has given out -/

def HasType (ctx : Context) (t : Ty) : Prop := t ∈ ctx.types.toList

def HasValue (ctx : Context) (v : ValueId) : Prop := v.index < ctx.values.size

def HasBlock (ctx : Context) (b : BlockId) : Prop := b.index < ctx.blocks.size

def HasFunction (ctx : Context) (f : FunctionId) : Prop := f.index < ctx.functions.size

def HasModule (ctx : Context) (m : ModuleId) : Prop := m.index < ctx.modules.size

def HasNode (ctx : Context) (n : NodeId) : Prop := n.index < ctx.nodes.size

instance (t : Ty) : Decidable (ctx.HasType t) := inferInstanceAs (Decidable (t ∈ ctx.types.toList))

instance (v : ValueId) : Decidable (ctx.HasValue v) := inferInstanceAs (Decidable (v.index < ctx.values.size))

instance (b : BlockId) : Decidable (ctx.HasBlock b) := inferInstanceAs (Decidable (b.index < ctx.blocks.size))

instance (f : FunctionId) : Decidable (ctx.HasFunction f) :=
  inferInstanceAs (Decidable (f.index < ctx.functions.size))

instance (m : ModuleId) : Decidable (ctx.HasModule m) := inferInstanceAs (Decidable (m.index < ctx.modules.size))

instance (n : NodeId) : Decidable (ctx.HasNode n) := inferInstanceAs (Decidable (n.index < ctx.nodes.size))

/-- All of some handles were given out by the context. -/
structure Knows (ctx : Context) (hs : Handles) : Prop where
  types : ∀ t ∈ hs.types, ctx.HasType t
  values : ∀ v ∈ hs.values, ctx.HasValue v
  blocks : ∀ b ∈ hs.blocks, ctx.HasBlock b
  functions : ∀ f ∈ hs.functions, ctx.HasFunction f
  modules : ∀ m ∈ hs.modules, ctx.HasModule m
  nodes : ∀ n ∈ hs.nodes, ctx.HasNode n

theorem knows_iff {hs : Handles} :
    ctx.Knows hs ↔ (∀ t ∈ hs.types, ctx.HasType t) ∧ (∀ v ∈ hs.values, ctx.HasValue v) ∧
      (∀ b ∈ hs.blocks, ctx.HasBlock b) ∧ (∀ f ∈ hs.functions, ctx.HasFunction f) ∧
      (∀ m ∈ hs.modules, ctx.HasModule m) ∧ ∀ n ∈ hs.nodes, ctx.HasNode n :=
  ⟨fun ⟨t, v, b, f, m, n⟩ => ⟨t, v, b, f, m, n⟩, fun ⟨t, v, b, f, m, n⟩ => ⟨t, v, b, f, m, n⟩⟩

theorem knows_type {t : Ty} : ctx.Knows { types := [t] } ↔ ctx.HasType t := by simp [knows_iff]

theorem knows_value {v : ValueId} : ctx.Knows { values := [v] } ↔ ctx.HasValue v := by simp [knows_iff]

theorem knows_values {vs : List ValueId} : ctx.Knows { values := vs } ↔ ∀ v ∈ vs, ctx.HasValue v := by
  simp [knows_iff]

theorem Knows.cons {v : ValueId} {vs : List ValueId} (hv : ctx.Knows { values := [v] })
    (hvs : ctx.Knows { values := vs }) : ctx.Knows { values := v :: vs } :=
  knows_values.mpr (List.forall_mem_cons.mpr ⟨knows_value.mp hv, knows_values.mp hvs⟩)

theorem knows_block {b : BlockId} : ctx.Knows { blocks := [b] } ↔ ctx.HasBlock b := by simp [knows_iff]

theorem knows_function {f : FunctionId} : ctx.Knows { functions := [f] } ↔ ctx.HasFunction f := by
  simp [knows_iff]

theorem knows_nothing : ctx.Knows {} := by simp [knows_iff]

instance (hs : Handles) : Decidable (ctx.Knows hs) := decidable_of_iff' _ knows_iff

/-- What is built stays: the second context has all of the first, in the same places. -/
structure Extends (ctx ctx' : Context) : Prop where
  layout : ctx'.layout = ctx.layout
  types : ctx.types.toList <+: ctx'.types.toList
  values : Grows Value.Kept ctx.values ctx'.values
  blocks : Grows Block.Kept ctx.blocks ctx'.blocks
  functions : Grows Function.Kept ctx.functions ctx'.functions
  modules : Grows Module.Kept ctx.modules ctx'.modules
  nodes : ctx.nodes.size ≤ ctx'.nodes.size

namespace Extends

theorem refl (ctx : Context) : ctx.Extends ctx :=
  ⟨rfl, List.prefix_rfl, .refl Value.Kept.refl _, .refl Block.Kept.refl _, .refl Function.Kept.refl _,
    .refl Module.Kept.refl _, Nat.le_refl _⟩

theorem trans (h : ctx.Extends ctx') (k : ctx'.Extends ctx'') : ctx.Extends ctx'' :=
  ⟨k.layout.trans h.layout, h.types.trans k.types, h.values.trans Value.Kept.trans k.values,
    h.blocks.trans Block.Kept.trans k.blocks, h.functions.trans Function.Kept.trans k.functions,
    h.modules.trans Module.Kept.trans k.modules, Nat.le_trans h.nodes k.nodes⟩

theorem hasType (h : ctx.Extends ctx') {t : Ty} (ht : ctx.HasType t) : ctx'.HasType t := h.types.subset ht

theorem hasValue (h : ctx.Extends ctx') {v : ValueId} (hv : ctx.HasValue v) : ctx'.HasValue v :=
  Nat.lt_of_lt_of_le hv h.values.size_le

theorem hasBlock (h : ctx.Extends ctx') {b : BlockId} (hb : ctx.HasBlock b) : ctx'.HasBlock b :=
  Nat.lt_of_lt_of_le hb h.blocks.size_le

theorem hasFunction (h : ctx.Extends ctx') {f : FunctionId} (hf : ctx.HasFunction f) : ctx'.HasFunction f :=
  Nat.lt_of_lt_of_le hf h.functions.size_le

theorem hasModule (h : ctx.Extends ctx') {m : ModuleId} (hm : ctx.HasModule m) : ctx'.HasModule m :=
  Nat.lt_of_lt_of_le hm h.modules.size_le

theorem hasNode (h : ctx.Extends ctx') {n : NodeId} (hn : ctx.HasNode n) : ctx'.HasNode n :=
  Nat.lt_of_lt_of_le hn h.nodes

theorem typeOf (h : ctx.Extends ctx') {v : ValueId} (hv : ctx.HasValue v) : ctx'.typeOf v = ctx.typeOf v :=
  (h.values.getD hv default).1

theorem kind (h : ctx.Extends ctx') {v : ValueId} (hv : ctx.HasValue v) :
    (ctx'.value v).kind = (ctx.value v).kind :=
  (h.values.getD hv default).2

theorem block (h : ctx.Extends ctx') {b : BlockId} (hb : ctx.HasBlock b) : (ctx.block b).Kept (ctx'.block b) :=
  h.blocks.getD hb default

theorem function (h : ctx.Extends ctx') {f : FunctionId} (hf : ctx.HasFunction f) :
    (ctx.function f).Kept (ctx'.function f) :=
  h.functions.getD hf default

theorem result (h : ctx.Extends ctx') {f : FunctionId} (hf : ctx.HasFunction f) :
    (ctx'.function f).result = (ctx.function f).result := by
  rw [(h.function hf).rest]

theorem params (h : ctx.Extends ctx') {f : FunctionId} (hf : ctx.HasFunction f) :
    (ctx'.function f).params = (ctx.function f).params := by
  rw [(h.function hf).rest]

theorem variadic (h : ctx.Extends ctx') {f : FunctionId} (hf : ctx.HasFunction f) :
    (ctx'.function f).variadic = (ctx.function f).variadic := by
  rw [(h.function hf).rest]

theorem knows (h : ctx.Extends ctx') {hs : Handles} (hk : ctx.Knows hs) : ctx'.Knows hs where
  types t ht := h.hasType (hk.types t ht)
  values v hv := h.hasValue (hk.values v hv)
  blocks b hb := h.hasBlock (hk.blocks b hb)
  functions f hf := h.hasFunction (hk.functions f hf)
  modules m hm := h.hasModule (hk.modules m hm)
  nodes n hn := h.hasNode (hk.nodes n hn)

end Extends
end Context
end StackAssembler.IR
