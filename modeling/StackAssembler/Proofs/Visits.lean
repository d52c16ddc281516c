import Mathlib.Data.List.Nodup
import StackAssembler.IR.StringMetadata
import StackAssembler.Proofs.Reachability

/-! Walks through the instructions of a module. They come to each instruction once, in the order of the functions, of the
blocks and of the instructions in the blocks. -/
namespace StackAssembler.IR

/-! ### Lists one behind the other -/

section Lists
variable {α β : Type} {l : List α} {g : α → List β} {x y : β}

theorem pair_sublist_cons {a b c : α} : [a, b].Sublist (c :: l) ↔ [a, b].Sublist l ∨ a = c ∧ b ∈ l := by
  rw [List.sublist_cons_iff]
  constructor
  · rintro (h | ⟨r, hr, h⟩)
    · exact .inl h
    · obtain ⟨rfl, rfl⟩ := List.cons.inj hr
      exact .inr ⟨rfl, List.singleton_sublist.mp h⟩
  · rintro (h | ⟨rfl, h⟩)
    · exact .inl h
    · exact .inr ⟨[b], rfl, List.singleton_sublist.mpr h⟩

theorem pair_sublist_append {xs ys : List β} :
    [x, y].Sublist (xs ++ ys) ↔ [x, y].Sublist xs ∨ [x, y].Sublist ys ∨ x ∈ xs ∧ y ∈ ys := by
  induction xs with
  | nil => simp
  | cons z xs ih =>
    rw [List.cons_append, pair_sublist_cons, pair_sublist_cons, ih, List.mem_append, List.mem_cons, and_or_left,
      or_and_right]
    exact Iff.of_eq (by ac_rfl)

/-- Two items come in some order if they do so in one of the lists, or their lists do. -/
theorem pair_sublist_flatMap : [x, y].Sublist (l.flatMap g) ↔
    (∃ a ∈ l, [x, y].Sublist (g a)) ∨ ∃ a b, [a, b].Sublist l ∧ x ∈ g a ∧ y ∈ g b := by
  induction l with
  | nil => simp
  | cons c l ih =>
    simp only [List.flatMap_cons, pair_sublist_append, ih, pair_sublist_cons, List.mem_flatMap, List.exists_mem_cons_iff]
    constructor
    · rintro (h | (h | ⟨a, b, hab, hx, hy⟩) | ⟨hx, b, hb, hy⟩)
      · exact .inl (.inl h)
      · exact .inl (.inr h)
      · exact .inr ⟨a, b, .inl hab, hx, hy⟩
      · exact .inr ⟨c, b, .inr ⟨rfl, hb⟩, hx, hy⟩
    · rintro ((h | h) | ⟨a, b, hab | ⟨rfl, hb⟩, hx, hy⟩)
      · exact .inl h
      · exact .inr (.inl (.inl h))
      · exact .inr (.inl (.inr ⟨a, b, hab, hx, hy⟩))
      · exact .inr (.inr ⟨hx, b, hb, hy⟩)

/-- Nothing comes twice if the lists are different ones and each item knows its list. -/
theorem nodup_flatMap_of_owner (owner : β → Option α) (hl : l.Nodup) (hg : ∀ a ∈ l, (g a).Nodup)
    (howner : ∀ a, ∀ x ∈ g a, owner x = some a) : (l.flatMap g).Nodup := by
  refine List.nodup_flatMap.mpr ⟨hg, hl.imp fun hne x hx hy => hne ?_⟩
  exact Option.some.inj ((howner _ x hx).symm.trans (howner _ x hy))

/-- The second list has the items of the first one with a property, each of them once and in the same order. -/
structure Selects (p : α → Prop) (all picked : List α) : Prop where
  ordered : picked.Sublist all
  once : picked.Nodup
  mem : ∀ a, a ∈ picked ↔ a ∈ all ∧ p a

theorem selects_filter (p : α → Bool) (hl : l.Nodup) : Selects (p ·) l (l.filter p) :=
  ⟨List.filter_sublist, hl.filter p, fun _ => List.mem_filter⟩

end Lists

namespace Context
variable {ctx : Context} {k : ModuleId} {f : FunctionId} {b : BlockId} {v w : ValueId}

/-! ### What is visited -/

theorem instructions_block : ctx.instructions (.block b) = (ctx.block b).instructions.toList := by
  simp [instructions, blocksIn]

theorem instructions_function :
    ctx.instructions (.function f) = (ctx.function f).blocks.toList.flatMap fun b => ctx.instructions (.block b) := by
  simp only [instructions_block]
  rfl

theorem instructions_module :
    ctx.instructions (.module k) = (ctx.module k).functions.toList.flatMap fun f => ctx.instructions (.function f) :=
  List.flatMap_assoc

/-- One instruction of a module comes before another one: in the same block, in an earlier block of the same function, or
in an earlier function. -/
inductive Before (ctx : Context) (k : ModuleId) (v w : ValueId) : Prop where
  | inBlock {f : FunctionId} {b : BlockId} : f ∈ (ctx.module k).functions → b ∈ (ctx.function f).blocks →
      [v, w].Sublist (ctx.block b).instructions.toList → Before ctx k v w
  | inFunction {f : FunctionId} {b c : BlockId} : f ∈ (ctx.module k).functions →
      [b, c].Sublist (ctx.function f).blocks.toList → v ∈ (ctx.block b).instructions →
      w ∈ (ctx.block c).instructions → Before ctx k v w
  | inModule {f g : FunctionId} {b c : BlockId} : [f, g].Sublist (ctx.module k).functions.toList →
      b ∈ (ctx.function f).blocks → c ∈ (ctx.function g).blocks → v ∈ (ctx.block b).instructions →
      w ∈ (ctx.block c).instructions → Before ctx k v w

theorem mem_instructions_function :
    v ∈ ctx.instructions (.function f) ↔ ∃ b, b ∈ (ctx.function f).blocks ∧ v ∈ (ctx.block b).instructions := by
  simp [instructions_function, instructions_block]

theorem pair_sublist_instructions : [v, w].Sublist (ctx.instructions (.module k)) ↔ ctx.Before k v w := by
  rw [instructions_module, pair_sublist_flatMap]
  simp only [mem_instructions_function]
  constructor
  · rintro (⟨f, hf, h⟩ | ⟨f, g, hfg, ⟨b, hb, hv⟩, c, hc, hw⟩)
    · rw [Array.mem_toList_iff] at hf
      rw [instructions_function, pair_sublist_flatMap] at h
      simp only [instructions_block, Array.mem_toList_iff] at h
      rcases h with ⟨b, hb, h⟩ | ⟨b, c, hbc, hv, hw⟩
      · exact .inBlock hf hb h
      · exact .inFunction hf hbc hv hw
    · exact .inModule hfg hb hc hv hw
  · rintro (⟨hf, hb, h⟩ | ⟨hf, hbc, hv, hw⟩ | ⟨hfg, hb, hc, hv, hw⟩)
    · refine .inl ⟨_, Array.mem_toList_iff.mpr hf, ?_⟩
      rw [instructions_function, pair_sublist_flatMap]
      exact .inl ⟨_, Array.mem_toList_iff.mpr hb, by rwa [instructions_block]⟩
    · refine .inl ⟨_, Array.mem_toList_iff.mpr hf, ?_⟩
      rw [instructions_function, pair_sublist_flatMap]
      refine .inr ⟨_, _, hbc, ?_, ?_⟩ <;> rwa [instructions_block, Array.mem_toList_iff]
    · exact .inr ⟨_, _, hfg, ⟨_, hb, hv⟩, _, hc, hw⟩

section
variable (hp : Placed ctx) (ha : Adopted ctx) (hr : Registered ctx)
include hp ha

/-- The instructions of a function are those whose block records the function. -/
theorem functionOf?_of_mem (h : v ∈ ctx.instructions (.function f)) : ctx.functionOf? v = some f := by
  obtain ⟨b, hb, hv⟩ := mem_instructions_function.mp h
  obtain ⟨op, hk⟩ := (hp.listed v b).mp hv
  simp [functionOf?, Value.block?, hk, (ha.listed f b).mp hb]

theorem mem_instructions_module :
    v ∈ ctx.instructions (.module k) ↔ ∃ op b f, (ctx.value v).kind = .instruction op b ∧
      (ctx.block b).function = some f ∧ f ∈ (ctx.module k).functions := by
  simp only [instructions_module, List.mem_flatMap, Array.mem_toList_iff, mem_instructions_function, hp.listed,
    ha.listed]
  constructor
  · rintro ⟨f, hf, b, hb, op, hk⟩
    exact ⟨op, b, f, hk, hb, hf⟩
  · rintro ⟨op, b, f, hk, hb, hf⟩
    exact ⟨f, hf, b, hb, op, hk⟩

include hr

theorem nodup_instructions (scope : Scope) : (ctx.instructions scope).Nodup := by
  -- An instruction records its block, and through that its function; so no two parts of a walk share one.
  have inBlock (b : BlockId) : (ctx.instructions (.block b)).Nodup := by
    rw [instructions_block]
    exact hp.once b
  have inFunction (f : FunctionId) : (ctx.instructions (.function f)).Nodup := by
    rw [instructions_function]
    refine nodup_flatMap_of_owner (fun v => (ctx.value v).block?) (ha.once f) (fun b _ => inBlock b) fun b v hv => ?_
    rw [instructions_block, Array.mem_toList_iff] at hv
    obtain ⟨op, hk⟩ := (hp.listed v b).mp hv
    simp [Value.block?, hk]
  cases scope with
  | block b => exact inBlock b
  | function f => exact inFunction f
  | module k =>
    rw [instructions_module]
    exact nodup_flatMap_of_owner ctx.functionOf? (hr.once k) (fun f _ => inFunction f) fun f v => functionOf?_of_mem hp ha

theorem selects_instructionsOf (scope : Scope) (c : Category) :
    Selects (ctx.isA · c) (ctx.instructions scope) (ctx.instructionsOf scope c) :=
  selects_filter _ (nodup_instructions hp ha hr scope)

end

end Context

/-! ### Categories -/

/-- The categories of instructions by their operation. -/
def Category.families : List Category := [alloca, load, store, binary, compare, cast, phi, branch, call, ret]

namespace Context
variable {ctx : Context} {v : ValueId} {op : Operation} {b : BlockId}

/-- An instruction is of the one family that its operation belongs to. -/
theorem isA_family (h : (ctx.value v).kind = .instruction op b) {c : Category} (hc : c ∈ Category.families) :
    ctx.isA v c ↔ c = .ofOperation op := by
  have hne : c ≠ .instruction ∧ c ≠ .terminator := by
    constructor <;> rintro rfl <;> simp [Category.families] at hc
  simp [isA, Category.holds, Category.ofValue, Value.operation?, h, hne.1, hne.2]

theorem existsUnique_family (h : (ctx.value v).kind = .instruction op b) :
    ∃! c, c ∈ Category.families ∧ ctx.isA v c := by
  have hmem : Category.ofOperation op ∈ Category.families := by
    cases op <;> simp [Category.ofOperation, Category.families]
  exact ⟨.ofOperation op, ⟨hmem, (isA_family h hmem).mpr rfl⟩, fun c hc => (isA_family h hc.1).mp hc.2⟩

theorem isA_terminator : ctx.isA v .terminator ↔ ctx.isA v .branch ∨ ctx.isA v .ret := by
  have hvalue : ∀ c ∈ [Category.terminator, .branch, .ret], c ≠ Category.ofValue (ctx.value v) := by
    unfold Category.ofValue
    split <;> simp
  simp only [List.forall_mem_cons, List.not_mem_nil, false_imp_iff, implies_true, and_true] at hvalue
  simp only [isA, Category.holds, hvalue, decide_false, Bool.false_or]
  cases (ctx.value v).operation? with
  | none => simp
  | some op => cases op <;> simp [Category.ofOperation, Operation.isTerminator]

end Context

/-! ### Dotted names -/

namespace Context
variable {ctx : Context} {k : ModuleId}

/-- The functions of a module as values. -/
def functionValues (ctx : Context) (k : ModuleId) : List ValueId :=
  (ctx.module k).functions.toList.map fun f => (ctx.function f).value

/-- The values of a list that carry names, with their names. -/
def marked (ctx : Context) (vs : List ValueId) : List (ValueId × DottedName) :=
  vs.filterMap fun v => (ctx.mark? v).map fun a => (v, a)

theorem marks_eq : ctx.marks k = ctx.marked (ctx.functionValues k) ++ ctx.marked (ctx.instructions (.module k)) :=
  List.filterMap_append

theorem mem_marked {vs : List ValueId} {v : ValueId} {a : DottedName} :
    (v, a) ∈ ctx.marked vs ↔ v ∈ vs ∧ ctx.mark? v = some a := by
  simp [marked]

theorem map_fst_marked (vs : List ValueId) : (ctx.marked vs).map Prod.fst = vs.filter fun v => (ctx.mark? v).isSome := by
  induction vs with
  | nil => rfl
  | cons v vs ih =>
    rw [marked] at ih ⊢
    cases hv : ctx.mark? v <;> simp [hv, ih]

theorem selects_marked {vs : List ValueId} (h : vs.Nodup) :
    Selects (fun v => (ctx.mark? v).isSome) vs ((ctx.marked vs).map Prod.fst) :=
  map_fst_marked vs ▸ selects_filter _ h

theorem nodup_functionValues (hr : Registered ctx) : (ctx.functionValues k).Nodup := by
  refine (hr.once k).map_on fun f hf g hg h => ?_
  rw [Array.mem_toList_iff, hr.listed] at hf hg
  have hkind := (hr.value f hf.1).2
  rw [h, (hr.value g hg.1).2] at hkind
  exact (ValueKind.function.inj hkind).symm

/-- No function is an instruction. -/
theorem disjoint_functionValues (hp : Placed ctx) (ha : Adopted ctx) (hr : Registered ctx) :
    (ctx.functionValues k).Disjoint (ctx.instructions (.module k)) := by
  intro v hv hin
  obtain ⟨f, hf, rfl⟩ := List.mem_map.mp hv
  rw [Array.mem_toList_iff, hr.listed] at hf
  obtain ⟨op, b, _, hk, _⟩ := (mem_instructions_module hp ha).mp hin
  rw [(hr.value f hf.1).2] at hk
  cases hk

theorem nodup_marks (hp : Placed ctx) (ha : Adopted ctx) (hr : Registered ctx) :
    ((ctx.marks k).map Prod.fst).Nodup := by
  rw [marks_eq, List.map_append, map_fst_marked, map_fst_marked, ← List.filter_append]
  exact ((nodup_functionValues hr).append (nodup_instructions hp ha hr _) (disjoint_functionValues hp ha hr)).filter _

end Context
end StackAssembler.IR

namespace StackAssembler.Build
open IR

/-- A walk through a module comes to each instruction whose block belongs to a function of the module, once, in the order
of the functions, the blocks and the instructions in the blocks; it goes function by function, and through a function
block by block. To filter a walk by a category is to keep the instructions of that category, in their order. Each
instruction is of one of ten families, and is a terminator if it branches or returns. The names of a module are those of
its functions and then those of its instructions, each of them once, with the value that carries it. -/
theorem Reachable.visits {m : Machine} (h : Reachable m) (k : ModuleId) :
    ((m.context.instructions (.module k)).Nodup ∧
      (∀ v, v ∈ m.context.instructions (.module k) ↔ ∃ op b f, (m.context.value v).kind = .instruction op b ∧
        (m.context.block b).function = some f ∧ f ∈ (m.context.module k).functions) ∧
      ∀ v w, [v, w].Sublist (m.context.instructions (.module k)) ↔ m.context.Before k v w) ∧
    (m.context.instructions (.module k) =
        (m.context.module k).functions.toList.flatMap (fun f => m.context.instructions (.function f)) ∧
      (∀ f, m.context.instructions (.function f) =
        (m.context.function f).blocks.toList.flatMap fun b => m.context.instructions (.block b)) ∧
      ∀ b, m.context.instructions (.block b) = (m.context.block b).instructions.toList) ∧
    (∀ scope c, Selects (m.context.isA · c) (m.context.instructions scope) (m.context.instructionsOf scope c)) ∧
    (∀ v op b, (m.context.value v).kind = .instruction op b →
      (∃! c, c ∈ Category.families ∧ m.context.isA v c) ∧
      (m.context.isA v .terminator ↔ m.context.isA v .branch ∨ m.context.isA v .ret)) ∧
    ∃ fs is, m.context.marks k = fs ++ is ∧
      Selects (fun v => (m.context.mark? v).isSome) (m.context.functionValues k) (fs.map Prod.fst) ∧
      Selects (fun v => (m.context.mark? v).isSome) (m.context.instructions (.module k)) (is.map Prod.fst) ∧
      ((m.context.marks k).map Prod.fst).Nodup ∧ ∀ v a, (v, a) ∈ m.context.marks k → m.context.mark? v = some a := by
  obtain ⟨layout, hl⟩ := h.leads
  have hp := (Placed.empty layout).evolve hl.evolves
  have ha := (Adopted.empty layout).evolve hl.evolves
  have hr := (Registered.empty layout).evolve hl.evolves
  have honce := Context.nodup_instructions hp ha hr
  refine ⟨⟨honce _, fun v => Context.mem_instructions_module hp ha, fun v w => Context.pair_sublist_instructions⟩,
    ⟨Context.instructions_module, fun f => Context.instructions_function, fun b => Context.instructions_block⟩,
    fun scope c => Context.selects_instructionsOf hp ha hr scope c,
    fun v op b hk => ⟨Context.existsUnique_family hk, Context.isA_terminator⟩,
    _, _, Context.marks_eq, Context.selects_marked (Context.nodup_functionValues hr),
    Context.selects_marked (honce _), Context.nodup_marks hp ha hr, fun v a hva => ?_⟩
  rw [Context.marks_eq, List.mem_append, Context.mem_marked, Context.mem_marked] at hva
  exact hva.elim And.right And.right

/-- A second function takes up a block with an instruction, before the first one gets another block; a function and an
instruction are given a name. -/
def Command.walk : List Command := Command.double ++
  [.request (.addBlock none), .emit (some ⟨1⟩) (.alloca (.int 32) none), .restart, .perform (.useModule ⟨0⟩),
    .perform (.createFunction ⟨"late", .int 32, [], false⟩), .request (.attachBlock ⟨1⟩ ⟨1⟩),
    .request (.appendBlock ⟨0⟩ none), .emit (some ⟨2⟩) (.alloca (.int 32) none), .request (.addNode [.string "a.b"]),
    .request (.addNode [.node ⟨0⟩]), .request (.attach ⟨6⟩ Tag.dottedName ⟨1⟩),
    .request (.attach ⟨0⟩ Tag.dottedName ⟨1⟩)]

def Machine.walk : Machine := Machine.runAll {} Command.walk

/-- The instruction that was written last comes before the one that was written into the detached block. -/
theorem Reachable.visits_walk :
    Machine.walk.context.instructions (.module ⟨0⟩) = [⟨2⟩, ⟨3⟩, ⟨4⟩, ⟨5⟩, ⟨6⟩, ⟨9⟩, ⟨7⟩] ∧
    Machine.walk.context.Before ⟨0⟩ ⟨9⟩ ⟨7⟩ ∧
    Selects (Machine.walk.context.isA · .alloca) [⟨2⟩, ⟨3⟩, ⟨4⟩, ⟨5⟩, ⟨6⟩, ⟨9⟩, ⟨7⟩] [⟨2⟩, ⟨9⟩, ⟨7⟩] ∧
    Machine.walk.context.marks ⟨0⟩ = [(⟨0⟩, ⟨["a", "b"]⟩), (⟨6⟩, ⟨["a", "b"]⟩)] ∧
    Machine.walk.context.mark? ⟨6⟩ = some ⟨["a", "b"]⟩ := by
  have hm : Reachable Machine.walk := ⟨{}, .of_permits Command.walk (by decide +kernel)⟩
  obtain ⟨⟨-, -, horder⟩, -, hfilter, -, fs, is, -, -, -, -, hnames⟩ := hm.visits ⟨0⟩
  have hwalk : Machine.walk.context.instructions (.module ⟨0⟩) = [⟨2⟩, ⟨3⟩, ⟨4⟩, ⟨5⟩, ⟨6⟩, ⟨9⟩, ⟨7⟩] := by decide +kernel
  have hallocas : Machine.walk.context.instructionsOf (.module ⟨0⟩) .alloca = [⟨2⟩, ⟨9⟩, ⟨7⟩] := by decide +kernel
  have hmarks : Machine.walk.context.marks ⟨0⟩ = [(⟨0⟩, ⟨["a", "b"]⟩), (⟨6⟩, ⟨["a", "b"]⟩)] := by decide +kernel
  have hselects := hfilter (.module ⟨0⟩) .alloca
  rw [hwalk, hallocas] at hselects
  refine ⟨hwalk, (horder _ _).mp ?_, hselects, hmarks, hnames _ _ ?_⟩
  · rw [hwalk]
    decide
  · rw [hmarks]
    exact .tail _ (.head _)

end StackAssembler.Build
