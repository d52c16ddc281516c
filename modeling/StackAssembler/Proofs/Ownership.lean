import StackAssembler.Proofs.Placement

/-! Whose the blocks and the functions are. A block is detached or stands once in the function that it records,
and a function stands once in its module, under a name that it shares with no other function there. -/
namespace StackAssembler.IR

/-- What the block lists of functions and the functions that blocks record say about one another. -/
structure Adopted (ctx : Context) : Prop where
  listed : ∀ f b, b ∈ (ctx.function f).blocks ↔ (ctx.block b).function = some f
  once : ∀ f, (ctx.function f).blocks.toList.Nodup

/-- What modules, functions and the values of functions say about one another. -/
structure Registered (ctx : Context) : Prop where
  listed : ∀ m f, f ∈ (ctx.module m).functions ↔ ctx.HasFunction f ∧ (ctx.function f).module = m
  once : ∀ m, (ctx.module m).functions.toList.Nodup
  names : ∀ f g, ctx.HasFunction f → ctx.HasFunction g → (ctx.function f).module = (ctx.function g).module →
    (ctx.function f).name = (ctx.function g).name → f = g
  value : ∀ f, ctx.HasFunction f → ctx.typeOf (ctx.function f).value = .pointer (ctx.function f).type 0 ∧
    (ctx.value (ctx.function f).value).kind = .function f
  arity : ∀ f, ctx.HasFunction f → (ctx.function f).args.length = (ctx.function f).params.length
  args : ∀ f i v, ctx.HasFunction f → (ctx.function f).args[i]? = some v →
    (ctx.function f).params[i]? = some (ctx.typeOf v) ∧ (ctx.value v).kind = .argument f i

namespace Context
variable {ctx : Context}

theorem function_new {f : FunctionId} (h : f.index = ctx.functions.size) : ctx.function f = default :=
  getD_of_size_le (Nat.le_of_eq h.symm) _

theorem function_adopt {f : FunctionId} (hf : ctx.HasFunction f) (b : BlockId) (g : FunctionId) :
    (ctx.adopt f b).function g =
      if g = f then { ctx.function f with blocks := (ctx.function f).blocks.push b } else ctx.function g := by
  simp only [adopt, function, getD_modify]
  by_cases hg : g = f
  · subst hg
    rw [if_pos ⟨rfl, hf⟩, if_pos rfl]
  · have hi : f.index ≠ g.index := fun he => hg (by cases f; cases g; simp_all)
    rw [if_neg (fun h => hi h.1), if_neg hg]

theorem function_declare (m : ModuleId) (name : String) (result : Ty) (params : List Ty) (variadic : Bool)
    (linkage : Linkage) (g : FunctionId) :
    (ctx.declare m name result params variadic linkage).function g =
      if g.index = ctx.functions.size then
        ⟨name, result, params, variadic, linkage, m, ⟨ctx.values.size⟩,
          (List.range' (ctx.values.size + 1) params.length).map ValueId.mk, #[]⟩
      else ctx.function g :=
  getD_push _ _ _ _

theorem module_declare {m : ModuleId} (hm : ctx.HasModule m) (name : String) (result : Ty) (params : List Ty)
    (variadic : Bool) (linkage : Linkage) (k : ModuleId) :
    (ctx.declare m name result params variadic linkage).module k =
      if k = m then { ctx.module m with functions := (ctx.module m).functions.push ⟨ctx.functions.size⟩ }
      else ctx.module k := by
  simp only [declare, module, getD_modify]
  by_cases hk : k = m
  · subst hk
    rw [if_pos ⟨rfl, hm⟩, if_pos rfl]
  · have hi : m.index ≠ k.index := fun he => hk (by cases m; cases k; simp_all)
    rw [if_neg (fun h => hi h.1), if_neg hk]

theorem value_declare (m : ModuleId) (name : String) (result : Ty) (params : List Ty) (variadic : Bool)
    (linkage : Linkage) :
    (ctx.declare m name result params variadic linkage).value ⟨ctx.values.size⟩ =
      ⟨.pointer (.function result params variadic) 0, some name, .function ⟨ctx.functions.size⟩⟩ := by
  rw [value, declare_values]
  simp [Array.getD_eq_getD_getElem?]

theorem argument_declare (m : ModuleId) (name : String) (result : Ty) {params : List Ty} (variadic : Bool)
    (linkage : Linkage) {i : Nat} {t : Ty} (ht : params[i]? = some t) :
    (ctx.declare m name result params variadic linkage).value ⟨ctx.values.size + 1 + i⟩ =
      ⟨t, none, .argument ⟨ctx.functions.size⟩ i⟩ := by
  have hi : ctx.values.size + 1 + i - ctx.values.size = i + 1 := by omega
  have hlt : ¬ ctx.values.size + 1 + i < ctx.values.size := by omega
  rw [value, declare_values]
  simp [Array.getD_eq_getD_getElem?, Array.getElem?_append, hi, hlt, argumentValues, ht]

/-- Only functions that are there have blocks. -/
theorem hasFunction_of_mem_blocks {f : FunctionId} {b : BlockId} (h : b ∈ (ctx.function f).blocks) :
    ctx.HasFunction f := by
  by_contra hf
  rw [function, getD_of_size_le (Nat.le_of_not_lt hf)] at h
  exact absurd h (Array.not_mem_empty b)

/-- Only modules that are there have functions. -/
theorem hasModule_of_mem {m : ModuleId} {f : FunctionId} (h : f ∈ (ctx.module m).functions) : ctx.HasModule m := by
  by_contra hm
  rw [module, getD_of_size_le (Nat.le_of_not_lt hm)] at h
  exact absurd h (Array.not_mem_empty f)

theorem name_of_findFunction? {m : ModuleId} {name : String} (h : ctx.findFunction? m name = none)
    {f : FunctionId} (hf : f ∈ (ctx.module m).functions) : (ctx.function f).name ≠ name := by
  have := List.find?_eq_none.mp h f (Array.mem_toList_iff.mpr hf)
  simpa using this

end Context

namespace Change
variable {ctx ctx' : Context}

/-- A change gives one detached block to a function, or all blocks stay where they are. -/
theorem adoptions (h : Change ctx ctx') :
    (∃ f b, ctx.HasFunction f ∧ ctx.HasBlock b ∧ (ctx.block b).function = none ∧ ctx' = ctx.adopt f b) ∨
    (∀ f, (ctx'.function f).blocks = (ctx.function f).blocks) ∧
      ∀ b, (ctx'.block b).function = (ctx.block b).function := by
  cases h with
  | adoption hf hb hd => exact Or.inl ⟨_, _, hf, hb, hd, rfl⟩
  | type | constant | name | module | node | nodeOperand | attachment | reattachment =>
    exact Or.inr ⟨fun _ => rfl, fun _ => rfl⟩
  | instruction hb =>
    refine Or.inr ⟨fun _ => rfl, fun c => ?_⟩
    rw [Context.block_addInstruction hb]
    split
    · next hc => rw [hc]
    · rfl
  | function =>
    refine Or.inr ⟨fun f => ?_, fun _ => rfl⟩
    simp only [Context.declare, Context.function, getD_push]
    split
    · next hf => exact (congrArg Function.blocks (Context.function_new hf)).symm
    · rfl
  | block =>
    refine Or.inr ⟨fun _ => rfl, fun b => ?_⟩
    rw [Context.block_addBlock]
    split
    · next hb => rw [Context.block_new hb]; rfl
    · rfl

/-- A change declares one function, or of no function anything changes but the blocks. -/
theorem registrations (h : Change ctx ctx') :
    (∃ m name result params variadic linkage, ctx.HasModule m ∧ ctx.findFunction? m name = none ∧
      ctx' = ctx.declare m name result params variadic linkage) ∨
    (∀ f, ctx'.HasFunction f ↔ ctx.HasFunction f) ∧
      (∀ f, ∃ bs, ctx'.function f = { ctx.function f with blocks := bs }) ∧
      ∀ m, (ctx'.module m).functions = (ctx.module m).functions := by
  cases h with
  | function hm hn => exact Or.inl ⟨_, _, _, _, _, _, hm, hn, rfl⟩
  | type | constant | instruction | name | block | node | nodeOperand | attachment | reattachment =>
    exact Or.inr ⟨fun _ => Iff.rfl, fun f => ⟨(ctx.function f).blocks, rfl⟩, fun _ => rfl⟩
  | module =>
    refine Or.inr ⟨fun _ => Iff.rfl, fun f => ⟨(ctx.function f).blocks, rfl⟩, fun m => ?_⟩
    rw [Context.addModule, Context.module, getD_push]
    split
    · next hm => rw [Context.module, getD_of_size_le (Nat.le_of_eq hm.symm)]; rfl
    · rfl
  | @adoption f b hf =>
    refine Or.inr ⟨fun _ => ?_, fun g => ⟨((ctx.adopt f b).function g).blocks, ?_⟩, fun _ => rfl⟩
    · simp [Context.HasFunction, Context.adopt]
    · rw [Context.function_adopt hf]
      split
      · next hg => rw [hg]
      · rfl

end Change

namespace Adopted
variable {ctx ctx' : Context}

theorem empty (layout : DataLayout) : Adopted { layout := layout } where
  listed _ b := ⟨fun h => absurd h (Array.not_mem_empty b), nofun⟩
  once _ := List.nodup_nil

theorem hasFunction (ha : Adopted ctx) {b : BlockId} {f : FunctionId} (h : (ctx.block b).function = some f) :
    ctx.HasFunction f :=
  Context.hasFunction_of_mem_blocks ((ha.listed f b).mpr h)

private theorem adopt {f : FunctionId} {b : BlockId} (ha : Adopted ctx) (hf : ctx.HasFunction f)
    (hb : ctx.HasBlock b) (hd : (ctx.block b).function = none) : Adopted (ctx.adopt f b) := by
  constructor
  · intro g c
    rw [Context.function_adopt hf, Context.block_adopt hb]
    have hc := ha.listed g c
    have hn : b ∉ (ctx.function g).blocks := fun hm => by
      rw [(ha.listed g b).mp hm] at hd
      cases hd
    by_cases hg : g = f <;> by_cases hcb : c = b
    · subst hg hcb
      simp
    · subst hg
      simpa [hcb] using hc
    · subst hcb
      simpa [hg, Ne.symm hg] using hn
    · simpa [hg, hcb] using hc
  · intro g
    rw [Context.function_adopt hf]
    split
    · rw [Array.toList_push, List.nodup_append]
      refine ⟨ha.once f, by simp, ?_⟩
      intro c hc e he hce
      rw [List.mem_singleton] at he
      have := (ha.listed f b).mp (Array.mem_toList_iff.mp (he ▸ hce ▸ hc))
      rw [hd] at this
      cases this
    · exact ha.once g

theorem step (ha : Adopted ctx) (h : Change ctx ctx') : Adopted ctx' := by
  rcases h.adoptions with ⟨f, b, hf, hb, hd, rfl⟩ | ⟨hf, hb⟩
  · exact ha.adopt hf hb hd
  · constructor
    · intro f b
      simpa only [hf, hb] using ha.listed f b
    · intro f
      simpa only [hf] using ha.once f

theorem evolve (ha : Adopted ctx) (h : Evolves ctx ctx') : Adopted ctx' := h.preserves step ha

end Adopted

namespace Registered
variable {ctx ctx' : Context}

theorem empty (layout : DataLayout) : Registered { layout := layout } where
  listed _ f := ⟨fun h => absurd h (Array.not_mem_empty f), fun h => absurd h.1 (Nat.not_lt_zero _)⟩
  once _ := List.nodup_nil
  names _ _ h := absurd h (Nat.not_lt_zero _)
  value _ h := absurd h (Nat.not_lt_zero _)
  arity _ h := absurd h (Nat.not_lt_zero _)
  args _ _ _ h := absurd h (Nat.not_lt_zero _)

/-- The values that a function holds are there. -/
theorem hasValue (hr : Registered ctx) {f : FunctionId} (hf : ctx.HasFunction f) :
    ctx.HasValue (ctx.function f).value :=
  Context.hasValue_of_kind (hr.value f hf).2 (by simp)

theorem hasValue_arg (hr : Registered ctx) {f : FunctionId} {i : Nat} {v : ValueId} (hf : ctx.HasFunction f)
    (hv : (ctx.function f).args[i]? = some v) : ctx.HasValue v :=
  Context.hasValue_of_kind (hr.args f i v hf hv).2 (by simp)

theorem hasModule (hr : Registered ctx) {f : FunctionId} (hf : ctx.HasFunction f) :
    ctx.HasModule (ctx.function f).module :=
  Context.hasModule_of_mem ((hr.listed _ f).mpr ⟨hf, rfl⟩)

theorem hasFunction_of_find (hr : Registered ctx) {m : ModuleId} {name : String} {f : FunctionId}
    (h : ctx.findFunction? m name = some f) : ctx.HasFunction f :=
  ((hr.listed m f).mp (Array.mem_toList_iff.mp (List.mem_of_find?_eq_some h))).1

/-- Functions that stay the same up to their blocks stay registered. -/
private theorem keep (hr : Registered ctx) (h : ctx.Extends ctx') (hf : ∀ f, ctx'.HasFunction f ↔ ctx.HasFunction f)
    (hb : ∀ f, ∃ bs, ctx'.function f = { ctx.function f with blocks := bs })
    (hm : ∀ m, (ctx'.module m).functions = (ctx.module m).functions) : Registered ctx' where
  listed m f := by
    obtain ⟨bs, hbs⟩ := hb f
    rw [hm, hr.listed, hf, hbs]
  once m := by
    rw [hm]
    exact hr.once m
  names f g hf' hg' := by
    obtain ⟨bs, hbs⟩ := hb f
    obtain ⟨cs, hcs⟩ := hb g
    rw [hbs, hcs]
    exact hr.names f g ((hf f).mp hf') ((hf g).mp hg')
  value f hf' := by
    obtain ⟨bs, hbs⟩ := hb f
    have hf' := (hf f).mp hf'
    have hv := hr.hasValue hf'
    rw [hbs]
    exact ⟨(h.typeOf hv).trans (hr.value f hf').1, (h.kind hv).trans (hr.value f hf').2⟩
  arity f hf' := by
    obtain ⟨bs, hbs⟩ := hb f
    rw [hbs]
    exact hr.arity f ((hf f).mp hf')
  args f i v hf' hi := by
    obtain ⟨bs, hbs⟩ := hb f
    have hf' := (hf f).mp hf'
    rw [hbs] at hi ⊢
    have hv := hr.hasValue_arg hf' hi
    rw [h.typeOf hv, h.kind hv]
    exact hr.args f i v hf' hi

section Declare
variable {m : ModuleId} {name : String} {result : Ty} {params : List Ty} {variadic : Bool} {linkage : Linkage}
  (hd : ctx' = ctx.declare m name result params variadic linkage)
include hd

/-- What holds of the functions that were there and of the one that is declared holds of all. -/
private theorem forall_declare {P : FunctionId → Function → Prop} (old : ∀ f, ctx.HasFunction f → P f (ctx.function f))
    (new : P ⟨ctx.functions.size⟩ ⟨name, result, params, variadic, linkage, m, ⟨ctx.values.size⟩,
      (List.range' (ctx.values.size + 1) params.length).map ValueId.mk, #[]⟩) :
    ∀ f, ctx'.HasFunction f → P f (ctx'.function f) := by
  subst hd
  rintro ⟨i⟩ hf
  have hlt : i < ctx.functions.size + 1 := by simpa [Context.HasFunction, Context.declare] using hf
  rw [Context.function_declare]
  by_cases hi : i = ctx.functions.size
  · subst hi
    rwa [if_pos rfl]
  · rw [if_neg hi]
    exact old _ (Nat.lt_of_le_of_ne (Nat.le_of_lt_succ hlt) hi)

/-- The module lists the declared function behind the others. -/
private theorem mem_functions_declare (hm : ctx.HasModule m) {k : ModuleId} {f : FunctionId} :
    f ∈ (ctx'.module k).functions ↔ f ∈ (ctx.module k).functions ∨ k = m ∧ f = ⟨ctx.functions.size⟩ := by
  rw [hd, Context.module_declare hm]
  by_cases hk : k = m <;> simp [hk]

/-- The arguments of the declared function have the types of its parameters, in order. -/
private theorem argument_of_declare {i : Nat} {v : ValueId}
    (h : ((List.range' (ctx.values.size + 1) params.length).map ValueId.mk)[i]? = some v) :
    params[i]? = some (ctx'.typeOf v) ∧ (ctx'.value v).kind = .argument ⟨ctx.functions.size⟩ i := by
  obtain ⟨n, hn, rfl⟩ := Option.map_eq_some_iff.mp (List.getElem?_map ▸ h)
  obtain ⟨hlt, rfl⟩ := List.getElem?_eq_some_iff.mp hn
  have hlt : i < params.length := by simpa using hlt
  have ht : params[i]? = some params[i] := List.getElem?_eq_getElem hlt
  simp only [List.getElem_range', Nat.one_mul]
  rw [hd, Context.typeOf, Context.argument_declare _ _ _ _ _ ht]
  exact ⟨ht, rfl⟩

private theorem declare (hr : Registered ctx) (hm : ctx.HasModule m) (hn : ctx.findFunction? m name = none)
    (h : ctx.Extends ctx') : Registered ctx' where
  listed k f := by
    rw [mem_functions_declare hd hm, hr.listed]
    constructor
    · rintro (⟨hf, hk⟩ | ⟨rfl, rfl⟩)
      · refine ⟨h.hasFunction hf, ?_⟩
        rw [hd, Context.function_declare, if_neg (Nat.ne_of_lt hf)]
        exact hk
      · refine ⟨by simp [hd, Context.HasFunction, Context.declare], ?_⟩
        rw [hd, Context.function_declare, if_pos rfl]
    · rintro ⟨hf, hk⟩
      exact forall_declare hd (P := fun f F => F.module = k →
        ctx.HasFunction f ∧ (ctx.function f).module = k ∨ k = m ∧ f = ⟨ctx.functions.size⟩)
        (fun g hg hgk => .inl ⟨hg, hgk⟩) (fun hmk => .inr ⟨hmk.symm, rfl⟩) f hf hk
  once k := by
    have fresh : ⟨ctx.functions.size⟩ ∉ (ctx.module m).functions.toList := fun hin =>
      absurd ((hr.listed m _).mp (Array.mem_toList_iff.mp hin)).1 (Nat.lt_irrefl _)
    rw [hd, Context.module_declare hm]
    split
    · rw [Array.toList_push, List.nodup_append]
      refine ⟨hr.once m, by simp, fun f hf g hg hfg => ?_⟩
      rw [List.mem_singleton.mp hg] at hfg
      exact fresh (hfg ▸ hf)
    · exact hr.once k
  names := by
    have other : ∀ f, ctx.HasFunction f → (ctx.function f).module = m → (ctx.function f).name ≠ name :=
      fun f hf hfm => Context.name_of_findFunction? hn ((hr.listed m f).mpr ⟨hf, hfm⟩)
    intro f g hf
    refine forall_declare hd (P := fun f F => ∀ g, ctx'.HasFunction g →
      F.module = (ctx'.function g).module → F.name = (ctx'.function g).name → f = g) ?_ ?_ f hf g
    · intro f hf
      exact forall_declare hd (P := fun g G => (ctx.function f).module = G.module → (ctx.function f).name = G.name → f = g)
        (fun g hg => hr.names f g hf hg) fun hfm hfn => absurd hfn (other f hf hfm)
    · exact forall_declare hd (P := fun g G => m = G.module → name = G.name → ⟨ctx.functions.size⟩ = g)
        (fun g hg hgm hgn => absurd hgn.symm (other g hg hgm.symm)) fun _ _ => rfl
  value := by
    refine forall_declare hd (P := fun f F =>
      ctx'.typeOf F.value = .pointer F.type 0 ∧ (ctx'.value F.value).kind = .function f) (fun f hf => ?_) ?_
    · rw [h.typeOf (hr.hasValue hf), h.kind (hr.hasValue hf)]
      exact hr.value f hf
    · rw [Context.typeOf, hd, Context.value_declare]
      exact ⟨rfl, rfl⟩
  arity := forall_declare hd (P := fun _ F => F.args.length = F.params.length) hr.arity (by simp)
  args f i v hf := by
    refine forall_declare hd (P := fun f F => F.args[i]? = some v →
      F.params[i]? = some (ctx'.typeOf v) ∧ (ctx'.value v).kind = .argument f i)
      (fun f hf hi => ?_) (argument_of_declare hd) f hf
    have hv := hr.hasValue_arg hf hi
    rw [h.typeOf hv, h.kind hv]
    exact hr.args f i v hf hi

end Declare

theorem step (hr : Registered ctx) (h : Change ctx ctx') : Registered ctx' := by
  rcases h.registrations with ⟨m, name, result, params, variadic, linkage, hm, hn, rfl⟩ | ⟨hf, hb, hm⟩
  · exact declare rfl hr hm hn h.keeps
  · exact hr.keep h.keeps hf hb hm

theorem evolve (hr : Registered ctx) (h : Evolves ctx ctx') : Registered ctx' := h.preserves step hr

end Registered
end StackAssembler.IR
