import StackAssembler.Proofs.Residue

/-! Edits that leave every block where it is. Only new blocks and new functions move blocks. -/
namespace StackAssembler.IR

/-- Functions have the blocks that they had, and blocks the functions. -/
structure Unmoved (ctx ctx' : Context) : Prop where
  lists : ∀ f, (ctx'.function f).blocks = (ctx.function f).blocks
  owners : ∀ b, (ctx'.block b).function = (ctx.block b).function

namespace Unmoved
variable {ctx ctx' ctx'' : Context}

theorem refl (ctx : Context) : Unmoved ctx ctx := ⟨fun _ => rfl, fun _ => rfl⟩

theorem trans (h : Unmoved ctx ctx') (k : Unmoved ctx' ctx'') : Unmoved ctx ctx'' :=
  ⟨fun f => (k.lists f).trans (h.lists f), fun b => (k.owners b).trans (h.owners b)⟩

theorem internAll (ctx : Context) (ts : List Ty) : Unmoved ctx (ctx.internAll ts) := by
  rw [Context.internAll_eq]
  exact ⟨fun _ => rfl, fun _ => rfl⟩

theorem constant (ctx : Context) (t : Ty) (c : Constant) : Unmoved ctx (ctx.constant t c).2 := by
  unfold Context.constant
  split
  · exact refl ctx
  · exact ⟨fun _ => rfl, fun _ => rfl⟩

theorem addInstruction (ctx : Context) (b : BlockId) (op : Operation) (t : Ty) (name : Option String) :
    Unmoved ctx (ctx.addInstruction b op t name).2 := by
  refine ⟨fun _ => rfl, fun c => ?_⟩
  simp only [Context.addInstruction, Context.addValue, Context.block, getD_modify]
  split <;> rfl

theorem addCasts (ctx : Context) (b : BlockId) (casts : List (ValueId × Ty)) : Unmoved ctx (ctx.addCasts b casts) := by
  induction casts generalizing ctx with
  | nil => exact refl ctx
  | cons p casts ih => exact (addInstruction ctx b _ p.2 none).trans (ih _)

/-- A new function has no blocks. -/
theorem declare (ctx : Context) (m : ModuleId) (name : String) (result : Ty) (params : List Ty) (variadic : Bool)
    (linkage : Linkage) : Unmoved ctx (ctx.declare m name result params variadic linkage) := by
  refine ⟨fun f => ?_, fun _ => rfl⟩
  rw [Context.function_declare]
  split
  · next hf => rw [Context.function_new hf]; rfl
  · rfl

theorem emission {at? : Option BlockId} {e : Emission} {v : ValueId} (h : e.run at? ctx = .ok v ctx') :
    Unmoved ctx ctx' := by
  have outcome := e.run_outcome at? ctx
  rw [h] at outcome
  cases outcome with
  | @written b op t name ts => exact (internAll ctx ts).trans (addInstruction _ b op t name)
  | operand => exact refl ctx
  | folded ts => exact (internAll ctx ts).trans (constant _ _ _)

end Unmoved

/-- Calls leave the functions alone. -/
theorem Emission.functions_run {ctx ctx' : Context} {at? : Option BlockId} {e : Emission} {v : ValueId}
    (h : e.run at? ctx = .ok v ctx') : ctx'.functions = ctx.functions := by
  have interned (ts : List Ty) : (ctx.internAll ts).functions = ctx.functions := by rw [Context.internAll_eq]
  have outcome := e.run_outcome at? ctx
  rw [h] at outcome
  cases outcome with
  | written => exact interned _
  | operand => rfl
  | folded ts =>
    rw [← interned ts]
    unfold Context.constant
    split <;> rfl

theorem Context.functions_addCasts (ctx : Context) (b : BlockId) (casts : List (ValueId × Ty)) :
    (ctx.addCasts b casts).functions = ctx.functions := by
  induction casts generalizing ctx with
  | nil => rfl
  | cons p casts ih => exact ih _

/-- A function that is declared is new and has no blocks. -/
theorem Edit.addFunction_ok {m : ModuleId} {name : String} {type : Ty} {linkage : Linkage} {f : FunctionId}
    {ctx ctx' : Context} (h : addFunction m name type linkage ctx = .ok f ctx') :
    Unmoved ctx ctx' ∧ ctx'.blocks = ctx.blocks ∧ ctx'.HasFunction f ∧ (ctx'.function f).blocks = #[] := by
  rcases addFunction_run m name type linkage ctx with ⟨result, params, variadic, _, _, hrun⟩ | ⟨err, hrun⟩
  · have hu := Unmoved.internAll ctx [.pointer type 0]
    have hsize : (ctx.internAll [.pointer type 0]).functions.size = ctx.functions.size := by
      rw [Context.internAll_eq]
    have hblocks : (ctx.internAll [.pointer type 0]).blocks = ctx.blocks := by rw [Context.internAll_eq]
    rw [hrun] at h
    cases h
    refine ⟨hu.trans (.declare _ m name result params variadic linkage), hblocks, ?_, ?_⟩
    · change ctx.functions.size < ((ctx.internAll [.pointer type 0]).functions.push _).size
      rw [Array.size_push, hsize]
      exact Nat.lt_succ_self _
    · change (((ctx.internAll [.pointer type 0]).declare m name result params variadic linkage).function _).blocks = _
      rw [Context.function_declare, if_pos hsize.symm]
  · rw [hrun] at h
    cases h

end StackAssembler.IR

namespace StackAssembler.Build
open IR

theorem coerceEach_unmoved {at? : Option BlockId} {vs ws : List ValueId} {ts : List Ty} {ctx ctx' : Context}
    (hvs : ∀ v ∈ vs, ctx.HasValue v) (h : Step.coerceEach at? vs ts ctx = .ok ws ctx') : Unmoved ctx ctx' := by
  rcases coerceEach_ok hvs h with ⟨_, rfl⟩ | ⟨b, _, rfl⟩
  · exact .refl _
  · exact .addCasts _ _ _

theorem coerceEach_functions {at? : Option BlockId} {vs ws : List ValueId} {ts : List Ty} {ctx ctx' : Context}
    (hvs : ∀ v ∈ vs, ctx.HasValue v) (h : Step.coerceEach at? vs ts ctx = .ok ws ctx') :
    ctx'.functions = ctx.functions := by
  rcases coerceEach_ok hvs h with ⟨_, rfl⟩ | ⟨b, _, rfl⟩
  · rfl
  · exact ctx.functions_addCasts b _

/-! ### Adoption -/

/-- The detached ones of some blocks come to stand at the end of the function, in the order given. All others
stay where they are. -/
theorem Step.adoptAll_moves {ctx : Context} {f : FunctionId} {bs : List BlockId} (hf : ctx.HasFunction f)
    (hbs : ∀ b ∈ bs, ctx.HasBlock b) (hn : bs.Nodup) :
    (∀ g, ((adoptAll f bs ctx).function g).blocks.toList = (ctx.function g).blocks.toList ++
      if g = f then bs.filter fun b => (ctx.block b).function.isNone else []) ∧
    ∀ c, ((adoptAll f bs ctx).block c).function =
      if c ∈ bs then (ctx.block c).function.or (some f) else (ctx.block c).function := by
  induction bs generalizing ctx with
  | nil => simp [adoptAll]
  | cons b bs ih =>
    obtain ⟨hb, hbs⟩ := List.forall_mem_cons.mp hbs
    obtain ⟨hnot, hn⟩ := List.nodup_cons.mp hn
    rw [adoptAll]
    cases hd : (ctx.block b).function with
    | some k =>
      obtain ⟨lists, owners⟩ := ih hf hbs hn
      rw [if_neg (by simp)]
      refine ⟨fun g => ?_, fun c => ?_⟩
      · rw [lists, List.filter_cons_of_neg (by simp [hd])]
      · rw [owners]
        by_cases hc : c = b
        · simp [hc, hnot, hd]
        · simp [hc]
    | none =>
      rw [if_pos (by rfl)]
      have hf' : (ctx.adopt f b).HasFunction f := by simpa [Context.HasFunction, Context.adopt] using hf
      have hbs' : ∀ c ∈ bs, (ctx.adopt f b).HasBlock c := fun c hc => by
        simpa [Context.HasBlock, Context.adopt] using hbs c hc
      -- The blocks that follow are others than the one adopted first.
      have other : ∀ c ∈ bs, (ctx.adopt f b).block c = ctx.block c := fun c hc => by
        have hne : c ≠ b := fun he => hnot (he ▸ hc)
        rw [Context.block_adopt hb, if_neg hne]
      obtain ⟨lists, owners⟩ := ih hf' hbs' hn
      refine ⟨fun g => ?_, fun c => ?_⟩
      · rw [lists, Context.function_adopt hf,
          List.filter_congr (fun c hc => by rw [other c hc] : ∀ c ∈ bs, _ = (ctx.block c).function.isNone)]
        by_cases hg : g = f
        · simp [hg, hd]
        · simp [hg]
      · rw [owners, Context.block_adopt hb]
        by_cases hc : c = b
        · simp [hc, hnot, hd]
        · simp [hc]

end StackAssembler.Build
