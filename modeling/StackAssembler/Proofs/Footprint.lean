import StackAssembler.Proofs.Commutation

/-! Where in a context an action is at work. Everywhere else the context stays as it is, and values are only added. -/
namespace StackAssembler.IR

theorem getD_modify_ne {α : Type} {j i : Nat} (h : j ≠ i) (xs : Array α) (f : α → α) (d : α) :
    (xs.modify j f).getD i d = xs.getD i d := by
  rw [getD_modify, if_neg fun hi => h hi.1]

/-- A value that was there reads as before when values are only added. -/
theorem Context.value_of_grows {c d : Context} (h : c.values.toList <+: d.values.toList) {v : ValueId}
    (hv : c.HasValue v) : d.value v = c.value v := by
  have hl : v.index < c.values.toList.length := hv
  obtain ⟨added, hadded⟩ := h
  rw [Context.value, Context.value, Array.getD_eq_getD_getElem?, Array.getD_eq_getD_getElem?, ← Array.getElem?_toList,
    ← Array.getElem?_toList, ← hadded, List.getElem?_append_left hl]

/-- Where a context may change: a block that gets instructions, a function that gets blocks, and a module that gets
functions. -/
structure Footprint where
  block : Option BlockId := none
  function : Option FunctionId := none
  module : Option ModuleId := none

/-- A context grows, and outside of a footprint all that was there stays the same. -/
structure Within (p : Footprint) (c d : Context) : Prop where
  values : c.values.toList <+: d.values.toList
  nodes : d.nodes = c.nodes
  attachments : d.attachments = c.attachments
  instructions : ∀ b, p.block ≠ some b → (d.block b).instructions = (c.block b).instructions
  size : c.functions.size ≤ d.functions.size
  functions : ∀ f, c.HasFunction f → p.function ≠ some f → d.function f = c.function f
  modules : ∀ k, p.module ≠ some k → d.module k = c.module k

namespace Within
variable {p : Footprint} {c d e : Context}

theorem refl (p : Footprint) (c : Context) : Within p c c :=
  ⟨List.prefix_rfl, rfl, rfl, fun _ _ => rfl, Nat.le_refl _, fun _ _ _ => rfl, fun _ _ => rfl⟩

theorem trans (h : Within p c d) (k : Within p d e) : Within p c e where
  values := h.values.trans k.values
  nodes := k.nodes.trans h.nodes
  attachments := k.attachments.trans h.attachments
  instructions b hb := (k.instructions b hb).trans (h.instructions b hb)
  size := Nat.le_trans h.size k.size
  functions f hf hp := (k.functions f (Nat.lt_of_lt_of_le hf h.size) hp).trans (h.functions f hf hp)
  modules m hm := (k.modules m hm).trans (h.modules m hm)

/-- What changes nothing that was there stays within any footprint. -/
theorem anywhere (h : Within {} c d) (p : Footprint) : Within p c d :=
  { h with
    instructions := fun b _ => h.instructions b nofun
    functions := fun f hf _ => h.functions f hf nofun
    modules := fun k _ => h.modules k nofun }

/-- Blocks that a new function gets are no change of what was there. -/
theorem trans_new {f : FunctionId} (h : Within p c d) (hf : ¬ c.HasFunction f) (k : Within { function := some f } d e) :
    Within p c e where
  values := h.values.trans k.values
  nodes := k.nodes.trans h.nodes
  attachments := k.attachments.trans h.attachments
  instructions b hb := (k.instructions b nofun).trans (h.instructions b hb)
  size := Nat.le_trans h.size k.size
  functions g hg hp := by
    have hne : g ≠ f := fun he => hf (he ▸ hg)
    have same := k.functions g (Nat.lt_of_lt_of_le hg h.size) fun he => hne (Option.some.inj he).symm
    exact same.trans (h.functions g hg hp)
  modules m hm := (k.modules m nofun).trans (h.modules m hm)

/-- A value that was there reads as before. -/
theorem value (h : Within p c d) {v : ValueId} (hv : c.HasValue v) : d.value v = c.value v :=
  Context.value_of_grows h.values hv

/-! ### Single changes -/

theorem internAll (c : Context) (ts : List Ty) : Within {} c (c.internAll ts) := by
  rw [Context.internAll_eq]
  exact ⟨List.prefix_rfl, rfl, rfl, fun _ _ => rfl, Nat.le_refl _, fun _ _ _ => rfl, fun _ _ => rfl⟩

theorem constant (c : Context) (t : Ty) (k : Constant) : Within {} c (c.constant t k).2 := by
  unfold Context.constant
  split
  · exact refl {} c
  · exact { refl {} c with values := by simp [Context.addValue] }

theorem addInstruction (c : Context) (b : BlockId) (op : Operation) (t : Ty) (name : Option String) :
    Within { block := some b } c (c.addInstruction b op t name).2 :=
  { refl { block := some b } c with
    values := by simp [Context.addInstruction, Context.addValue]
    instructions := fun k hk => by
      have hi : b.index ≠ k.index := fun he => hk (by cases b; cases k; simp_all)
      rw [Context.addInstruction, Context.addValue, Context.block, getD_modify_ne hi, Context.block] }

theorem addCasts (c : Context) (b : BlockId) (casts : List (ValueId × Ty)) :
    Within { block := some b } c (c.addCasts b casts) := by
  induction casts generalizing c with
  | nil => exact refl _ c
  | cons p casts ih => exact (addInstruction c b _ p.2 none).trans (ih _)

theorem emission {at? : Option BlockId} {e : Emission} {v : ValueId} (h : e.run at? c = .ok v d) :
    Within { block := at? } c d := by
  have outcome := e.run_outcome at? c
  rw [h] at outcome
  cases outcome with
  | @written b op t name ts hb =>
    rw [hb]
    exact ((internAll c ts).anywhere _).trans (addInstruction _ b op t name)
  | operand => exact refl _ c
  | folded ts => exact (((internAll c ts).trans (constant _ _ _))).anywhere _

theorem addBlock (c : Context) (name : Option String) : Within {} c (c.addBlock name).2 :=
  { refl {} c with
    instructions := fun b _ => by
      rw [Context.block_addBlock]
      split
      · next hb => rw [Context.block_new hb]; rfl
      · rfl }

theorem adopt (c : Context) (f : FunctionId) (b : BlockId) : Within { function := some f } c (c.adopt f b) :=
  { refl { function := some f } c with
    instructions := fun k _ => by
      simp only [Context.adopt, Context.block, getD_modify]
      split <;> rfl
    size := by simp [Context.adopt]
    functions := fun g _ hg => by
      have hi : f.index ≠ g.index := fun he => hg (by cases f; cases g; simp_all)
      rw [Context.adopt, Context.function, getD_modify_ne hi, Context.function] }

theorem declare (c : Context) (m : ModuleId) (name : String) (result : Ty) (params : List Ty) (variadic : Bool)
    (linkage : Linkage) : Within { module := some m } c (c.declare m name result params variadic linkage) :=
  { refl { module := some m } c with
    values := by
      rw [Context.declare_values]
      simp
    size := by simp [Context.declare]
    functions := fun f hf _ => by rw [Context.function_declare, if_neg (Nat.ne_of_lt hf)]
    modules := fun k hk => by
      have hi : m.index ≠ k.index := fun he => hk (by cases m; cases k; simp_all)
      rw [Context.declare, Context.module, getD_modify_ne hi, Context.module] }

theorem addFunction {m : ModuleId} {name : String} {type : Ty} {linkage : Linkage} {f : FunctionId}
    (h : Edit.addFunction m name type linkage c = .ok f d) :
    f = ⟨c.functions.size⟩ ∧ Within { module := some m } c d := by
  rcases Edit.addFunction_run m name type linkage c with ⟨result, params, variadic, _, _, hrun⟩ | ⟨err, hrun⟩
  · rw [hrun] at h
    cases h
    exact ⟨rfl, ((internAll c [.pointer type 0]).anywhere _).trans (declare _ m name result params variadic linkage)⟩
  · rw [hrun] at h
    cases h

end Within
end StackAssembler.IR

namespace StackAssembler.Build
open IR

/-- Where an action is at work. A function that it creates is new, and so no part of what was there. -/
def Machine.footprint (m : Machine) : Action → Footprint
  | .createBlock _ => { function := m.builder.activeFunction? }
  | .createFunction _ => { module := m.builder.module }
  | a => { block := if a.emits then m.builder.position else none }

theorem Machine.footprint_of_emits {m : Machine} {a : Action} (ha : a.emits) :
    m.footprint a = { block := m.builder.position } := by
  cases a <;> first | rfl | cases ha

theorem Step.adoptAll_within (f : FunctionId) (bs : List BlockId) (c : Context) :
    Within { function := some f } c (adoptAll f bs c) := by
  induction bs generalizing c with
  | nil => exact .refl _ c
  | cons b bs ih =>
    rw [adoptAll]
    split
    · exact (Within.adopt c f b).trans (ih _)
    · exact ih c

theorem Machine.withBlock_within (m : Machine) (name : String) :
    Within { function := m.builder.activeFunction? } m.context (m.withBlock name).context := by
  unfold withBlock
  cases m.builder.activeFunction? with
  | none => exact .addBlock m.context (some name)
  | some f => exact ((Within.addBlock m.context (some name)).anywhere _).trans (.adopt _ f _)

theorem coerceEach_within {at? : Option BlockId} {vs ws : List ValueId} {ts : List Ty} {c d : Context}
    (hvs : ∀ v ∈ vs, c.HasValue v) (h : Step.coerceEach at? vs ts c = .ok ws d) : Within { block := at? } c d := by
  rcases coerceEach_ok hvs h with ⟨_, rfl⟩ | ⟨b, rfl, rfl⟩
  · exact .refl _ _
  · exact .addCasts _ b _

theorem Effect.within {m m₁ : Machine} {a : Action} {vs : List ValueId} {r : Option ValueId} (h : Effect m a vs r m₁)
    (hvs : ∀ v ∈ vs, m.context.HasValue v) : Within (m.footprint a) m.context m₁.context := by
  cases h with
  | emitted he hr =>
    have ha : a.emits := by cases a <;> first | rfl | cases he
    rw [Machine.footprint_of_emits ha]
    exact .emission hr
  | alloc hr => exact .emission hr
  | call _ hc hr => exact (coerceEach_within hvs hc).trans (.emission hr)
  | createBlock => exact m.withBlock_within _
  | @createFunction spec k f ctx hk hf =>
    obtain ⟨rfl, hw⟩ := Within.addFunction hf
    have hi := (Within.internAll m.context [.function spec.result spec.params spec.variadic]).anywhere { module := some k }
    have hsize := hi.size
    change Within { module := m.builder.module } _ _
    rw [hk]
    refine (hi.trans hw).trans_new (fun hlt => ?_) (Step.adoptAll_within _ _ _)
    exact absurd (Nat.lt_of_lt_of_le hlt hsize) (Nat.lt_irrefl _)
  | setBlock | useFunction | useModule | push | pop | keepStack | inspect => exact .refl _ _

theorem Failed.within {m m' : Machine} {a : Action} (hs : m.Sound) (hk : m.context.Knows a.handles)
    (h : Failed m a m') : Within (m.footprint a) m.context m'.context := by
  cases h with
  | @spent j ts => exact (Within.internAll m.context ts).anywhere _
  | coerced ha _ hvs hws =>
    subst ha
    have hknown := hs.denoteAll (fun o ho => Action.known_operand hk ho) hvs
    exact coerceEach_within (fun v hv => hknown.values v (List.mem_of_mem_take hv)) hws
  | foreign hp hn => exact absurd (Builder.hasBlock_pair hs.known _ hp) hn

/-- Whether or not an action fails, the context stays as it is outside of the footprint. -/
theorem Machine.Sound.within {m : Machine} (hs : m.Sound) {a : Action} (hk : m.context.Knows a.handles) :
    Within (m.footprint a) m.context (after a.execute m).context := by
  have hends := a.execute_ends m
  unfold after
  cases hx : a.execute m with
  | ok u m' =>
    rw [hx] at hends
    obtain ⟨_, vs, r, m₁, hvs, he, rfl⟩ := hends
    exact he.within (hs.denoteAll (fun o ho => Action.known_operand hk ho) hvs).values
  | error e m' =>
    rw [hx] at hends
    exact Failed.within hs hk hends

end StackAssembler.Build
