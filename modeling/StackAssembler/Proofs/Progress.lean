import StackAssembler.Proofs.OperandStack
import StackAssembler.Proofs.Session

/-! Every session comes down to single changes of the context, and builders only remember handles of it. -/
namespace StackAssembler.Build
open IR

/-- A machine whose builder remembers handles of its context only. -/
structure Machine.Sound (m : Machine) : Prop where
  registered : Registered m.context
  known : m.context.Knows m.builder.handles

/-- The context came to be what it is by changes, and the builder followed. -/
structure Machine.Leads (m m' : Machine) : Prop where
  evolves : Evolves m.context m'.context
  sound : m'.Sound

/-- What a step of the machine comes to is reached by changes of the context, and it answers with known
handles. -/
def Proceeds {α : Type} (m : Machine) (answer : α → Handles) (r : EStateM.Result BuildError Machine α) : Prop :=
  Ends r (fun a m' => m.Leads m' ∧ m'.context.Knows (answer a)) m.Leads

namespace Machine.Leads
variable {m m' m'' : Machine}

theorem refl (hs : m.Sound) : m.Leads m := ⟨.refl _, hs⟩

theorem trans (h : m.Leads m') (k : m'.Leads m'') : m.Leads m'' := ⟨h.evolves.trans k.evolves, k.sound⟩

theorem knows (h : m.Leads m') {hs : Handles} (hk : m.context.Knows hs) : m'.context.Knows hs :=
  h.evolves.keeps.knows hk

end Machine.Leads

/-- A builder that creates a block remembers that one besides those that it did before. -/
theorem Machine.mem_handles_withBlock {m : Machine} {name : String} {b : BlockId}
    (h : b ∈ (m.withBlock name).builder.handles.blocks) :
    b = ⟨m.context.blocks.size⟩ ∨ b ∈ m.builder.handles.blocks := by
  simp only [Machine.withBlock, Builder.handles, List.map_append, List.mem_append, Option.mem_toList,
    Option.some.injEq, List.map_cons, List.map_nil, List.mem_singleton] at h ⊢
  tauto

/-- A target stands for a block that is known. -/
theorem Machine.hasBlock_place {m : Machine} (hk : m.context.Knows m.builder.handles) {t : Target} {b : BlockId}
    (ht : t.Known m.context) (h : m.place t = some b) : m.context.HasBlock b := by
  cases t with
  | named name =>
    obtain ⟨p, hp, rfl⟩ := Option.map_eq_some_iff.mp h
    exact Builder.hasBlock_pair hk p (List.mem_of_find?_eq_some hp)
  | block c =>
    cases h
    exact ht b rfl
  | next n =>
    simp only [Machine.place, Option.bind_eq_bind, Option.bind_eq_some_iff] at h
    obtain ⟨_, _, _, _, hb⟩ := h
    exact Builder.hasBlock_order hk b (List.mem_of_getElem? hb)

namespace Machine.Sound
variable {m : Machine}

/-- The builder's handles stay known while the context changes. -/
theorem edited (hs : m.Sound) {ctx : Context} (he : Evolves m.context ctx) : m.Leads { m with context := ctx } :=
  ⟨he, hs.registered.evolve he, he.keeps.knows hs.known⟩

/-- Operands that were taken off the stack are forgotten. -/
theorem taken (hs : m.Sound) (k : Nat) : m.Leads (m.taken k) := by
  refine ⟨.refl _, hs.registered, { hs.known with values := fun v hv => hs.known.values v ?_ }⟩
  have sub : (m.taken k).builder.stack.Sublist m.builder.stack := by
    unfold Machine.taken
    cases m.builder.keepStack with
    | true => exact .refl _
    | false => exact List.drop_sublist k _
  exact ((List.append_sublist_append_left _).mpr sub).subset hv

theorem denote (hs : m.Sound) {depth : Nat} {o : Operand} {v : ValueId} (ho : o.Known m.context)
    (h : m.denote depth o = some v) : m.context.HasValue v := by
  cases o with
  | stack => exact hs.known.values v (List.mem_append_right _ (List.mem_of_getElem? h))
  | value w =>
    cases h
    exact ho v rfl
  | var name =>
    obtain ⟨before, rest, hvars, _⟩ := List.lookup_eq_some_iff.mp h
    have hin : (name, v) ∈ m.builder.vars := by simp [hvars]
    exact hs.known.values v (List.mem_append_left _ (List.mem_map_of_mem hin))
  | arg index =>
    obtain ⟨f, hf, hv⟩ := Option.bind_eq_some_iff.mp h
    exact hs.registered.hasValue_arg (hs.known.functions f (List.mem_of_head? hf)) hv

theorem denoteAll (hs : m.Sound) {os : List Operand} {vs : List ValueId} (ho : ∀ o ∈ os, o.Known m.context)
    (h : m.denoteAll os = some vs) : m.context.Knows { values := vs } := by
  induction os generalizing vs with
  | nil =>
    cases h
    exact Context.knows_nothing
  | cons o os ih =>
    obtain ⟨ho, hos⟩ := List.forall_mem_cons.mp ho
    simp only [Machine.denoteAll, Option.bind_eq_bind, Option.bind_eq_some_iff, Option.some.injEq] at h
    obtain ⟨rest, hrest, v, hv, rfl⟩ := h
    exact (Context.knows_value.mpr (hs.denote ho hv)).cons (ih hos hrest)

theorem place (hs : m.Sound) {t : Target} {b : BlockId} (ht : t.Known m.context) (h : m.place t = some b) :
    m.context.HasBlock b :=
  hasBlock_place hs.known ht h

theorem placeAll (hs : m.Sound) {ts : List Target} {bs : List BlockId} (ht : ∀ t ∈ ts, t.Known m.context)
    (h : m.placeAll ts = some bs) : ∀ b ∈ bs, m.context.HasBlock b := by
  induction ts generalizing bs with
  | nil =>
    cases h
    simp
  | cons t ts ih =>
    obtain ⟨ht, hts⟩ := List.forall_mem_cons.mp ht
    simp only [Machine.placeAll, Option.bind_eq_bind, Option.bind_eq_some_iff, Option.some.injEq] at h
    obtain ⟨rest, hrest, b, hb, rfl⟩ := h
    exact List.forall_mem_cons.mpr ⟨hs.place ht hb, ih hts hrest⟩

theorem callee (hs : m.Sound) {c : Callee} {f : FunctionId} (hc : ∀ f ∈ c.function?, m.context.HasFunction f)
    (h : m.callee? c = some f) : m.context.HasFunction f := by
  cases c with
  | function g =>
    cases h
    exact hc f rfl
  | named name =>
    obtain ⟨k, _, hf⟩ := Option.bind_eq_some_iff.mp h
    exact hs.registered.hasFunction_of_find hf

end Machine.Sound

namespace Proceeds
variable {α β : Type} {m : Machine} {answer : α → Handles} {answer' : β → Handles}

theorem bind {x : Step α} {f : α → Step β} (h : Proceeds m answer (x m))
    (k : ∀ a m', m.Leads m' → m'.context.Knows (answer a) → Proceeds m' answer' (f a m')) :
    Proceeds m answer' ((x >>= f) m) := by
  refine Ends.bind h (fun a m' ⟨hl, ha⟩ => ?_) fun _ hl => hl
  exact (k a m' hl ha).mono (fun _ _ ⟨h, hk⟩ => ⟨hl.trans h, hk⟩) fun _ h => hl.trans h

theorem error (hs : m.Sound) (e : BuildError) : Proceeds m answer (.error e m) := .refl hs

theorem ok {a : α} (hs : m.Sound) (ha : m.context.Knows (answer a)) : Proceeds m answer (.ok a m) := ⟨.refl hs, ha⟩

/-- An edit of the context at the builder's position. -/
theorem emit {f : Option BlockId → Edit α} (hs : m.Sound)
    (h : Reaches m.context answer (f m.builder.position m.context)) : Proceeds m answer (Step.emit f m) := by
  rw [Step.emit_run]
  cases hr : f m.builder.position m.context with
  | ok a ctx =>
    rw [hr] at h
    exact ⟨hs.edited h.1, h.2⟩
  | error e ctx =>
    rw [hr] at h
    exact hs.edited h

/-- A change of what the builder remembers. -/
theorem update {f : Builder → Builder} (hs : m.Sound) (h : m.context.Knows (f m.builder).handles) :
    Proceeds m (fun _ => {}) (Step.updateBuilder f m) :=
  ⟨⟨.refl _, hs.registered, h⟩, Context.knows_nothing⟩

theorem push {v : ValueId} (hs : m.Sound) (hv : m.context.HasValue v) :
    Proceeds m (fun _ => {}) (Step.push v m) := by
  refine update hs { hs.known with values := fun w hw => ?_ }
  rcases List.mem_append.mp hw with hw | hw
  · exact hs.known.values w (List.mem_append_left _ hw)
  · rcases List.mem_cons.mp hw with rfl | hw
    · exact hv
    · exact hs.known.values w (List.mem_append_right _ hw)

theorem resolve {o : Operand} (hs : m.Sound) (ho : o.Known m.context) :
    Proceeds m (fun v => { values := [v] }) (Step.resolve o m) := by
  refine (Step.resolve_ends o m).mono (fun v m₁ ⟨hv, _, hm⟩ => ?_) fun m' hm => ?_
  · rw [hm]
    exact ⟨hs.taken _, Context.knows_value.mpr (hs.denote ho hv)⟩
  · rw [hm]
    exact .refl hs

theorem resolveAll {os : List Operand} (hs : m.Sound) (ho : ∀ o ∈ os, o.Known m.context) :
    Proceeds m (fun vs => { values := vs }) (Step.resolveAll os m) := by
  refine (Step.resolveAll_ends os m).mono (fun vs m₁ ⟨hvs, _, hm⟩ => ?_) fun m' ⟨_, _, hm⟩ => ?_
  · rw [hm]
    exact ⟨hs.taken _, hs.denoteAll ho hvs⟩
  · rw [hm]
    exact hs.taken _

theorem target {t : Target} (hs : m.Sound) (ht : t.Known m.context) :
    Proceeds m (fun b => { blocks := [b] }) (Step.target t m) := by
  refine (Step.target_ends t m).mono (fun b m₁ ⟨hb, hm⟩ => ?_) fun m' hm => ?_
  · rw [hm]
    exact ⟨.refl hs, Context.knows_block.mpr (hs.place ht hb)⟩
  · rw [hm]
    exact .refl hs

theorem resolveEdges {es : List PhiEdge} (hs : m.Sound)
    (hes : ∀ e ∈ es, e.value.Known m.context ∧ e.block.Known m.context) :
    Proceeds m (fun incoming => { values := incoming.map Prod.fst, blocks := incoming.map Prod.snd })
      (Step.resolveEdges es m) := by
  refine (Step.resolveEdges_ends es m).mono (fun incoming m₁ ⟨hvs, hbs, _, hm⟩ => ?_) fun m' ⟨_, _, hm⟩ => ?_
  · have hvalues := hs.denoteAll (List.forall_mem_map.mpr fun e he => (hes e he).1) hvs
    have hblocks := hs.placeAll (List.forall_mem_map.mpr fun e he => (hes e he).2) hbs
    rw [hm]
    exact ⟨hs.taken _, { hvalues with blocks := hblocks }⟩
  · rw [hm]
    exact hs.taken _

theorem resolveCallee {c : Callee} (hs : m.Sound) (hc : ∀ f ∈ c.function?, m.context.HasFunction f) :
    Proceeds m (fun f => { functions := [f] }) (Step.resolveCallee c m) := by
  refine (Step.resolveCallee_ends c m).mono (fun f m₁ ⟨hf, hm⟩ => ?_) fun m' hm => ?_
  · rw [hm]
    exact ⟨.refl hs, Context.knows_function.mpr (hs.callee hc hf)⟩
  · rw [hm]
    exact .refl hs

theorem emission {e : Emission} (hs : m.Sound) (hk : m.context.Knows e.handles) :
    Proceeds m (fun v => { values := [v] }) (Step.emit (e.run ·) m) := by
  refine emit hs (.emission (fun b hb => hs.known.blocks b (List.mem_append_left _ ?_)) hk)
  exact Option.mem_toList.mpr hb

theorem pushEmitted {e : Emission} (hs : m.Sound) (hk : m.context.Knows e.handles) :
    Proceeds m (fun _ => {}) (Step.pushEmitted (e.run ·) m) :=
  (emission hs hk).bind fun _ _ h hv => push h.sound (Context.knows_value.mp hv)

/-- The casts that a call puts in front of itself. -/
theorem coerceEach {ctx : Context} {at? : Option BlockId} {vs : List ValueId} {ts : List Ty}
    (hat : ∀ b ∈ at?, ctx.HasBlock b) (hvs : ∀ v ∈ vs, ctx.HasValue v) :
    Reaches ctx (fun vs => { values := vs }) (Step.coerceEach at? vs ts ctx) := by
  induction vs generalizing ctx ts with
  | nil => exact .pure Context.knows_nothing
  | cons v vs ih =>
    cases ts with
    | nil => exact .pure (Context.knows_values.mpr hvs)
    | cons t ts =>
      obtain ⟨hv, hvs⟩ := List.forall_mem_cons.mp hvs
      have first : Reaches ctx (fun v => { values := [v] }) (Step.coerce at? v t ctx) := by
        unfold Step.coerce
        split
        · exact .pure (Context.knows_value.mpr hv)
        · exact .run (e := .cast .bitcast v t) hat (Context.knows_value.mpr hv) (by simp [Emission.types])
      rw [Step.coerceEach_cons]
      refine first.bind fun w ctx₁ h₁ hw => ?_
      refine (ih (fun b hb => h₁.keeps.hasBlock (hat b hb)) fun v hv => h₁.keeps.hasValue (hvs v hv)).bind
        fun ws ctx₂ h₂ hws => ?_
      exact .pure ((h₂.keeps.knows hw).cons hws)

theorem call {callee : Callee} {args : List Operand} (hs : m.Sound)
    (hc : ∀ f ∈ callee.function?, m.context.HasFunction f) (ha : ∀ o ∈ args, o.Known m.context) :
    Proceeds m (fun v => { values := [v] }) (Step.call callee args m) := by
  refine (resolveCallee hs hc).bind fun f m₁ h₁ hf => ?_
  rw [get_bind, ite_run]
  split
  · refine (resolveAll h₁.sound fun o ho => (ha o ho).mono h₁.evolves).bind fun vs m₂ h₂ hvs => ?_
    have hat : ∀ b ∈ m₂.builder.position, m₂.context.HasBlock b := fun b hb =>
      h₂.sound.known.blocks b (List.mem_append_left _ (Option.mem_toList.mpr hb))
    refine emit h₂.sound ((coerceEach hat hvs.values).bind fun ws ctx h hws => ?_)
    have hf := h.keeps.hasFunction (h₂.evolves.keeps.hasFunction (Context.knows_function.mp hf))
    refine .emission (e := .call f ws) (fun b hb => h.keeps.hasBlock (hat b hb)) { hws with functions := ?_ }
    simpa [Emission.handles] using hf
  · exact error h₁.sound _

theorem activeFunction (hs : m.Sound) :
    Proceeds m (fun f => { functions := [f] }) (Step.activeFunction m) := by
  unfold Step.activeFunction
  cases hf : m.builder.activeFunction? with
  | none => exact error hs _
  | some f => exact ok hs (Context.knows_function.mpr (hs.known.functions f (List.mem_of_head? hf)))

theorem ret {value : Option Operand} (hs : m.Sound) (hv : ∀ o ∈ value, o.Known m.context) :
    Proceeds m (fun _ => {}) (Step.ret value m) := by
  refine (activeFunction hs).bind fun f m₁ h₁ hf => ?_
  rw [get_bind]
  cases value with
  | none =>
    cases (m₁.context.function f).result.isVoid with
    | false => exact error h₁.sound _
    | true =>
      refine (emission (e := .retVoid) h₁.sound Context.knows_nothing).bind fun _ m₂ h₂ _ => ?_
      exact ok h₂.sound Context.knows_nothing
  | some o =>
    cases (m₁.context.function f).result.isVoid with
    | true => exact error h₁.sound _
    | false =>
      refine (resolve h₁.sound ((hv o rfl).mono h₁.evolves)).bind fun v m₂ h₂ hv => ?_
      refine (emission (e := .ret v) h₂.sound hv).bind fun _ m₃ h₃ _ => ?_
      exact ok h₃.sound Context.knows_nothing

theorem setBlock {name : String} (hs : m.Sound) : Proceeds m (fun _ => {}) (Step.setBlock name m) := by
  rw [Step.setBlock, get_bind]
  cases hb : m.builder.block? name with
  | none => exact error hs _
  | some b =>
    obtain ⟨p, hp, rfl⟩ := Option.map_eq_some_iff.mp hb
    refine update hs { hs.known with blocks := fun c hc => ?_ }
    rcases List.mem_cons.mp hc with rfl | hc
    · exact Builder.hasBlock_pair hs.known p (List.mem_of_find?_eq_some hp)
    · exact hs.known.blocks c (List.mem_append_right _ hc)

theorem activate {f : FunctionId} (hs : m.Sound) (hf : m.context.HasFunction f) :
    Proceeds m (fun _ => {}) (Step.activate f m) := by
  rw [Step.activate, get_bind]
  refine update hs { hs.known with
    values := fun v hv => ?_
    functions := List.forall_mem_cons.mpr ⟨hf, hs.known.functions⟩ }
  rcases List.mem_append.mp hv with hv | hv
  · exact hs.known.values v (List.mem_append_left _ hv)
  · rcases List.mem_cons.mp hv with rfl | hv
    · exact hs.registered.hasValue hf
    · exact hs.known.values v (List.mem_append_right _ hv)

theorem useFunction {f : FunctionId} (hs : m.Sound) (hf : m.context.HasFunction f) :
    Proceeds m (fun _ => {}) (Step.useFunction f m) := by
  rw [Step.useFunction, get_bind]
  refine (update hs { hs.known with modules := ?_ }).bind fun _ m₁ h₁ _ =>
    activate h₁.sound (h₁.evolves.keeps.hasFunction hf)
  simpa [Builder.handles] using hs.registered.hasModule hf

theorem useModule {k : ModuleId} (hs : m.Sound) (hk : m.context.HasModule k) :
    Proceeds m (fun _ => {}) (Step.updateBuilder (fun b => { b with module := some k }) m) := by
  refine update hs { hs.known with modules := ?_ }
  simpa [Builder.handles] using hk

theorem drop {count : Nat} (hs : m.Sound) : Proceeds m (fun _ => {}) (Step.drop count m) := by
  rw [Step.drop, get_bind, ite_run]
  split
  · exact error hs _
  · refine update hs { hs.known with values := fun v hv => hs.known.values v ?_ }
    exact (List.append_sublist_append_left _).mpr (List.drop_sublist _ _) |>.subset hv

theorem createBlock {name : String} (hs : m.Sound) : Proceeds m (fun _ => {}) (Step.createBlock name m) := by
  rw [Step.createBlock_run, Step.left?_next (Builder.hasBlock_pair hs.known)]
  split
  · exact error hs _
  · have evolves : Evolves m.context (m.withBlock name).context := by
      unfold Machine.withBlock
      cases hf : m.builder.activeFunction? with
      | none => exact .single .block
      | some f => exact .appendBlock (hs.known.functions f (List.mem_of_head? hf))
    have created : (m.withBlock name).context.HasBlock ⟨m.context.blocks.size⟩ := by
      unfold Machine.withBlock
      cases m.builder.activeFunction? <;>
        simp [Context.HasBlock, Context.addBlock, Context.appendBlock, Context.adopt]
    have known := evolves.keeps.knows hs.known
    refine ⟨⟨evolves, hs.registered.evolve evolves, { known with blocks := fun b hb => ?_ }⟩, Context.knows_nothing⟩
    rcases Machine.mem_handles_withBlock hb with rfl | hb
    · exact created
    · exact known.blocks b hb

/-- Detached blocks are adopted one after another. -/
theorem adoptAll {ctx : Context} {f : FunctionId} {bs : List BlockId} (hf : ctx.HasFunction f)
    (hbs : ∀ b ∈ bs, ctx.HasBlock b) : Evolves ctx (Step.adoptAll f bs ctx) := by
  induction bs generalizing ctx with
  | nil => exact .refl ctx
  | cons b bs ih =>
    obtain ⟨hb, hbs⟩ := List.forall_mem_cons.mp hbs
    rw [Step.adoptAll]
    split
    · next hd =>
      have he : Evolves ctx (ctx.adopt f b) := .single (.adoption hf hb (Option.isNone_iff_eq_none.mp hd))
      exact he.trans (ih (he.keeps.hasFunction hf) fun b hb => he.keeps.hasBlock (hbs b hb))
    · exact ih hf hbs

theorem createFunction {spec : FunctionSpec} (hs : m.Sound)
    (ht : ∀ t ∈ (Ty.function spec.result spec.params spec.variadic).components, m.context.HasType t) :
    Proceeds m (fun _ => {}) (Step.createFunction spec m) := by
  rw [Step.createFunction, get_bind]
  cases hm : m.builder.module with
  | none => exact error hs _
  | some module =>
    have hmodule : m.context.HasModule module := hs.known.modules module (by simp [Builder.handles, hm])
    refine bind (emit hs (?_ : Reaches m.context (fun f => { functions := [f] }) _)) fun f m₁ h₁ hf => ?_
    · refine (Reaches.intern ht).bind fun _ ctx₁ h₁ htype => ?_
      refine (Reaches.addFunction (h₁.keeps.hasModule hmodule) (Context.knows_type.mp htype)).bind
        fun f ctx₂ h₂ hf => ?_
      have hadopt := adoptAll (Context.knows_function.mp hf) fun b hb =>
        (h₁.trans h₂).keeps.hasBlock (Builder.hasBlock_order hs.known b hb)
      unfold Reaches
      rw [bind_run, Step.attachAll_run]
      exact ⟨hadopt, hadopt.keeps.knows hf⟩
    · refine (update h₁.sound { h₁.sound.known with blocks := fun b hb => ?_ }).bind fun _ m₂ h₂ _ =>
        activate h₂.sound (h₂.evolves.keeps.hasFunction (Context.knows_function.mp hf))
      exact h₁.sound.known.blocks b (List.mem_append_right _ hb)

theorem convert {kind : Conversion} {v : ValueId} {t : Ty} (hs : m.Sound)
    (hk : m.context.Knows { types := [t], values := [v] }) :
    Proceeds m (fun _ => {}) (Step.pushEmitted (Step.convert kind · v t) m) := by
  cases kind with
  | bitcast => exact pushEmitted (e := .cast .bitcast v t) hs hk
  | zextOrTrunc => exact pushEmitted (e := .zextOrTrunc v t) hs hk
  | fptoui => exact pushEmitted (e := .fptoui v t) hs hk
  | ptrtoint => exact pushEmitted (e := .cast .ptrtoint v t) hs hk
  | inttoptr => exact pushEmitted (e := .cast .inttoptr v t) hs hk

/-- Two operands, the second of which is looked up first. -/
private theorem operands {l r : Operand} {f : ValueId → ValueId → Step Unit} (hs : m.Sound) (hl : l.Known m.context)
    (hr : r.Known m.context)
    (h : ∀ v w m', m.Leads m' → m'.context.Knows { values := [v, w] } → Proceeds m' (fun _ => {}) (f v w m')) :
    Proceeds m (fun _ => {}) ((Step.resolve r >>= fun w => Step.resolve l >>= fun v => f v w) m) := by
  refine (resolve hs hr).bind fun w m₁ h₁ hw => ?_
  refine (resolve h₁.sound (hl.mono h₁.evolves)).bind fun v m₂ h₂ hv => ?_
  exact h v w m₂ (h₁.trans h₂) (hv.cons (h₂.knows hw))

/-- An action whose handles are known, whether or not it fails. -/
theorem execute {a : Action} (hs : m.Sound) (hk : m.context.Knows a.handles) :
    Proceeds m (fun _ => {}) (a.execute m) := by
  have operand {o : Operand} (ho : o ∈ a.operands) : o.Known m.context := Action.known_operand hk ho
  have place {t : Target} (ht : t ∈ a.targets) : t.Known m.context := Action.known_target hk ht
  have type {t : Ty} (ht : t ∈ a.types) : m.context.Knows { types := [t] } := Context.knows_type.mpr (hk.types t ht)
  cases a with
  | alloc t name =>
    have ht := type (List.mem_singleton_self t)
    cases name with
    | none => exact pushEmitted (e := .alloca t none) hs ht
    | some name =>
      refine (emission (e := .alloca t (some name)) hs ht).bind fun v m₁ h₁ hv => ?_
      refine update h₁.sound { h₁.sound.known with values := List.forall_mem_cons.mpr ⟨?_, h₁.sound.known.values⟩ }
      exact Context.knows_value.mp hv
  | load t source =>
    refine (resolve hs (operand (by simp [Action.operands]))).bind fun p m₁ h₁ hp => ?_
    exact pushEmitted (e := .load t p) h₁.sound { hp with types := (h₁.knows (type (by simp [Action.types]))).types }
  | store value dest =>
    refine operands hs (operand (by simp [Action.operands])) (operand (by simp [Action.operands])) fun v d m₁ h₁ hk => ?_
    refine (emission (e := .store v d) h₁.sound hk).bind fun _ m₂ h₂ _ => ?_
    exact ok h₂.sound Context.knows_nothing
  | binary op lhs rhs =>
    exact operands hs (operand (by simp [Action.operands])) (operand (by simp [Action.operands])) fun l r m₁ h₁ hk =>
      pushEmitted (e := .binary op l r) h₁.sound hk
  | compare pred lhs rhs =>
    exact operands hs (operand (by simp [Action.operands])) (operand (by simp [Action.operands])) fun l r m₁ h₁ hk =>
      pushEmitted (e := .compare pred l r) h₁.sound hk
  | cast kind value t =>
    refine (resolve hs (operand (by simp [Action.operands]))).bind fun v m₁ h₁ hv => ?_
    exact convert h₁.sound { hv with types := (h₁.knows (type (by simp [Action.types]))).types }
  | phi edges =>
    have hes : ∀ e ∈ edges, e.value.Known m.context ∧ e.block.Known m.context := fun e he =>
      ⟨operand (List.mem_map_of_mem he), place (List.mem_map_of_mem he)⟩
    refine (resolveEdges hs hes).bind fun incoming m₁ h₁ hi => ?_
    exact pushEmitted (e := .phi incoming) h₁.sound hi
  | condBr cond onTrue onFalse =>
    refine (target hs (place (by simp [Action.targets]))).bind fun t m₁ h₁ ht => ?_
    refine (target h₁.sound ((place (by simp [Action.targets])).mono h₁.evolves)).bind fun f m₂ h₂ hf => ?_
    refine (resolve h₂.sound ((operand (by simp [Action.operands])).mono (h₁.trans h₂).evolves)).bind
      fun c m₃ h₃ hc => ?_
    have ht := ((h₂.trans h₃).knows ht).blocks
    have hf := (h₃.knows hf).blocks
    exact pushEmitted (e := .condBr c t f) h₃.sound { hc with
      blocks := List.forall_mem_cons.mpr ⟨ht t (List.mem_singleton_self t), hf⟩ }
  | branch dest =>
    refine (target hs (place (by simp [Action.targets]))).bind fun d m₁ h₁ hd => ?_
    exact pushEmitted (e := .br d) h₁.sound hd
  | call callee args =>
    have hc : ∀ f ∈ callee.function?, m.context.HasFunction f := fun f hf =>
      hk.functions f (Option.mem_toList.mpr hf)
    refine (call hs hc fun o ho => operand ho).bind fun v m₁ h₁ hv => ?_
    exact push h₁.sound (Context.knows_value.mp hv)
  | ret value => exact ret hs fun o ho => operand (Option.mem_toList.mpr ho)
  | createBlock name => exact createBlock hs
  | setBlock name => exact setBlock hs
  | createFunction spec => exact createFunction hs hk.types
  | useFunction f => exact useFunction hs (hk.functions f (List.mem_singleton_self f))
  | useModule k => exact useModule hs (hk.modules k (List.mem_singleton_self k))
  | push value =>
    refine (resolve hs (operand (by simp [Action.operands]))).bind fun v m₁ h₁ hv => ?_
    exact push h₁.sound (Context.knows_value.mp hv)
  | pop count => exact drop hs
  | keepStack => exact update (f := fun b => { b with keepStack := true }) hs hs.known
  | inspect => exact ok hs Context.knows_nothing

end Proceeds

namespace Machine.Sound
variable {m m' : Machine}

theorem empty (layout : DataLayout) : Sound ⟨{ layout := layout }, {}⟩ :=
  ⟨.empty layout, Context.knows_nothing⟩

/-- A command with known handles. -/
theorem command (hs : m.Sound) {c : Command} (hk : m.context.Knows c.handles) : m.Leads (c.run m) := by
  cases c with
  | request r => exact hs.edited (Request.evolves hk)
  | emit at? e =>
    have he : Reaches m.context _ (e.run at? m.context) :=
      .emission (fun b hb => hk.blocks b (List.mem_append_left _ (Option.mem_toList.mpr hb)))
        { hk with blocks := fun b hb => hk.blocks b (List.mem_append_right _ hb) }
    exact hs.edited (he.mono (fun _ _ h => h.1) fun _ h => h).after
  | perform a => exact ((Proceeds.execute hs hk).mono (fun _ _ h => h.1) fun _ h => h).after
  | last =>
    have hp : Proceeds m _ (Step.pop m) := .resolve (o := .stack) hs nofun
    exact (hp.mono (fun _ _ h => h.1) fun _ h => h).after
  | restart => exact ⟨.refl _, hs.registered, Context.knows_nothing⟩

theorem session (hs : m.Sound) (h : Session m m') : m.Leads m' := by
  induction h with
  | done => exact .refl hs
  | step c _ hk ih => exact ih.trans (ih.sound.command hk)

end Machine.Sound

/-- A reachable machine is sound, and its context came of the empty one by changes. -/
theorem Reachable.leads {m : Machine} (h : Reachable m) :
    ∃ layout : DataLayout, Machine.Leads ⟨{ layout := layout }, {}⟩ m :=
  h.imp fun layout hs => (Machine.Sound.empty layout).session hs

end StackAssembler.Build
