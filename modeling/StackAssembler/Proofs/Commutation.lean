import StackAssembler.Proofs.Tandem

/-! Emissions into different blocks. In whichever order they are made, the text of every module is the same. -/
namespace StackAssembler.Build
open IR

namespace Action

/-- Whether an action is made to write an instruction. -/
def emits : Action → Bool
  | alloc .. | load .. | store .. | binary .. | compare .. | cast .. | phi _ | condBr .. | branch _ | call ..
  | ret _ => true
  | _ => false

/-- An emitting action that takes nothing from the stack. -/
structure Explicit (a : Action) : Prop where
  emits : a.emits
  operands : .stack ∉ a.operands

/-- Whether an action binds a variable that another one reads. -/
def Disturbs (a b : Action) : Prop := ∃ name ∈ a.newVar?, .var name ∈ b.operands

end Action

/-- The machine whose builder goes on in a block. -/
def Machine.inBlock (m : Machine) (b : BlockId) : Machine := { m with builder.position := some b }

/-! ### Runs that follow one another -/

/-- If the first run succeeds, the second one does, and their results and states are related. -/
def Follows {α : Type} (r r' : EStateM.Result BuildError Machine α) (R : α → Machine → α → Machine → Prop) : Prop :=
  ∀ a s, r = .ok a s → ∃ a' s', r' = .ok a' s' ∧ R a s a' s'

theorem Follows.bind {α β : Type} {x : Step α} {f g : α → Step β} {m m' : Machine}
    {R : α → Machine → α → Machine → Prop} {S : β → Machine → β → Machine → Prop} (h : Follows (x m) (x m') R)
    (k : ∀ a s a' s', R a s a' s' → Follows (f a s) (g a' s') S) : Follows ((x >>= f) m) ((x >>= g) m') S := by
  intro b s hr
  obtain ⟨a, s₁, hx, hf⟩ := bind_ok hr
  obtain ⟨a', s₁', hx', hR⟩ := h a s₁ hx
  obtain ⟨b', s', hf', hS⟩ := k a s₁ a' s₁' hR b s hf
  exact ⟨b', s', by rw [bind_of_ok hx', hf'], hS⟩

/-- A look-up that finds the same on two machines and leaves both as they are. -/
def Finds {α : Type} (m m' : Machine) (x : Step α) (P : α → Prop) : Prop :=
  ∀ a s, x m = .ok a s → s = m ∧ x m' = .ok a m' ∧ P a

namespace Finds
variable {α β : Type} {m m' : Machine} {x : Step α} {P : α → Prop}

theorem pure {a : α} (h : P a) : Finds m m' (Pure.pure a) P := by
  intro a' s hr
  cases hr
  exact ⟨rfl, rfl, h⟩

theorem bind {f : α → Step β} {Q : β → Prop} (h : Finds m m' x P) (k : ∀ a, P a → Finds m m' (f a) Q) :
    Finds m m' (x >>= f) Q := by
  intro b s hr
  obtain ⟨a, s₁, hx, hf⟩ := bind_ok hr
  obtain ⟨rfl, hx', ha⟩ := h a s₁ hx
  obtain ⟨hs, hf', hb⟩ := k a ha b s hf
  exact ⟨hs, by rw [bind_of_ok hx', hf'], hb⟩

/-- Go on with what was found. -/
theorem follows {f g : α → Step β} {S : β → Machine → β → Machine → Prop} (h : Finds m m' x P)
    (k : ∀ a, P a → Follows (f a m) (g a m') S) : Follows ((x >>= f) m) ((x >>= g) m') S := by
  intro b s hr
  obtain ⟨a, s₁, hx, hf⟩ := bind_ok hr
  obtain ⟨rfl, hx', ha⟩ := h a s₁ hx
  obtain ⟨b', s', hf', hS⟩ := k a ha b s hf
  exact ⟨b', s', by rw [bind_of_ok hx', hf'], hS⟩

end Finds

/-- Two machines on which an action with some operands looks up the same, at a block where it writes the same. -/
structure Abreast (n : Nat) (b : BlockId) (os : List Operand) (m m' : Machine) : Prop where
  here : m.builder.position = some b
  position : m'.builder.position = m.builder.position
  module : m'.builder.module = m.builder.module
  functions : m'.builder.functions = m.builder.functions
  blocks : m'.builder.blocks = m.builder.blocks
  order : m'.builder.blockOrder = m.builder.blockOrder
  modules : m'.context.modules = m.context.modules
  alike : Alike n b m.context m'.context
  explicit : .stack ∉ os
  operands : ∀ o ∈ os, m'.denote 0 o = m.denote 0 o ∧ ∀ v, m.denote 0 o = some v → v.index < n

/-- Both contexts grow alike. -/
def Growing (n : Nat) (b : BlockId) (m m' : Machine) {α : Type} (_ : α) (s : Machine) (_ : α) (s' : Machine) : Prop :=
  Parallel n b m.context s.context m'.context s'.context

namespace Abreast
variable {n : Nat} {b : BlockId} {os : List Operand} {m m' : Machine}

theorem symm (h : Abreast n b os m m') : Abreast n b os m' m where
  here := h.position.trans h.here
  position := h.position.symm
  module := h.module.symm
  functions := h.functions.symm
  blocks := h.blocks.symm
  order := h.order.symm
  modules := h.modules.symm
  alike := h.alike.symm
  explicit := h.explicit
  operands o ho := ⟨(h.operands o ho).1.symm, fun v hv => (h.operands o ho).2 v ((h.operands o ho).1 ▸ hv)⟩

/-! ### Looking up -/

theorem resolve (h : Abreast n b os m m') {o : Operand} (ho : o ∈ os) :
    Finds m m' (Step.resolve o) fun v => v.index < n := by
  intro v s hr
  have hne : o ≠ .stack := fun he => h.explicit (he ▸ ho)
  obtain ⟨hv, _, hs⟩ := (Step.resolve_ends o m).of_ok hr
  obtain ⟨same, old⟩ := h.operands o ho
  have hc : [o].count .stack = 0 := by simp [hne]
  rw [hc, m.taken_zero] at hs
  refine ⟨hs, ?_, old v hv⟩
  rw [← same] at hv
  cases o with
  | stack => exact absurd rfl hne
  | value w =>
    cases hv
    rfl
  | var name =>
    change m'.builder.var? name = some v at hv
    simp only [Step.resolve, hv]
  | arg index =>
    obtain ⟨f, hf, hv⟩ := Option.bind_eq_some_iff.mp hv
    simp only [Step.resolve, hf, hv]

theorem resolveAll (h : Abreast n b os m m') {ps : List Operand} (hps : ∀ o ∈ ps, o ∈ os) :
    Finds m m' (Step.resolveAll ps) fun vs => ∀ v ∈ vs, v.index < n := by
  induction ps with
  | nil => exact .pure nofun
  | cons o ps ih =>
    obtain ⟨ho, hps⟩ := List.forall_mem_cons.mp hps
    refine (ih hps).bind fun vs hvs => (h.resolve ho).bind fun v hv => ?_
    exact .pure (List.forall_mem_cons.mpr ⟨hv, hvs⟩)

theorem target (h : Abreast n b os m m') (t : Target) : Finds m m' (Step.target t) fun _ => True := by
  intro c s hr
  obtain ⟨hc, hs⟩ := (Step.target_ends t m).of_ok hr
  refine ⟨hs, ?_, trivial⟩
  cases t with
  | named name =>
    have hb : m'.builder.block? name = some c := by
      rw [Builder.block?, h.blocks]
      exact hc
    simp only [Step.target, hb]
  | block d =>
    cases hc
    rfl
  | next k =>
    simp only [Machine.place, Option.bind_eq_bind, Option.bind_eq_some_iff] at hc
    obtain ⟨current, hp, i, hi, hb⟩ := hc
    simp only [Step.target, h.position, hp, h.order, hi, hb]

theorem resolveEdges (h : Abreast n b os m m') {es : List PhiEdge} (hes : ∀ e ∈ es, e.value ∈ os) :
    Finds m m' (Step.resolveEdges es) fun xs => ∀ v ∈ xs.map Prod.fst, v.index < n := by
  induction es with
  | nil => exact .pure nofun
  | cons e es ih =>
    obtain ⟨he, hes⟩ := List.forall_mem_cons.mp hes
    refine (ih hes).bind fun xs hxs => (h.target e.block).bind fun c _ => (h.resolve he).bind fun v hv => ?_
    exact .pure (List.forall_mem_cons.mpr ⟨hv, hxs⟩)

theorem resolveCallee (h : Abreast n b os m m') (c : Callee) :
    Finds m m' (Step.resolveCallee c) fun _ => True := by
  intro f s hr
  obtain ⟨hf, hs⟩ := (Step.resolveCallee_ends c m).of_ok hr
  refine ⟨hs, ?_, trivial⟩
  cases c with
  | function g =>
    cases hf
    rfl
  | named name =>
    obtain ⟨k, hk, hf⟩ := Option.bind_eq_some_iff.mp hf
    have hfind : m'.context.findFunction? k name = some f := by
      rw [← hf]
      simp only [Context.findFunction?, Context.module, h.modules, h.alike.functionOf]
    simp only [Step.resolveCallee, h.module, hk, hfind]

theorem activeFunction (h : Abreast n b os m m') : Finds m m' Step.activeFunction fun _ => True := by
  intro f s hr
  have same : m'.builder.activeFunction? = m.builder.activeFunction? := by
    rw [Builder.activeFunction?, h.functions, Builder.activeFunction?]
  unfold Step.activeFunction at hr ⊢
  rw [same]
  cases hf : m.builder.activeFunction? with
  | none =>
    rw [hf] at hr
    cases hr
  | some g =>
    rw [hf] at hr
    cases hr
    exact ⟨rfl, rfl, trivial⟩

/-! ### Writing -/

theorem emit (h : Abreast n b os m m') {f : Option BlockId → Edit ValueId}
    (hf : ∀ v ctx, f (some b) m.context = .ok v ctx →
      ∃ w ctx', f (some b) m'.context = .ok w ctx' ∧ Parallel n b m.context ctx m'.context ctx') :
    Follows (Step.emit f m) (Step.emit f m') (Growing n b m m') := by
  intro v s hr
  rw [Step.emit_run, h.here] at hr
  cases hrun : f (some b) m.context with
  | error err ctx =>
    rw [hrun] at hr
    cases hr
  | ok u ctx =>
    rw [hrun] at hr
    cases hr
    obtain ⟨w, ctx', hw, hp⟩ := hf _ ctx hrun
    refine ⟨w, { m' with context := ctx' }, ?_, hp⟩
    rw [Step.emit_run, h.position, h.here, hw]

theorem emission (h : Abreast n b os m m') {e : Emission} (he : ∀ v ∈ e.handles.values, v.index < n) :
    Follows (Step.emit (e.run ·) m) (Step.emit (e.run ·) m') (Growing n b m m') :=
  h.emit fun _ _ hr => Emission.follows h.alike he hr

/-- What is done with the builder afterwards has no part in it. -/
theorem update {α : Type} {a a' : α} {s s' : Machine} (hg : Growing n b m m' a s a' s') (f g : Builder → Builder) :
    Follows (Step.updateBuilder f s) (Step.updateBuilder g s') (Growing n b m m') := by
  intro u t hr
  cases hr
  exact ⟨(), _, rfl, hg⟩

theorem pushEmitted (h : Abreast n b os m m') {e : Emission} (he : ∀ v ∈ e.handles.values, v.index < n) :
    Follows (Step.pushEmitted (e.run ·) m) (Step.pushEmitted (e.run ·) m') (Growing n b m m') :=
  .bind (h.emission he) fun _ _ _ _ hg => update hg _ _

theorem silent (h : Abreast n b os m m') {e : Emission} (he : ∀ v ∈ e.handles.values, v.index < n) :
    Follows ((Step.emit (e.run ·) >>= fun _ => pure ()) m) ((Step.emit (e.run ·) >>= fun _ => pure ()) m')
      (Growing n b m m') := by
  refine .bind (h.emission he) fun v s v' s' hg => ?_
  intro u t hr
  cases hr
  exact ⟨(), _, rfl, hg⟩

theorem call (h : Abreast n b os m m') (callee : Callee) {args : List Operand} (hargs : ∀ o ∈ args, o ∈ os) :
    Follows (Step.call callee args m) (Step.call callee args m') (Growing n b m m') := by
  refine (h.resolveCallee callee).follows fun f _ => ?_
  rw [get_bind, get_bind, h.alike.functionOf, ite_run, ite_run]
  split
  · refine (h.resolveAll hargs).follows fun vs hvs => ?_
    exact h.emit fun _ _ hr => call_follows h.alike hvs hr
  · exact nofun

theorem ret (h : Abreast n b os m m') {value : Option Operand} (hv : ∀ o ∈ value, o ∈ os) :
    Follows (Step.ret value m) (Step.ret value m') (Growing n b m m') := by
  refine h.activeFunction.follows fun f _ => ?_
  rw [get_bind, get_bind, h.alike.functionOf]
  cases value with
  | none =>
    cases (m.context.function f).result.isVoid with
    | true => exact h.silent (e := .retVoid) nofun
    | false => exact nofun
  | some o =>
    cases (m.context.function f).result.isVoid with
    | true => exact nofun
    | false =>
      refine (h.resolve (hv o rfl)).follows fun v hold => ?_
      exact h.silent (e := .ret v) (by simpa [Emission.handles] using hold)

end Abreast

/-- An emitting action that succeeds on one machine succeeds on another one abreast of it. -/
theorem Action.execute_follows {n : Nat} {b : BlockId} {m m' : Machine} {a : Action} (ha : a.emits)
    (h : Abreast n b a.operands m m') : Follows (a.execute m) (a.execute m') (Growing n b m m') := by
  cases a with
  | alloc t name =>
    cases name with
    | none => exact h.pushEmitted (e := .alloca t none) (List.forall_mem_nil _)
    | some name =>
      exact .bind (h.emission (e := .alloca t (some name)) (List.forall_mem_nil _)) fun _ _ _ _ hg => Abreast.update hg _ _
  | load t source =>
    refine (h.resolve (.head _)).follows fun p hp => ?_
    exact h.pushEmitted (e := .load t p) (by simpa [Emission.handles] using hp)
  | store value dest =>
    refine (h.resolve (.tail _ (.head _))).follows fun d hd => (h.resolve (.head _)).follows fun v hv => ?_
    exact h.silent (e := .store v d) (by simpa [Emission.handles] using ⟨hv, hd⟩)
  | binary op lhs rhs =>
    refine (h.resolve (.tail _ (.head _))).follows fun r hr => (h.resolve (.head _)).follows fun l hl => ?_
    exact h.pushEmitted (e := .binary op l r) (by simpa [Emission.handles] using ⟨hl, hr⟩)
  | compare pred lhs rhs =>
    refine (h.resolve (.tail _ (.head _))).follows fun r hr => (h.resolve (.head _)).follows fun l hl => ?_
    exact h.pushEmitted (e := .compare pred l r) (by simpa [Emission.handles] using ⟨hl, hr⟩)
  | cast kind value t =>
    refine (h.resolve (.head _)).follows fun v hv => ?_
    have hold : ∀ u ∈ (kind.emission v t).handles.values, u.index < n := by
      cases kind <;> simpa [Conversion.emission, Emission.handles] using hv
    have hp := h.pushEmitted hold
    cases kind <;> exact hp
  | phi edges =>
    refine (h.resolveEdges fun e he => List.mem_map_of_mem he).follows fun xs hxs => ?_
    exact h.pushEmitted (e := .phi xs) hxs
  | condBr cond onTrue onFalse =>
    refine (h.target onTrue).follows fun t _ => (h.target onFalse).follows fun f _ => ?_
    refine (h.resolve (.head _)).follows fun c hc => ?_
    exact h.pushEmitted (e := .condBr c t f) (by simpa [Emission.handles] using hc)
  | branch dest =>
    refine (h.target dest).follows fun d _ => ?_
    exact h.pushEmitted (e := .br d) (List.forall_mem_nil _)
  | call callee args => exact .bind (h.call callee fun o ho => ho) fun _ _ _ _ hg => Abreast.update hg _ _
  | ret value => exact h.ret fun o ho => Option.mem_toList.mpr ho
  | _ => cases ha

/-! ### What an emission leaves as it was -/

/-- What an emitting action makes of a machine when the builder is at a block. -/
structure Wrote (b : BlockId) (a : Action) (m m₁ : Machine) : Prop where
  appends : ∃ es extra, Appends b es extra m.context m₁.context
  keeps : m.context.Extends m₁.context
  module : m₁.builder.module = m.builder.module
  functions : m₁.builder.functions = m.builder.functions
  blocks : m₁.builder.blocks = m.builder.blocks
  order : m₁.builder.blockOrder = m.builder.blockOrder
  vars : ∃ new, m₁.builder.vars = new ++ m.builder.vars ∧ ∀ p ∈ new, p.1 ∈ a.newVar?

/-- An emitting action does nothing to the builder but bind a variable. -/
theorem Effect.builder {m m₁ : Machine} {a : Action} {vs : List ValueId} {r : Option ValueId}
    (h : Effect m a vs r m₁) (ha : a.emits) : m₁.builder.module = m.builder.module ∧
      m₁.builder.functions = m.builder.functions ∧ m₁.builder.blocks = m.builder.blocks ∧
      m₁.builder.blockOrder = m.builder.blockOrder := by
  cases h with
  | emitted | alloc | call => exact ⟨rfl, rfl, rfl, rfl⟩
  | _ => cases ha

theorem Action.newVar?_of_mem_binds {a : Action} {ctx : Context} {p : String × ValueId} (h : p ∈ a.binds ctx) :
    p.1 ∈ a.newVar? := by
  cases a with
  | alloc t name =>
    cases name with
    | none => cases h
    | some name =>
      obtain rfl := List.mem_singleton.mp h
      rfl
  | _ => cases h

namespace Machine.Sound
variable {m m₁ : Machine} {a : Action} {b : BlockId}

theorem inBlock (hs : m.Sound) (hb : m.context.HasBlock b) : (m.inBlock b).Sound := by
  refine ⟨hs.registered, { hs.known with blocks := fun c hc => ?_ }⟩
  rcases List.mem_cons.mp hc with rfl | hc
  · exact hb
  · exact hs.known.blocks c (List.mem_append_right _ hc)

/-- A machine is abreast of itself. -/
theorem abreast (hs : m.Sound) (hb : m.context.HasBlock b) {os : List Operand} (hos : .stack ∉ os)
    (hk : ∀ o ∈ os, o.Known m.context) :
    Abreast m.context.values.size b os (m.inBlock b) (m.inBlock b) where
  here := rfl
  position := rfl
  module := rfl
  functions := rfl
  blocks := rfl
  order := rfl
  modules := rfl
  alike := ⟨⟨Nat.le_refl _, Nat.le_refl _⟩, ⟨hb, hb⟩, rfl, rfl, fun _ _ => rfl, rfl, rfl, rfl⟩
  explicit := hos
  operands o ho := ⟨rfl, fun _ hv => (hs.inBlock hb).denote (hk o ho) hv⟩

theorem wrote (hs : m.Sound) (hb : m.context.HasBlock b) (ha : a.Explicit) (hk : m.context.Knows a.handles)
    (hr : a.execute (m.inBlock b) = .ok () m₁) : Wrote b a m m₁ := by
  have known : ∀ o ∈ a.operands, o.Known m.context := fun o ho => Action.known_operand hk ho
  obtain ⟨_, _, _, es, x, _, happ, _⟩ := Action.execute_follows ha.emits (hs.abreast hb ha.operands known) () m₁ hr
  have leads := ((Proceeds.execute (hs.inBlock hb) hk).of_ok hr).1
  obtain ⟨_, vs, r, m₂, _, he, rfl⟩ := (a.execute_ends (m.inBlock b)).of_ok hr
  obtain ⟨hmodule, hfunctions, hblocks, horder⟩ := he.builder ha.emits
  exact ⟨⟨es, x, happ⟩, leads.evolves.keeps, hmodule, hfunctions, hblocks, horder, _, he.vars,
    fun p hp => Action.newVar?_of_mem_binds hp⟩

end Machine.Sound

/-- An operand that is not on the stack stands for the same as before, unless it is a variable that was bound. -/
theorem Wrote.denote {b : BlockId} {a : Action} {m m₁ : Machine} (h : Wrote b a m m₁) {o : Operand}
    (ho : o ≠ .stack) (hn : ∀ name, o = .var name → name ∉ a.newVar?) : m₁.denote 0 o = m.denote 0 o := by
  obtain ⟨es, x, happ⟩ := h.appends
  cases o with
  | stack => exact absurd rfl ho
  | value v => rfl
  | var name =>
    obtain ⟨new, hvars, hnew⟩ := h.vars
    have hl : new.lookup name = none := by
      rw [List.lookup_eq_none_iff]
      intro p hp
      rw [bne_iff_ne]
      rintro rfl
      exact hn p.1 rfl (hnew p hp)
    change m₁.builder.vars.lookup name = m.builder.vars.lookup name
    rw [hvars, List.lookup_append, hl, Option.none_or]
  | arg index =>
    simp only [Machine.denote, Builder.activeFunction?, h.functions, Context.function, happ.functions]

/-- Calls at another block read the same after an emission as before. -/
theorem Alike.appended {b k : BlockId} {es extra : List Value} {c c' : Context} (h : Appends k es extra c c')
    (hp : Placed c) (hbk : b ≠ k) (hb : c.HasBlock b) (hb' : c'.HasBlock b) : Alike c.values.size b c c' := by
  have old : ∀ v, v.index < c.values.size → c'.value v = c.value v := fun v => h.value_old
  have same : c'.block b = c.block b := h.others b hbk
  have ended : c'.terminator? b = c.terminator? b := by
    unfold Context.terminator?
    rw [same]
    cases hl : (c.block b).instructions.back? with
    | none => rfl
    | some v =>
      obtain ⟨op, hv⟩ := (hp.listed v b).mp (Array.mem_of_back? hl)
      simp only [Option.bind_eq_bind, Option.bind_some, old v (Context.hasValue_of_instruction hv)]
  refine ⟨⟨Nat.le_refl _, ?_⟩, ⟨hb, hb'⟩, ?_, h.functions, old, by rw [same], by rw [same], by rw [ended]⟩
  · rw [h.size]
    omega
  · rw [h.rest]

/-- After an emission into one block, an action at another block is abreast of the one before. -/
theorem Wrote.abreast {b k : BlockId} {a : Action} {m m₁ : Machine} (h : Wrote k a m m₁) (hs : m.Sound)
    (hp : Placed m.context) (hbk : b ≠ k) (hb : m.context.HasBlock b) {os : List Operand} (hos : .stack ∉ os)
    (hk : ∀ o ∈ os, o.Known m.context) (hn : ∀ name ∈ a.newVar?, .var name ∉ os) :
    Abreast m.context.values.size b os (m.inBlock b) (m₁.inBlock b) := by
  obtain ⟨es, x, happ⟩ := h.appends
  refine ⟨rfl, rfl, h.module, h.functions, h.blocks, h.order, happ.modules, ?_, hos, fun o ho => ⟨?_, fun v hv => ?_⟩⟩
  · exact Alike.appended happ hp hbk hb (h.keeps.hasBlock hb)
  · exact h.denote (fun he => hos (he ▸ ho)) fun name he hin => hn name hin (he ▸ ho)
  · exact (hs.inBlock hb).denote (hk o ho) hv

/-! ### Two emissions -/

theorem setBlock_bind {m : Machine} {x : String} {b : BlockId} (hx : m.builder.block? x = some b) (f : Unit → Step Unit) :
    ((Action.setBlock x).execute >>= f) m = f () (m.inBlock b) := by
  rw [Action.execute, Step.setBlock, bind_run, get_bind, hx]
  rfl

/-- Two emissions into different blocks, neither of which binds a variable that the other reads, can be made in either
order. If the one order succeeds, so does the other, and the text of every module is the same. -/
theorem Reachable.emissions_commute {m m' : Machine} {x y : String} {b k : BlockId} {a₁ a₂ : Action}
    (hm : Reachable m) (hx : m.builder.block? x = some b) (hy : m.builder.block? y = some k) (hbk : b ≠ k)
    (h₁ : a₁.Explicit) (h₂ : a₂.Explicit) (hk₁ : m.context.Knows a₁.handles) (hk₂ : m.context.Knows a₂.handles)
    (h₁₂ : ¬ a₁.Disturbs a₂) (h₂₁ : ¬ a₂.Disturbs a₁)
    (h : executeAll [.setBlock x, a₁, .setBlock y, a₂] m = .ok () m') :
    ∃ m'', executeAll [.setBlock y, a₂, .setBlock x, a₁] m = .ok () m'' ∧
      ∀ i, m''.context.printModule i = m'.context.printModule i := by
  obtain ⟨layout, hl⟩ := hm.leads
  have hs := hl.sound
  have typed := (Typed.empty layout).evolve (.empty layout) hl.evolves
  have placed := (Placed.empty layout).evolve hl.evolves
  have grounded := hs.registered.grounded ((Attached.empty layout).evolve hl.evolves)
  have hb : m.context.HasBlock b := hs.place (t := .named x) nofun hx
  have hk : m.context.HasBlock k := hs.place (t := .named y) nofun hy
  -- The run that is given.
  rw [executeAll, setBlock_bind hx, executeAll] at h
  obtain ⟨_, m₁, hr₁, h⟩ := bind_ok h
  have w₁ := hs.wrote hb h₁ hk₁ hr₁
  have hy₁ : m₁.builder.block? y = some k := by
    rw [Builder.block?, w₁.blocks]
    exact hy
  rw [executeAll, setBlock_bind hy₁, executeAll] at h
  obtain ⟨_, m₂, hr₂, h⟩ := bind_ok h
  cases h
  -- The second emission comes first.
  have side₂ := w₁.abreast hs placed hbk.symm hk h₂.operands (fun o => Action.known_operand hk₂)
    fun name hn ho => h₁₂ ⟨name, hn, ho⟩
  obtain ⟨_, m₃, hr₃, hp₂⟩ := Action.execute_follows h₂.emits side₂.symm () _ hr₂
  have w₂ := hs.wrote hk h₂ hk₂ hr₃
  have side₁ := w₂.abreast hs placed hbk hb h₁.operands (fun o => Action.known_operand hk₁)
    fun name hn ho => h₂₁ ⟨name, hn, ho⟩
  obtain ⟨_, m₄, hr₄, hp₁⟩ := Action.execute_follows h₁.emits side₁ () _ hr₁
  have hx₃ : m₃.builder.block? x = some b := by
    rw [Builder.block?, w₂.blocks]
    exact hx
  refine ⟨m₄, ?_, fun i => ?_⟩
  · rw [executeAll, setBlock_bind hy, executeAll, bind_of_ok hr₃, executeAll, setBlock_bind hx₃, executeAll,
      bind_of_ok hr₄]
    rfl
  · obtain ⟨ρ, hρ⟩ := Parallel.interchange hbk typed placed hp₁ hp₂
    obtain ⟨es, _, happ₁⟩ := w₁.appends
    obtain ⟨fs, _, _, happ₂, _⟩ := hp₂
    exact hρ.printModule ((grounded.appended happ₁).appended happ₂) i

/-- A function of two arguments with two blocks. The first argument has to be cast for a call. -/
def Command.fork : List Command :=
  let bytes : Ty := .pointer (.int 8) 0
  let words : Ty := .pointer (.int 32) 0
  [.request (.addModule "m"), .request (.intern .void), .request (.intern (.int 8)), .request (.intern (.int 32)),
    .request (.intern bytes), .request (.intern words), .request (.intern (.function .void [bytes] false)),
    .request (.addFunction ⟨0⟩ "use" (.function .void [bytes] false) .external), .perform (.useModule ⟨0⟩),
    .perform (.createFunction ⟨"main", .void, [words, .int 32], false⟩), .perform (.createBlock "entry"),
    .perform (.createBlock "exit")]

def Machine.fork : Machine := Machine.runAll {} Command.fork

/-- The sum stands behind the cast and the call, or before them, and the text is the same. -/
theorem Reachable.emissions_commute_call :
    let call : Action := .call (.named "use") [.arg 0]
    let sum : Action := .binary .add (.arg 1) (.arg 1)
    ∃ m₁ m₂, executeAll [.setBlock "entry", call, .setBlock "exit", sum] Machine.fork = .ok () m₁ ∧
      executeAll [.setBlock "exit", sum, .setBlock "entry", call] Machine.fork = .ok () m₂ ∧
      (m₁.context.block ⟨0⟩).instructions = #[⟨5⟩, ⟨6⟩] ∧ (m₁.context.block ⟨1⟩).instructions = #[⟨7⟩] ∧
      (m₂.context.block ⟨0⟩).instructions = #[⟨6⟩, ⟨7⟩] ∧ (m₂.context.block ⟨1⟩).instructions = #[⟨5⟩] ∧
      ∀ i, m₂.context.printModule i = m₁.context.printModule i := by
  intro call sum
  have hm : Reachable Machine.fork := ⟨{}, .of_permits Command.fork (by decide +kernel)⟩
  have h₁ : executeAll [.setBlock "entry", call, .setBlock "exit", sum] Machine.fork = .ok () _ :=
    eq_ok_of_failure? (by decide +kernel)
  have h₂ : executeAll [.setBlock "exit", sum, .setBlock "entry", call] Machine.fork = .ok () _ :=
    eq_ok_of_failure? (by decide +kernel)
  obtain ⟨m₂, h, htext⟩ := hm.emissions_commute (b := ⟨0⟩) (k := ⟨1⟩) (by decide +kernel) (by decide +kernel)
    (by decide) ⟨rfl, by decide⟩ ⟨rfl, by decide⟩ (by decide +kernel) (by decide +kernel)
    (fun ⟨_, hn, _⟩ => nomatch (hn : _ ∈ none)) (fun ⟨_, hn, _⟩ => nomatch (hn : _ ∈ none)) h₁
  obtain ⟨_, rfl⟩ := EStateM.Result.ok.inj (h₂.symm.trans h)
  exact ⟨_, _, h₁, h₂, by decide +kernel, by decide +kernel, by decide +kernel, by decide +kernel, htext⟩

end StackAssembler.Build
