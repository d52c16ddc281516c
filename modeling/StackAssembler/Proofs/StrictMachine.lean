import StackAssembler.Proofs.Progress
import StackAssembler.Proofs.StrictEmitter

/-! The builder, where each look at the context and each step of arithmetic stays within its domain. Builders that only
remember known handles do what they are asked, and still only remember known handles then. -/
namespace StackAssembler.IR.Strict
open Guarded (look)

/-- Declare a function, which takes the entries of its type, of its module and of the functions there. -/
def addFunction (m : ModuleId) (name : String) (t : Ty) (linkage : Linkage) : Edit FunctionId := do
  if (← look (type · t)).isFunction then
    if (← look (findFunction? · m name)).isSome then refuse (.duplicateFunction name)
    else do
      let _ ← look (typeName · t)
      liftM (IR.Edit.addFunction m name t linkage)
  else refuse (.notAFunction t)

/-- Put a detached block at the end of a function. -/
def attachBlock (f : FunctionId) (b : BlockId) : Edit Unit := do
  if (← look (block · b)).function.isSome then
    let label ← look (blockLabel · b)
    refuse (.blockAttached label)
  else
    let _ ← look (function · f)
    liftM (IR.Edit.attachBlock f b)

/-- Put the blocks that belong to no function at the end of one. -/
def attachAll (f : FunctionId) : List BlockId → Edit Unit
  | [] => pure ()
  | b :: bs => do
    if (← look (block · b)).function.isNone then attachBlock f b
    attachAll f bs

/-! ### Answers -/

section
variable {ctx : Context} (hc : ctx.Closed)
include hc

theorem addFunction_faithful {m : ModuleId} {name : String} {t : Ty} {linkage : Linkage} (hm : ctx.HasModule m)
    (ht : ctx.HasType t) :
    Faithful (addFunction m name t linkage) (IR.Edit.addFunction m name t linkage) ctx fun f ctx' => ctx'.HasFunction f := by
  refine .look (type_eq ht) ?_
  cases t with
  | function result params variadic =>
    refine .look (findFunction?_eq hc hm name) ?_
    cases hn : ctx.findFunction? m name with
    | some f =>
      refine .congr ?_ (refuse_faithful hc (List.forall_mem_nil _))
      rw [IR.Edit.addFunction, hn]
      rfl
    | none =>
      refine .look (typeName_eq hc ht) (.lift ?_)
      rcases IR.Edit.addFunction_run m name (.function result params variadic) linkage ctx with
        ⟨_, _, _, hfn, _, h⟩ | ⟨err, h⟩
      · cases hfn
        obtain ⟨hb, hp⟩ := hc.intern (t := .pointer (.function result params variadic) 0)
          (List.forall_mem_singleton.mpr ht) (fun _ h => nomatch h)
        have hsize : (ctx.intern (.pointer (.function result params variadic) 0)).functions.size = ctx.functions.size := by
          unfold Context.intern
          split <;> rfl
        obtain ⟨hb', hf⟩ := hb.closed.declare name linkage (hb.retains.hasModule hm) (hb.retains.hasType ht) hp
        rw [h]
        exact ⟨becomes_iff.mpr (hb.trans hb'), hsize ▸ hf⟩
      · rw [h]
        exact .refl (intact_iff.mpr hc)
  | _ => exact refuse_faithful hc (List.forall_mem_singleton.mpr ht)

theorem attachBlock_faithful {f : FunctionId} {b : BlockId} (hf : ctx.HasFunction f) (hb : ctx.HasBlock b) :
    Faithful (attachBlock f b) (IR.Edit.attachBlock f b) ctx fun _ _ => True := by
  refine .look (block_eq hb) ?_
  split
  · next h =>
    refine .look (blockLabel_eq hb) (.congr ?_ (refuse_faithful hc (List.forall_mem_nil _)))
    rw [IR.Edit.attachBlock, if_pos h]
    rfl
  · next h =>
    refine .look (function_eq hf) (.lift ?_)
    rw [IR.Edit.attachBlock, if_neg h]
    exact ⟨becomes_iff.mpr (hc.adopt hf hb), trivial⟩

theorem attachAll_faithful {f : FunctionId} {bs : List BlockId} (hf : ctx.HasFunction f)
    (hbs : ∀ b ∈ bs, ctx.HasBlock b) :
    Faithful (attachAll f bs) (Build.Step.attachAll f bs) ctx fun _ _ => True := by
  induction bs generalizing ctx with
  | nil => exact .pure (intact_iff.mpr hc) trivial
  | cons b bs ih =>
    obtain ⟨hb, hbs⟩ := List.forall_mem_cons.mp hbs
    refine .get (.look (block_eq hb) (.ite (fun _ => ?_) fun _ => ih hc hf hbs))
    refine (attachBlock_faithful hc hf hb).bind fun _ ctx' h _ => ?_
    exact ih h.intact.closed (h.retains.hasFunction hf) fun b hb => h.retains.hasBlock (hbs b hb)

end
end StackAssembler.IR.Strict

namespace StackAssembler.Build
open IR
open Guarded (look state)

instance : Holder Machine := ⟨Machine.context, fun m => m.builder.handles⟩

namespace Strict

/-- A step of the machine that looks at entries, or has no result. -/
abbrev Step := Guarded BuildError Machine

def emit {α : Type} (f : Option BlockId → IR.Strict.Edit α) : Step α := fun m =>
  match m with
  | ⟨ctx, b⟩ =>
    match f b.position ctx with
    | none => none
    | some (.ok a ctx) => some (.ok a ⟨ctx, b⟩)
    | some (.error e ctx) => some (.error (.ir e) ⟨ctx, b⟩)

def resolve : Operand → Step ValueId
  | .arg index => do
    match (← state).builder.activeFunction? with
    | none => Guarded.refuse .noFunction
    | some f =>
      match (← look fun m => IR.Strict.function m.context f).args[index]? with
      | none => Guarded.refuse (.noArgument index)
      | some v => pure v
  | o => liftM (Build.Step.resolve o)

def resolveAll : List Operand → Step (List ValueId)
  | [] => pure []
  | o :: os => do
    let vs ← resolveAll os
    let v ← resolve o
    pure (v :: vs)

def resolveEdges : List PhiEdge → Step (List (ValueId × BlockId))
  | [] => pure []
  | e :: es => do
    let rest ← resolveEdges es
    let b ← liftM (Build.Step.target e.block)
    let v ← resolve e.value
    pure ((v, b) :: rest)

def resolveCallee : Callee → Step FunctionId
  | .function f => pure f
  | .named name => do
    match (← state).builder.module with
    | none => Guarded.refuse .noModule
    | some module =>
      match ← look fun m => IR.Strict.findFunction? m.context module name with
      | none => Guarded.refuse (.unknownFunction name)
      | some f => pure f

def coerce (at? : Option BlockId) (v : ValueId) (t : Ty) : IR.Strict.Edit ValueId := do
  let found ← look (IR.Strict.typeOf · v)
  if found = t then pure v else IR.Strict.cast at? .bitcast v t

def coerceEach (at? : Option BlockId) : List ValueId → List Ty → IR.Strict.Edit (List ValueId)
  | v :: vs, t :: ts => do
    let v ← coerce at? v t
    let vs ← coerceEach at? vs ts
    pure (v :: vs)
  | vs, _ => pure vs

def call (callee : Callee) (args : List Operand) : Step ValueId := do
  let f ← resolveCallee callee
  let fn ← look fun m => IR.Strict.function m.context f
  if Emitter.accepts fn args.length then
    let vs ← resolveAll args
    emit fun at? => do
      let vs ← coerceEach at? vs fn.params
      IR.Strict.call at? f vs
  else Guarded.refuse (.argumentCount fn.name fn.params.length args.length)

def ret (value : Option Operand) : Step Unit := do
  let f ← liftM Build.Step.activeFunction
  let fn ← look fun m => IR.Strict.function m.context f
  let result ← look fun m => IR.Strict.type m.context fn.result
  match result.isVoid, value with
  | true, none =>
    let _ ← emit IR.Strict.retVoid
  | false, some o =>
    let v ← resolve o
    let _ ← emit (IR.Strict.ret · v)
  | _, _ =>
    let _ ← look fun m => IR.Strict.typeName m.context fn.result
    Guarded.refuse (.returnMismatch fn.name fn.result)

/-- The entry of the active function, if there is one. -/
def activeEntry? (m : Machine) : Option (Option Function) :=
  match m.builder.activeFunction? with
  | none => return none
  | some f => return some (← IR.Strict.function m.context f)

def createBlock (name : String) : Step Unit := do
  let _ ← look activeEntry?
  liftM (Build.Step.createBlock name)

def activate (f : FunctionId) : Step Unit := do
  let fn ← look fun m => IR.Strict.function m.context f
  liftM (Build.Step.updateBuilder fun b => { b with functions := f :: b.functions, stack := fn.value :: b.stack })

def createFunction (spec : FunctionSpec) : Step Unit := do
  let b := (← state).builder
  match b.module with
  | none => Guarded.refuse .noModule
  | some module =>
    let f ← emit fun _ => do
      let type := Ty.function spec.result spec.params spec.variadic
      liftM (Edit.intern type)
      let f ← IR.Strict.addFunction module spec.name type .external
      IR.Strict.attachAll f b.blockOrder
      pure f
    liftM (Build.Step.updateBuilder fun b => { b with position := none })
    activate f

def useFunction (f : FunctionId) : Step Unit := do
  let fn ← look fun m => IR.Strict.function m.context f
  liftM (Build.Step.updateBuilder fun b => { b with module := some fn.module })
  activate f

/-- Cut the stack to the length that remains. -/
def drop (count : Nat) : Step Unit := do
  let available := (← state).builder.stack.length
  if available < count then Guarded.refuse (.stackUnderflow count available)
  else do
    let kept ← look fun _ => IR.Strict.sub available count
    liftM (Build.Step.updateBuilder fun b => { b with stack := b.stack.drop (b.stack.length - kept) })

def convert (kind : Conversion) (at? : Option BlockId) (v : ValueId) (t : Ty) : IR.Strict.Edit ValueId :=
  match kind with
  | .bitcast => IR.Strict.cast at? .bitcast v t
  | .zextOrTrunc => IR.Strict.zextOrTrunc at? v t
  | .fptoui => IR.Strict.fptoui at? v t
  | .ptrtoint => IR.Strict.cast at? .ptrtoint v t
  | .inttoptr => IR.Strict.cast at? .inttoptr v t

def pushEmitted (f : Option BlockId → IR.Strict.Edit ValueId) : Step Unit := do
  let v ← emit f
  liftM (Build.Step.push v)

def execute : Action → Step Unit
  | .alloc t none => pushEmitted (IR.Strict.alloca · t none)
  | .alloc t (some name) => do
    let slot ← emit (IR.Strict.alloca · t (some name))
    liftM (Build.Step.updateBuilder fun b => { b with vars := (name, slot) :: b.vars })
  | .load t source => do
    let pointer ← resolve source
    pushEmitted (IR.Strict.load · t pointer)
  | .store value dest => do
    let dest ← resolve dest
    let value ← resolve value
    let _ ← emit (IR.Strict.store · value dest)
  | .binary op lhs rhs => do
    let rhs ← resolve rhs
    let lhs ← resolve lhs
    pushEmitted (IR.Strict.binary · op lhs rhs)
  | .compare pred lhs rhs => do
    let rhs ← resolve rhs
    let lhs ← resolve lhs
    pushEmitted (IR.Strict.compare · pred lhs rhs)
  | .cast kind value t => do
    let v ← resolve value
    pushEmitted (convert kind · v t)
  | .phi edges => do
    let incoming ← resolveEdges edges
    pushEmitted (IR.Strict.phi · incoming)
  | .condBr cond onTrue onFalse => do
    let onTrue ← liftM (Build.Step.target onTrue)
    let onFalse ← liftM (Build.Step.target onFalse)
    let cond ← resolve cond
    pushEmitted (IR.Strict.condBr · cond onTrue onFalse)
  | .branch dest => do
    let dest ← liftM (Build.Step.target dest)
    pushEmitted (IR.Strict.br · dest)
  | .call callee args => do
    let v ← call callee args
    liftM (Build.Step.push v)
  | .ret value => ret value
  | .createBlock name => createBlock name
  | .setBlock name => liftM (Build.Step.setBlock name)
  | .createFunction spec => createFunction spec
  | .useFunction f => useFunction f
  | .useModule k => do
    let _ ← look fun m => IR.Strict.module m.context k
    liftM (Build.Step.updateBuilder fun b => { b with module := some k })
  | .push value => do
    let v ← resolve value
    liftM (Build.Step.push v)
  | .pop count => drop count
  | .keepStack => liftM (Build.Step.updateBuilder fun b => { b with keepStack := true })
  | .inspect => pure ()

/-! ### Answers -/

section
variable {m : Machine}

theorem retained {o : Operand} {ctx ctx' : Context} (h : o.Known ctx) (hr : ctx.Retains ctx') : o.Known ctx' :=
  fun v hv => hr.hasValue (h v hv)

theorem hasBlock_position (hm : Intact m) : ∀ b ∈ m.builder.position, m.context.HasBlock b := fun b hb =>
  hm.known.blocks b (List.mem_append_left _ (Option.mem_toList.mpr hb))

theorem hasFunction_active (hm : Intact m) {f : FunctionId} (hf : m.builder.activeFunction? = some f) :
    m.context.HasFunction f :=
  hm.known.functions f (List.mem_of_head? hf)

theorem hasModule_active (hm : Intact m) {k : ModuleId} (hk : m.builder.module = some k) : m.context.HasModule k :=
  hm.known.modules k (Option.mem_toList.mpr hk)

/-- An edit at the builder's position. -/
theorem emit_faithful {α : Type} {x : Option BlockId → IR.Strict.Edit α} {f : Option BlockId → Edit α}
    {P : α → Context → Prop} (hm : Intact m) (h : Faithful (x m.builder.position) (f m.builder.position) m.context P) :
    Faithful (emit x) (Build.Step.emit f) m fun a m' => P a m'.context := by
  obtain ⟨hx, hf⟩ := h
  have intact {ctx : Context} (hb : Becomes m.context ctx) : Becomes m { m with context := ctx } :=
    ⟨⟨hb.intact.closed, hb.retains _ hm.known⟩, hb.retains⟩
  unfold Faithful
  rw [Build.Step.emit_run]
  unfold emit
  dsimp only
  rw [hx]
  cases hr : f m.builder.position m.context with
  | ok a ctx =>
    rw [hr] at hf
    exact ⟨rfl, intact hf.1, hf.2⟩
  | error e ctx =>
    rw [hr] at hf
    exact ⟨rfl, intact hf⟩

theorem update_faithful {f : Builder → Builder} (hm : Intact m) (h : m.context.Knows (f m.builder).handles) :
    Faithful (liftM (Build.Step.updateBuilder f)) (Build.Step.updateBuilder f) m fun _ _ => True :=
  .lift ⟨⟨⟨hm.closed, h⟩, .refl _⟩, trivial⟩

theorem push_faithful {v : ValueId} (hm : Intact m) (hv : m.context.HasValue v) :
    Faithful (liftM (Build.Step.push v)) (Build.Step.push v) m fun _ _ => True := by
  refine update_faithful hm { hm.known with values := fun w hw => ?_ }
  rcases List.mem_append.mp hw with hw | hw
  · exact hm.known.values w (List.mem_append_left _ hw)
  · rcases List.mem_cons.mp hw with rfl | hw
    · exact hv
    · exact hm.known.values w (List.mem_append_right _ hw)

theorem pop_faithful (hm : Intact m) :
    Faithful (liftM Build.Step.pop) Build.Step.pop m fun v m' => m'.context.HasValue v := by
  refine .lift ?_
  rw [Build.Step.pop_run]
  cases hs : m.builder.stack with
  | nil => exact .refl hm
  | cons v rest =>
    have hin {w : ValueId} (hw : w ∈ v :: rest) : m.context.HasValue w :=
      hm.known.values w (List.mem_append_right _ (hs ▸ hw))
    refine ⟨⟨⟨hm.closed, { hm.known with values := fun w hw => ?_ }⟩, .refl _⟩, hin (.head _)⟩
    rcases List.mem_append.mp hw with hw | hw
    · exact hm.known.values w (List.mem_append_left _ hw)
    · refine hin ?_
      dsimp only at hw
      split at hw
      · exact hw
      · exact .tail _ hw

theorem resolve_faithful {o : Operand} (hm : Intact m) (ho : o.Known m.context) :
    Faithful (resolve o) (Build.Step.resolve o) m fun v m' => m'.context.HasValue v := by
  cases o with
  | stack => exact pop_faithful hm
  | value v => exact .pure hm (ho v rfl)
  | var name =>
    refine .lift ?_
    rw [Build.Step.resolve]
    cases hv : m.builder.var? name with
    | none => exact .refl hm
    | some v =>
      obtain ⟨before, rest, hvars, _⟩ := List.lookup_eq_some_iff.mp hv
      have hin : (name, v) ∈ m.builder.vars := by simp [hvars]
      exact ⟨.refl hm, hm.known.values v (List.mem_append_left _ (List.mem_map_of_mem hin))⟩
  | arg index =>
    refine .look rfl ?_
    cases hf : m.builder.activeFunction? with
    | none => exact .congr (by simp only [Build.Step.resolve, hf]; rfl) (.refuse hm)
    | some f =>
      have hfun := hasFunction_active hm hf
      refine .look (IR.Strict.function_eq hfun) ?_
      cases ha : (m.context.function f).args[index]? with
      | none => exact .congr (by simp only [Build.Step.resolve, hf, ha]; rfl) (.refuse hm)
      | some v =>
        refine .congr (by simp only [Build.Step.resolve, hf, ha]; rfl) (.pure hm ?_)
        exact (hm.closed.function hfun).values v (.tail _ (List.mem_of_getElem? ha))

theorem resolveAll_faithful {os : List Operand} (hm : Intact m) (hos : ∀ o ∈ os, o.Known m.context) :
    Faithful (resolveAll os) (Build.Step.resolveAll os) m fun vs m' => ∀ v ∈ vs, m'.context.HasValue v := by
  induction os with
  | nil => exact .pure hm (List.forall_mem_nil _)
  | cons o os ih =>
    obtain ⟨ho, hos⟩ := List.forall_mem_cons.mp hos
    refine (ih hos).bind fun vs m₁ h₁ hvs => ?_
    refine (resolve_faithful h₁.intact (retained ho h₁.retains)).bind fun v m₂ h₂ hv => ?_
    exact .pure h₂.intact (List.forall_mem_cons.mpr ⟨hv, fun w hw => h₂.retains.hasValue (hvs w hw)⟩)

theorem target_faithful {t : Target} (hm : Intact m) (ht : t.Known m.context) :
    Faithful (liftM (Build.Step.target t)) (Build.Step.target t) m fun b m' => m'.context.HasBlock b := by
  refine .lift ((Build.Step.target_ends t m).mono (fun b m₁ ⟨hb, hm₁⟩ => ?_) fun m' hm' => ?_)
  · subst hm₁
    exact ⟨.refl hm, m₁.hasBlock_place hm.known ht hb⟩
  · subst hm'
    exact .refl hm

theorem resolveEdges_faithful {es : List PhiEdge} (hm : Intact m)
    (hes : ∀ e ∈ es, e.value.Known m.context ∧ e.block.Known m.context) :
    Faithful (resolveEdges es) (Build.Step.resolveEdges es) m fun incoming m' =>
      m'.context.Knows (Operation.phi incoming).handles := by
  induction es with
  | nil => exact .pure hm Context.knows_nothing
  | cons e es ih =>
    obtain ⟨⟨hvalue, hblock⟩, hes⟩ := List.forall_mem_cons.mp hes
    refine (ih hes).bind fun incoming m₁ h₁ hi => ?_
    have hblock : e.block.Known m₁.context := fun b hb => h₁.retains.hasBlock (hblock b hb)
    refine (target_faithful h₁.intact hblock).bind fun b m₂ h₂ hb => ?_
    refine (resolve_faithful h₂.intact (retained hvalue (h₁.trans h₂).retains)).bind fun v m₃ h₃ hv => ?_
    have hi := (h₂.trans h₃).retains _ hi
    exact .pure h₃.intact { hi with
      values := List.forall_mem_cons.mpr ⟨hv, hi.values⟩
      blocks := List.forall_mem_cons.mpr ⟨h₃.retains.hasBlock hb, hi.blocks⟩ }

theorem resolveCallee_faithful {c : Callee} (hm : Intact m) (hc : ∀ f ∈ c.function?, m.context.HasFunction f) :
    Faithful (resolveCallee c) (Build.Step.resolveCallee c) m fun f m' => m'.context.HasFunction f := by
  cases c with
  | function f => exact .pure hm (hc f rfl)
  | named name =>
    refine .look rfl ?_
    cases hk : m.builder.module with
    | none => exact .congr (by simp only [Build.Step.resolveCallee, hk]; rfl) (.refuse hm)
    | some k =>
      have hmodule := hasModule_active hm hk
      refine .look (IR.Strict.findFunction?_eq hm.closed hmodule name) ?_
      cases hf : m.context.findFunction? k name with
      | none => exact .congr (by simp only [Build.Step.resolveCallee, hk, hf]; rfl) (.refuse hm)
      | some f =>
        refine .congr (by simp only [Build.Step.resolveCallee, hk, hf]; rfl) (.pure hm ?_)
        exact IR.Strict.hasFunction_of_find hm.closed hmodule hf

theorem coerceEach_faithful {ctx : Context} {at? : Option BlockId} {vs : List ValueId} {ts : List Ty} (hc : ctx.Closed)
    (hat : ∀ b ∈ at?, ctx.HasBlock b) (hvs : ∀ v ∈ vs, ctx.HasValue v) (hts : ∀ t ∈ ts, ctx.HasType t) :
    Faithful (coerceEach at? vs ts) (Build.Step.coerceEach at? vs ts) ctx fun vs ctx' => ∀ v ∈ vs, ctx'.HasValue v := by
  induction vs generalizing ctx ts with
  | nil => exact .pure (intact_iff.mpr hc) (List.forall_mem_nil _)
  | cons v vs ih =>
    cases ts with
    | nil => exact .pure (intact_iff.mpr hc) hvs
    | cons t ts =>
      obtain ⟨hv, hvs⟩ := List.forall_mem_cons.mp hvs
      obtain ⟨ht, hts⟩ := List.forall_mem_cons.mp hts
      have first : Faithful (coerce at? v t) (Build.Step.coerce at? v t) ctx fun v ctx' => ctx'.HasValue v := by
        refine .look (IR.Strict.typeOf_eq hv) ?_
        unfold Build.Step.coerce
        split
        · next h => exact .congr (if_pos h) (.pure (intact_iff.mpr hc) hv)
        · next h => exact .congr (if_neg h) (IR.Strict.cast_faithful hc hat .bitcast hv ht)
      rw [Build.Step.coerceEach_cons]
      refine first.bind fun w ctx₁ h₁ hw => ?_
      refine (ih h₁.intact.closed (fun b hb => h₁.retains.hasBlock (hat b hb)) (fun v hv => h₁.retains.hasValue (hvs v hv))
        fun t ht => h₁.retains.hasType (hts t ht)).bind fun ws ctx₂ h₂ hws => ?_
      exact .pure h₂.intact (List.forall_mem_cons.mpr ⟨h₂.retains.hasValue hw, hws⟩)

theorem call_faithful {callee : Callee} {args : List Operand} (hm : Intact m)
    (hc : ∀ f ∈ callee.function?, m.context.HasFunction f) (hargs : ∀ o ∈ args, o.Known m.context) :
    Faithful (call callee args) (Build.Step.call callee args) m fun v m' => m'.context.HasValue v := by
  refine (resolveCallee_faithful hm hc).bind fun f m₁ h₁ hf => ?_
  have hparams := (h₁.intact.closed.function hf).types
  refine .get (.look (IR.Strict.function_eq hf) (.ite (fun _ => ?_) fun _ => .refuse h₁.intact))
  refine (resolveAll_faithful h₁.intact fun o ho => retained (hargs o ho) h₁.retains).bind fun vs m₂ h₂ hvs => ?_
  have hat := hasBlock_position h₂.intact
  refine emit_faithful (P := fun v ctx => ctx.HasValue v) h₂.intact ?_
  refine (coerceEach_faithful h₂.intact.closed hat hvs ?_).bind fun ws ctx h hws => ?_
  · exact fun t ht => h₂.retains.hasType (hparams t (.tail _ (.tail _ ht)))
  · refine IR.Strict.call_faithful h.intact.closed (fun b hb => h.retains.hasBlock (hat b hb)) ?_
    have hf := h.retains.hasFunction (h₂.retains.hasFunction hf)
    exact { Context.knows_values.mpr hws with functions := List.forall_mem_singleton.mpr hf }

theorem ret_faithful {value : Option Operand} (hm : Intact m) (hv : ∀ o ∈ value, o.Known m.context) :
    Faithful (ret value) (Build.Step.ret value) m fun _ _ => True := by
  have active : Faithful (liftM Build.Step.activeFunction) Build.Step.activeFunction m fun f m' =>
      m' = m ∧ m.context.HasFunction f := by
    refine .lift ?_
    unfold Build.Step.activeFunction
    cases hf : m.builder.activeFunction? with
    | none => exact .refl hm
    | some f => exact ⟨.refl hm, rfl, hasFunction_active hm hf⟩
  refine active.bind fun f m' _ ⟨hm', hf⟩ => ?_
  subst hm'
  have ht := (hm.closed.function hf).types _ (.tail _ (.head _))
  refine .get (.look (IR.Strict.function_eq hf) (.look (IR.Strict.type_eq ht) ?_))
  dsimp only
  have refused (e : BuildError) : Faithful (look (fun m => IR.Strict.typeName m.context (m'.context.function f).result) >>=
      fun _ => Guarded.refuse e) (throw e) m' fun (_ : Unit) _ => True :=
    .look (IR.Strict.typeName_eq hm.closed ht) (.refuse hm)
  have hat := hasBlock_position hm
  cases value with
  | none =>
    cases (m'.context.function f).result.isVoid with
    | false => exact refused _
    | true => exact (emit_faithful hm (IR.Strict.retVoid_faithful hm.closed hat)).bind fun _ m₁ h₁ _ => .pure h₁.intact trivial
  | some o =>
    cases (m'.context.function f).result.isVoid with
    | true => exact refused _
    | false =>
      refine (resolve_faithful hm (hv o rfl)).bind fun v m₁ h₁ hv => ?_
      have hret := IR.Strict.ret_faithful h₁.intact.closed (hasBlock_position h₁.intact) hv
      exact (emit_faithful h₁.intact hret).bind fun _ m₂ h₂ _ => .pure h₂.intact trivial

theorem createBlock_faithful (name : String) (hm : Intact m) :
    Faithful (createBlock name) (Build.Step.createBlock name) m fun _ _ => True := by
  have entry : activeEntry? m = some (m.builder.activeFunction?.map m.context.function) := by
    unfold activeEntry?
    cases hf : m.builder.activeFunction? with
    | none => rfl
    | some f =>
      dsimp only
      rw [IR.Strict.function_eq (hasFunction_active hm hf)]
      rfl
  refine .look entry (.lift ?_)
  rw [Build.Step.createBlock_run, Build.Step.left?_next (Builder.hasBlock_pair hm.known)]
  split
  · exact .refl hm
  obtain ⟨hb, hnew⟩ := hm.closed.addBlock (some name)
  have created : m.context.Becomes (m.withBlock name).context ∧
      (m.withBlock name).context.HasBlock ⟨m.context.blocks.size⟩ := by
    unfold Machine.withBlock
    cases hf : m.builder.activeFunction? with
    | none => exact ⟨hb, hnew⟩
    | some f =>
      have ha := hb.closed.adopt (hb.retains.hasFunction (hasFunction_active hm hf)) hnew
      exact ⟨hb.trans ha, ha.retains.hasBlock hnew⟩
  obtain ⟨hb, hnew⟩ := created
  have known := hb.retains _ hm.known
  refine ⟨⟨⟨hb.closed, { known with blocks := fun b hin => ?_ }⟩, hb.retains⟩, trivial⟩
  rcases Machine.mem_handles_withBlock hin with rfl | hin
  · exact hnew
  · exact known.blocks b hin

theorem setBlock_faithful (name : String) (hm : Intact m) :
    Faithful (liftM (Build.Step.setBlock name)) (Build.Step.setBlock name) m fun _ _ => True := by
  refine .lift ?_
  rw [Build.Step.setBlock, get_bind]
  cases hb : m.builder.block? name with
  | none => exact .refl hm
  | some b =>
    have hb : m.context.HasBlock b := m.hasBlock_place (t := .named name) hm.known (fun _ h => by cases h) hb
    refine (update_faithful hm { hm.known with blocks := fun c hin => ?_ }).2
    rcases List.mem_cons.mp hin with rfl | hin
    · exact hb
    · exact hm.known.blocks c (List.mem_append_right _ hin)

theorem activate_faithful {f : FunctionId} (hm : Intact m) (hf : m.context.HasFunction f) :
    Faithful (activate f) (Build.Step.activate f) m fun _ _ => True := by
  refine .get (.look (IR.Strict.function_eq hf) (update_faithful hm { hm.known with
    values := fun v hv => ?_
    functions := List.forall_mem_cons.mpr ⟨hf, hm.known.functions⟩ }))
  rcases List.mem_append.mp hv with hv | hv
  · exact hm.known.values v (List.mem_append_left _ hv)
  · rcases List.mem_cons.mp hv with rfl | hv
    · exact (hm.closed.function hf).values _ (.head _)
    · exact hm.known.values v (List.mem_append_right _ hv)

theorem useModule_faithful {k : ModuleId} (hm : Intact m) (hk : m.context.HasModule k) :
    Faithful (liftM (Build.Step.updateBuilder fun b => { b with module := some k }))
      (Build.Step.updateBuilder fun b => { b with module := some k }) m fun _ _ => True :=
  update_faithful hm { hm.known with modules := List.forall_mem_singleton.mpr hk }

theorem useFunction_faithful {f : FunctionId} (hm : Intact m) (hf : m.context.HasFunction f) :
    Faithful (useFunction f) (Build.Step.useFunction f) m fun _ _ => True := by
  have hk := (hm.closed.function hf).modules _ (.head _)
  refine .get (.look (IR.Strict.function_eq hf) ((useModule_faithful hm hk).bind fun _ m₁ h₁ _ => ?_))
  exact activate_faithful h₁.intact (h₁.retains.hasFunction hf)

theorem createFunction_faithful {spec : FunctionSpec} (hm : Intact m)
    (ht : ∀ t ∈ (Ty.function spec.result spec.params spec.variadic).components, m.context.HasType t) :
    Faithful (createFunction spec) (Build.Step.createFunction spec) m fun _ _ => True := by
  refine .get (.look rfl ?_)
  dsimp only
  cases hk : m.builder.module with
  | none => exact .refuse hm
  | some k =>
    refine (emit_faithful (P := fun f ctx => ctx.HasFunction f) hm ?_).bind fun f m₁ h₁ hf => ?_
    · refine (IR.Strict.intern_faithful hm.closed _ ht fun _ h => nomatch h).bind fun _ ctx₁ h₁ htype => ?_
      refine (IR.Strict.addFunction_faithful h₁.intact.closed (h₁.retains.hasModule (hasModule_active hm hk)) htype).bind
        fun f ctx₂ h₂ hf => ?_
      refine (IR.Strict.attachAll_faithful h₂.intact.closed hf fun b hb =>
        (h₁.trans h₂).retains.hasBlock (Builder.hasBlock_order hm.known b hb)).bind fun _ ctx₃ h₃ _ => ?_
      exact .pure h₃.intact (h₃.retains.hasFunction hf)
    · refine (update_faithful (f := fun b => { b with position := none }) h₁.intact { h₁.intact.known with
        blocks := fun b hb => h₁.intact.known.blocks b (List.mem_append_right _ hb) }).bind fun _ m₂ h₂ _ => ?_
      exact activate_faithful h₂.intact (h₂.retains.hasFunction hf)

theorem drop_faithful (count : Nat) (hm : Intact m) :
    Faithful (drop count) (Build.Step.drop count) m fun _ _ => True := by
  refine .get (.look rfl (.ite (fun _ => .refuse hm) fun h => ?_))
  refine .look (if_pos (Nat.le_of_not_lt h)) (.congr ?_ (update_faithful hm { hm.known with values := fun v hv => ?_ }))
  · simp only [Build.Step.updateBuilder, Nat.sub_sub_self (Nat.le_of_not_lt h)]
  · exact hm.known.values v ((List.append_sublist_append_left _).mpr (List.drop_sublist _ _) |>.subset hv)

theorem convert_faithful {ctx : Context} (kind : Conversion) {at? : Option BlockId} {v : ValueId} {t : Ty}
    (hc : ctx.Closed) (hat : ∀ b ∈ at?, ctx.HasBlock b) (hv : ctx.HasValue v) (ht : ctx.HasType t) :
    IR.Strict.Answers (convert kind at? v t) (Build.Step.convert kind at? v t) ctx := by
  cases kind with
  | bitcast => exact IR.Strict.cast_faithful hc hat .bitcast hv ht
  | zextOrTrunc => exact IR.Strict.zextOrTrunc_faithful hc hat hv ht
  | fptoui => exact IR.Strict.fptoui_faithful hc hat hv ht
  | ptrtoint => exact IR.Strict.cast_faithful hc hat .ptrtoint hv ht
  | inttoptr => exact IR.Strict.cast_faithful hc hat .inttoptr hv ht

theorem pushEmitted_faithful {x : Option BlockId → IR.Strict.Edit ValueId} {f : Option BlockId → Edit ValueId}
    (hm : Intact m) (h : IR.Strict.Answers (x m.builder.position) (f m.builder.position) m.context) :
    Faithful (pushEmitted x) (Build.Step.pushEmitted f) m fun _ _ => True :=
  (emit_faithful hm h).bind fun _ _ h hv => push_faithful h.intact hv

/-- Two operands, the second of which is looked up first. -/
private theorem operands_faithful {l r : Operand} {x : ValueId → ValueId → Step Unit} {f : ValueId → ValueId → Build.Step Unit}
    (hm : Intact m) (hl : l.Known m.context) (hr : r.Known m.context)
    (h : ∀ v w m', Intact m' → m'.context.HasValue v → m'.context.HasValue w → Faithful (x v w) (f v w) m' fun _ _ => True) :
    Faithful (resolve r >>= fun w => resolve l >>= fun v => x v w)
      (Build.Step.resolve r >>= fun w => Build.Step.resolve l >>= fun v => f v w) m fun _ _ => True := by
  refine (resolve_faithful hm hr).bind fun w m₁ h₁ hw => ?_
  refine (resolve_faithful h₁.intact (retained hl h₁.retains)).bind fun v m₂ h₂ hv => ?_
  exact h v w m₂ h₂.intact hv (h₂.retains.hasValue hw)

/-- An action whose handles are known is performed within the domains of all operations. -/
theorem execute_faithful {a : Action} (hm : Intact m) (hk : m.context.Knows a.handles) :
    Faithful (execute a) a.execute m fun _ _ => True := by
  have operand {o : Operand} (ho : o ∈ a.operands) : o.Known m.context := Action.known_operand hk ho
  have place {t : Target} (ht : t ∈ a.targets) : t.Known m.context := Action.known_target hk ht
  have type {t : Ty} (ht : t ∈ a.types) : m.context.HasType t := hk.types t ht
  have hc := hm.closed
  have hat := hasBlock_position hm
  cases a with
  | alloc t name =>
    have ht := type (List.mem_singleton_self t)
    cases name with
    | none => exact pushEmitted_faithful hm (IR.Strict.alloca_faithful hc hat ht)
    | some name =>
      refine (emit_faithful hm (IR.Strict.alloca_faithful hc hat ht)).bind fun v m₁ h₁ hv => ?_
      exact update_faithful h₁.intact { h₁.intact.known with
        values := List.forall_mem_cons.mpr ⟨hv, h₁.intact.known.values⟩ }
  | load t source =>
    refine (resolve_faithful hm (operand (by simp [Action.operands]))).bind fun p m₁ h₁ hp => ?_
    have ht := h₁.retains.hasType (type (List.mem_singleton_self t))
    exact pushEmitted_faithful h₁.intact (IR.Strict.load_faithful h₁.intact.closed (hasBlock_position h₁.intact) ht hp)
  | store value dest =>
    refine operands_faithful hm (operand (by simp [Action.operands])) (operand (by simp [Action.operands]))
      fun v d m₁ h₁ hv hd => ?_
    have hstore := IR.Strict.store_faithful h₁.closed (hasBlock_position h₁) hv hd
    exact (emit_faithful h₁ hstore).bind fun _ m₂ h₂ _ => .pure h₂.intact trivial
  | binary op lhs rhs =>
    refine operands_faithful hm (operand (by simp [Action.operands])) (operand (by simp [Action.operands]))
      fun l r m₁ h₁ hl hr => ?_
    exact pushEmitted_faithful h₁ (IR.Strict.binary_faithful h₁.closed (hasBlock_position h₁) op hl hr)
  | compare pred lhs rhs =>
    refine operands_faithful hm (operand (by simp [Action.operands])) (operand (by simp [Action.operands]))
      fun l r m₁ h₁ hl hr => ?_
    exact pushEmitted_faithful h₁ (IR.Strict.compare_faithful h₁.closed (hasBlock_position h₁) pred hl hr)
  | cast kind value t =>
    refine (resolve_faithful hm (operand (by simp [Action.operands]))).bind fun v m₁ h₁ hv => ?_
    have ht := h₁.retains.hasType (type (List.mem_singleton_self t))
    exact pushEmitted_faithful h₁.intact (convert_faithful kind h₁.intact.closed (hasBlock_position h₁.intact) hv ht)
  | phi edges =>
    have hes : ∀ e ∈ edges, e.value.Known m.context ∧ e.block.Known m.context := fun e he =>
      ⟨operand (List.mem_map_of_mem he), place (List.mem_map_of_mem he)⟩
    refine (resolveEdges_faithful hm hes).bind fun incoming m₁ h₁ hi => ?_
    exact pushEmitted_faithful h₁.intact (IR.Strict.phi_faithful h₁.intact.closed (hasBlock_position h₁.intact) hi)
  | condBr cond onTrue onFalse =>
    have hfalse : onFalse.Known m.context := place (by simp [Action.targets])
    have hcond : cond.Known m.context := operand (by simp [Action.operands])
    refine (target_faithful hm (place (by simp [Action.targets]))).bind fun t m₁ h₁ ht => ?_
    refine (target_faithful h₁.intact fun b hb => h₁.retains.hasBlock (hfalse b hb)).bind fun f m₂ h₂ hf => ?_
    refine (resolve_faithful h₂.intact (retained hcond (h₁.trans h₂).retains)).bind fun c m₃ h₃ hv => ?_
    refine pushEmitted_faithful h₃.intact (IR.Strict.condBr_faithful h₃.intact.closed (hasBlock_position h₃.intact) ?_)
    have ht := (h₂.trans h₃).retains.hasBlock ht
    have hf := List.forall_mem_singleton.mpr (h₃.retains.hasBlock hf)
    exact { Context.knows_value.mpr hv with blocks := List.forall_mem_cons.mpr ⟨ht, hf⟩ }
  | branch dest =>
    refine (target_faithful hm (place (by simp [Action.targets]))).bind fun d m₁ h₁ hd => ?_
    exact pushEmitted_faithful h₁.intact (IR.Strict.br_faithful h₁.intact.closed (hasBlock_position h₁.intact) hd)
  | call callee args =>
    have hcallee : ∀ f ∈ callee.function?, m.context.HasFunction f := fun f hf =>
      hk.functions f (Option.mem_toList.mpr hf)
    exact (call_faithful hm hcallee fun o ho => operand ho).bind fun v m₁ h₁ hv => push_faithful h₁.intact hv
  | ret value => exact ret_faithful hm fun o ho => operand (Option.mem_toList.mpr ho)
  | createBlock name => exact createBlock_faithful name hm
  | setBlock name => exact setBlock_faithful name hm
  | createFunction spec => exact createFunction_faithful hm hk.types
  | useFunction f => exact useFunction_faithful hm (hk.functions f (List.mem_singleton_self f))
  | useModule k =>
    have hmodule := hk.modules k (List.mem_singleton_self k)
    exact .look (IR.Strict.module_eq hmodule) (useModule_faithful hm hmodule)
  | push value =>
    refine (resolve_faithful hm (operand (by simp [Action.operands]))).bind fun v m₁ h₁ hv => ?_
    exact push_faithful h₁.intact hv
  | pop count => exact drop_faithful count hm
  | keepStack => exact update_faithful hm hm.known
  | inspect => exact .pure hm trivial

end
end Strict
end StackAssembler.Build
