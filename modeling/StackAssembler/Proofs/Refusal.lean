import StackAssembler.Proofs.BlockOrder
import StackAssembler.Proofs.Verdict

/-! Which errors calls of the emitter and actions can end in, and what rules the others out. -/
namespace StackAssembler.IR

/-- Errors of requests that no action makes, of calls that an action checks before it makes them, and of returns
from blocks without a function. -/
def IrError.isPrecluded : IrError → Bool
  | emptyPhi | detachedBlock _ | argumentCount .. | blockAttached _ | notAFunction _ | metadataTarget
  | metadataIndex .. => true
  | _ => false

namespace Verdict

/-- The verdict on a call with some operands: it is one of them, or the instruction that is written is as expected, and
the error, if the call is fit, is none of those that are ruled out. -/
def Plain (fit : Prop) (vs : List ValueId) (expected : Operation → Ty → Prop) : Verdict → Prop
  | refused err => fit → err.isPrecluded = false
  | operand v => v ∈ vs
  | folded .. => True
  | written op t _ => expected op t

variable {fit : Prop} {vs : List ValueId} {expected : Operation → Ty → Prop} {ctx : Context} {at? : Option BlockId}
  {next : Verdict} {t : Ty}

theorem Plain.check {c : Prop} [Decidable c] {d : Verdict} (hn : c → next.Plain fit vs expected)
    (hd : ¬ c → d.Plain fit vs expected) : (if c then next else d).Plain fit vs expected := by
  split
  · next hc => exact hn hc
  · next hc => exact hd hc

theorem Plain.require {v : ValueId} (h : next.Plain fit vs expected) : (require ctx v t next).Plain fit vs expected :=
  .check (fun _ => h) fun _ _ => rfl

theorem Plain.requireEach {ws : List ValueId} {ts : List Ty} (h : next.Plain fit vs expected) :
    (requireEach ctx ws ts next).Plain fit vs expected := by
  induction ws generalizing ts with
  | nil => exact h
  | cons v ws ih =>
    cases ts with
    | nil => exact h
    | cons t ts => exact .require ih

theorem Plain.inOpen {next : BlockId → Verdict} (h : ∀ b ∈ at?, (next b).Plain fit vs expected) :
    (inOpen ctx at? next).Plain fit vs expected := by
  cases at? with
  | none => exact fun _ => rfl
  | some b =>
    rw [Verdict.inOpen]
    exact .check (fun _ _ => rfl) fun _ => h b rfl

theorem Plain.write {op : Operation} {name : Option String} (h : expected op t) :
    (write ctx at? op t name).Plain fit vs expected :=
  .inOpen fun _ _ => h

theorem Plain.fold (t : Ty) (n : Int) : (fold t n).Plain fit vs expected := by
  unfold Verdict.fold
  cases t.width? with
  | none => exact fun _ => rfl
  | some width => trivial

theorem Plain.inFunction {next : Function → Verdict} (hat : fit → ∀ b ∈ at?, (ctx.block b).function.isSome)
    (h : ∀ f, (next f).Plain fit vs expected) : (inFunction ctx at? next).Plain fit vs expected := by
  refine .inOpen fun b hb => ?_
  cases hf : (ctx.block b).function with
  | some f => exact h _
  | none =>
    intro hfit
    have hsome := hat hfit b hb
    rw [hf] at hsome
    cases hsome

theorem Plain.icmp {pred : Predicate} {l r : ValueId} (h : ∀ p, expected (.icmp p l r) (.int 1)) :
    (icmp ctx at? pred l r).Plain fit vs expected := by
  cases pred with
  | float p => exact fun _ => rfl
  | int p =>
    refine .require (.check (fun _ => ?_) fun _ _ => rfl)
    cases Emitter.foldCompare? ctx p l r with
    | some b => trivial
    | none => exact .write (h p)

theorem Plain.fcmp {pred : Predicate} {l r : ValueId} (h : ∀ p, expected (.fcmp p l r) (.int 1)) :
    (fcmp ctx at? pred l r).Plain fit vs expected := by
  cases pred with
  | int p => exact fun _ => rfl
  | float p => exact .require (.check (fun _ => .write (h p)) fun _ _ => rfl)

theorem Plain.cast {op : CastOp} {v : ValueId} (hv : v ∈ vs) (h : expected (.cast op v) t) :
    (cast ctx at? op v t).Plain fit vs expected := by
  refine .check (fun _ => .check (fun _ => hv) fun _ => ?_) fun _ _ => rfl
  cases Emitter.foldCast? ctx op v with
  | some payload => exact .fold _ _
  | none => exact .write h

theorem Plain.zextOrTrunc {v : ValueId} (hv : v ∈ vs) (h : ∀ op, expected (.cast op v) t) :
    (zextOrTrunc ctx at? v t).Plain fit vs expected := by
  refine .check (fun _ => hv) fun _ => ?_
  cases ctx.typeOf v <;> cases t
  case int.int => exact .cast hv (h _)
  all_goals exact fun _ => rfl

end Verdict

/-- What a call has to bring along so that only plain errors can come of it: a phi has an edge, a call has as many
arguments as the function takes, and a return stands in the block of a function. -/
def Emission.Fit (ctx : Context) (at? : Option BlockId) : Emission → Prop
  | phi incoming => incoming ≠ []
  | call f args => Emitter.accepts (ctx.function f) args.length
  | ret _ | retVoid => ∀ b ∈ at?, (ctx.block b).function.isSome
  | _ => True

/-- The instruction that a call writes, if it writes one, and the type of its result. -/
def Emission.Writes (ctx : Context) : Emission → Operation → Ty → Prop
  | alloca a _, op, t => op = .alloca a ∧ t = .pointer a 0 ∧ (a.allocSize? ctx.layout).isSome
  | load a p, op, t => op = .load p ∧ t = a
  | store v p, op, t => op = .store v p ∧ t = .void
  | binary o l r, op, t => op = .binary o l r ∧ t = ctx.typeOf l
  | icmp _ l r, op, t => (∃ p, op = .icmp p l r) ∧ t = .int 1
  | fcmp _ l r, op, t => (∃ p, op = .fcmp p l r) ∧ t = .int 1
  | compare _ l r, op, t => ((∃ p, op = .icmp p l r) ∨ ∃ p, op = .fcmp p l r) ∧ t = .int 1
  | cast o v a, op, t => op = .cast o v ∧ t = a
  | zextOrTrunc v a, op, t => (∃ o, op = .cast o v) ∧ t = a
  | fptoui v a, op, t => op = .cast .fptoui v ∧ t = a
  | phi incoming, op, t => op = .phi incoming ∧ ∃ v ∈ incoming.map Prod.fst, t = ctx.typeOf v
  | br d, op, t => op = .br d ∧ t = .void
  | condBr c a b, op, t => op = .condBr c a b ∧ t = .void
  | call f args, op, t => op = .call f args ∧ t = (ctx.function f).result
  | ret v, op, t => op = .ret (some v) ∧ t = .void
  | retVoid, op, t => op = .ret none ∧ t = .void

/-- What a call writes reads its operands. -/
theorem Emission.Writes.operands {ctx : Context} {e : Emission} {op : Operation} {t : Ty} (h : e.Writes ctx op t) :
    op.operands = e.handles.values := by
  cases e with
  | icmp | fcmp | zextOrTrunc =>
    obtain ⟨⟨_, rfl⟩, _⟩ := h
    rfl
  | compare =>
    obtain ⟨⟨_, rfl⟩ | ⟨_, rfl⟩, _⟩ := h <;> rfl
  | _ =>
    rw [h.1]
    rfl

open Verdict in
/-- A call writes its instruction, and it is refused for no other reason than those that it can be fit for. -/
theorem Emission.verdict_plain (ctx : Context) (at? : Option BlockId) (e : Emission) :
    (e.verdict ctx at?).Plain (e.Fit ctx at?) e.handles.values (e.Writes ctx) := by
  cases e with
  | alloca t name => exact .check (fun hs => .write ⟨rfl, rfl, hs⟩) fun _ _ => rfl
  | load t p =>
    rw [verdict]
    cases (ctx.typeOf p).pointee? with
    | none => exact fun _ => rfl
    | some q => exact .check (fun _ => .write ⟨rfl, rfl⟩) fun _ _ => rfl
  | store v p =>
    rw [verdict]
    cases (ctx.typeOf p).pointee? with
    | none => exact fun _ => rfl
    | some q => exact .require (.write ⟨rfl, rfl⟩)
  | binary op l r =>
    refine .require (.check (fun _ => ?_) fun _ _ => rfl)
    cases Emitter.foldBinary? ctx op l r with
    | some n => exact .fold _ _
    | none => exact .write ⟨rfl, rfl⟩
  | icmp pred l r => exact .icmp fun p => ⟨⟨p, rfl⟩, rfl⟩
  | fcmp pred l r => exact .fcmp fun p => ⟨⟨p, rfl⟩, rfl⟩
  | compare pred l r =>
    exact .check (fun _ => .fcmp fun p => ⟨.inr ⟨p, rfl⟩, rfl⟩) fun _ => .icmp fun p => ⟨.inl ⟨p, rfl⟩, rfl⟩
  | cast op v t => exact .cast List.mem_cons_self ⟨rfl, rfl⟩
  | zextOrTrunc v t => exact .zextOrTrunc List.mem_cons_self fun op => ⟨⟨op, rfl⟩, rfl⟩
  | fptoui v t => exact .check (fun _ => List.mem_cons_self) fun _ => .cast List.mem_cons_self ⟨rfl, rfl⟩
  | phi incoming =>
    cases incoming with
    | nil => exact fun h => absurd rfl h
    | cons first rest => exact .requireEach (.write ⟨rfl, first.1, List.mem_map_of_mem List.mem_cons_self, rfl⟩)
  | br d => exact .write ⟨rfl, rfl⟩
  | condBr c t f => exact .require (.write ⟨rfl, rfl⟩)
  | call f args => exact .check (fun _ => .requireEach (.write ⟨rfl, rfl⟩)) fun hn h => absurd h hn
  | ret v =>
    rw [verdict]
    refine .inFunction id fun f => ?_
    exact .check (fun _ _ => rfl) fun _ => .write ⟨rfl, rfl⟩
  | retVoid =>
    rw [verdict]
    refine .inFunction id fun f => ?_
    exact .check (fun _ => .write ⟨rfl, rfl⟩) fun _ _ => rfl

/-- The errors of a call that is fit are plain. -/
theorem Emission.Fit.yields {ctx : Context} {at? : Option BlockId} {e : Emission} (h : e.Fit ctx at?) :
    Yields (e.run at? ctx) (fun v ctx' => e.run at? ctx = .ok v ctx') (fun err => err.isPrecluded = false) := by
  obtain ⟨ts, _, hr⟩ := e.run_settles at? ctx
  have hp := e.verdict_plain ctx at?
  cases hd : e.verdict ctx at? with
  | refused err =>
    rw [hd] at hr hp
    rw [hr]
    exact hp h
  | written op t name =>
    rw [hd] at hr
    rw [hr]
    cases at? <;> rfl
  | _ =>
    rw [hd] at hr
    rw [hr]
    rfl

/-- Only the name of a function of a function type can be at fault. -/
theorem Edit.addFunction_yields (m : ModuleId) (name : String) (result : Ty) (params : List Ty) (variadic : Bool)
    (linkage : Linkage) (ctx : Context) :
    Yields (addFunction m name (.function result params variadic) linkage ctx) (fun _ _ => True)
      fun err => err.isPrecluded = false := by
  simp only [addFunction]
  split
  · exact rfl
  · trivial

end StackAssembler.IR

namespace StackAssembler.Build
open IR

def BuildError.isPrecluded : BuildError → Bool
  | unknownVariable _ | unknownBlock _ => true
  | ir e => e.isPrecluded
  | _ => false

/-- A run whose errors are none of the precluded ones. -/
abbrev Plainly {α : Type} (r : EStateM.Result BuildError Machine α) (ok : α → Machine → Prop) : Prop :=
  Yields r ok fun e => e.isPrecluded = false

/-- The variable that an operand names. -/
def Operand.name? : Operand → Option String
  | .var name => some name
  | _ => none

/-- The block that a target names. -/
def Target.name? : Target → Option String
  | .named name => some name
  | _ => none

/-- The variables and blocks that an action names are there, its phi has edges, and once a function is active the
builder's position is in a function. -/
structure Machine.Meets (m : Machine) (a : Action) : Prop where
  vars : ∀ o ∈ a.operands, ∀ name ∈ o.name?, (m.builder.var? name).isSome
  blocks : ∀ t ∈ a.targets, ∀ name ∈ t.name?, (m.builder.block? name).isSome
  goto : ∀ name, a = .setBlock name → (m.builder.block? name).isSome
  edges : a ≠ .phi []
  owned : m.builder.functions ≠ [] → ∀ b ∈ m.builder.position, (m.context.block b).function.isSome

namespace Step
variable {m : Machine}

theorem resolve_plainly {o : Operand} (h : ∀ name ∈ o.name?, (m.builder.var? name).isSome) :
    Plainly (resolve o m) fun _ m' => ∃ k, m' = m.taken k := by
  have ends := resolve_ends o m
  cases hr : resolve o m with
  | ok v m' => exact ⟨_, (ends.of_ok hr).2.2⟩
  | error e m' =>
    cases o with
    | stack =>
      change pop m = _ at hr
      rw [pop_run] at hr
      split at hr
      · cases hr
        rfl
      · cases hr
    | value v => cases hr
    | var name =>
      obtain ⟨v, hv⟩ := Option.isSome_iff_exists.mp (h name rfl)
      simp only [resolve, hv] at hr
      cases hr
    | arg index =>
      simp only [resolve] at hr
      split at hr
      · cases hr
        rfl
      · split at hr <;> cases hr
        rfl

theorem resolveAll_plainly {os : List Operand} (h : ∀ o ∈ os, ∀ name ∈ o.name?, (m.builder.var? name).isSome) :
    Plainly (resolveAll os m) fun vs m' => vs.length = os.length ∧ ∃ k, m' = m.taken k := by
  induction os with
  | nil => exact ⟨rfl, 0, m.taken_zero.symm⟩
  | cons o os ih =>
    obtain ⟨ho, hos⟩ := List.forall_mem_cons.mp h
    refine (ih hos).bind fun vs m₁ ⟨hlen, k, hm⟩ => ?_
    rw [hm]
    refine (resolve_plainly (m := m.taken k) ho).bind fun v m₂ ⟨j, hm₂⟩ => ?_
    exact ⟨congrArg (· + 1) hlen, k + j, hm₂.trans (m.taken_taken k j)⟩

theorem target_plainly {t : Target} (h : ∀ name ∈ t.name?, (m.builder.block? name).isSome) :
    Plainly (target t m) fun _ m' => m' = m := by
  have ends := target_ends t m
  cases hr : target t m with
  | ok b m' => exact (ends.of_ok hr).2
  | error e m' =>
    cases t with
    | named name =>
      obtain ⟨b, hb⟩ := Option.isSome_iff_exists.mp (h name rfl)
      simp only [target, hb] at hr
      cases hr
    | block b => cases hr
    | next n =>
      simp only [target] at hr
      split at hr
      · cases hr
        rfl
      · split at hr
        · cases hr
          rfl
        · split at hr <;> cases hr
          rfl

theorem resolveEdges_plainly {es : List PhiEdge}
    (hv : ∀ e ∈ es, ∀ name ∈ e.value.name?, (m.builder.var? name).isSome)
    (hb : ∀ e ∈ es, ∀ name ∈ e.block.name?, (m.builder.block? name).isSome) :
    Plainly (resolveEdges es m) fun incoming m' => incoming.length = es.length ∧ ∃ k, m' = m.taken k := by
  induction es with
  | nil => exact ⟨rfl, 0, m.taken_zero.symm⟩
  | cons e es ih =>
    obtain ⟨hv, hvs⟩ := List.forall_mem_cons.mp hv
    obtain ⟨hb, hbs⟩ := List.forall_mem_cons.mp hb
    refine (ih hvs hbs).bind fun rest m₁ ⟨hlen, k, hm⟩ => ?_
    rw [hm]
    refine (target_plainly (m := m.taken k) hb).bind fun b m₂ hm₂ => ?_
    rw [hm₂]
    refine (resolve_plainly (m := m.taken k) hv).bind fun v m₃ ⟨j, hm₃⟩ => ?_
    exact ⟨congrArg (· + 1) hlen, k + j, hm₃.trans (m.taken_taken k j)⟩

theorem resolveCallee_plainly (c : Callee) : Plainly (resolveCallee c m) fun _ m' => m' = m := by
  have ends := resolveCallee_ends c m
  cases hr : resolveCallee c m with
  | ok f m' => exact (ends.of_ok hr).2
  | error e m' =>
    cases c with
    | function f => cases hr
    | named name =>
      simp only [resolveCallee] at hr
      split at hr
      · cases hr
        rfl
      · split at hr <;> cases hr
        rfl

theorem emit_plainly {α : Type} {f : Option BlockId → Edit α} {P : α → Context → Prop}
    (h : Yields (f m.builder.position m.context) P fun err => err.isPrecluded = false) :
    Plainly (emit f m) fun _ _ => True :=
  emit_yields (h.mono fun _ _ _ => trivial)

theorem pushEmitted_plainly {e : Emission} (h : e.Fit m.context m.builder.position) :
    Plainly (pushEmitted (e.run ·) m) fun _ _ => True :=
  (emit_plainly h.yields).bind fun _ _ _ => trivial

theorem coerceEach_yields (at? : Option BlockId) (vs : List ValueId) (ts : List Ty) (ctx : Context) :
    Yields (coerceEach at? vs ts ctx) (fun ws ctx' => ws.length = vs.length ∧ ctx'.functions = ctx.functions)
      fun err => err.isPrecluded = false := by
  induction vs generalizing ts ctx with
  | nil => exact ⟨rfl, rfl⟩
  | cons v vs ih =>
    cases ts with
    | nil => exact ⟨rfl, rfl⟩
    | cons t ts =>
      have first : Yields (coerce at? v t ctx) (fun _ ctx' => ctx'.functions = ctx.functions)
          fun err => err.isPrecluded = false := by
        unfold coerce
        split
        · exact rfl
        · have hfit : (Emission.cast .bitcast v t).Fit ctx at? := trivial
          exact hfit.yields.mono fun _ _ => Emission.functions_run
      rw [coerceEach_cons]
      refine first.bind fun w ctx₁ h₁ => (ih ts ctx₁).bind fun ws ctx₂ ⟨hlen, h₂⟩ => ?_
      exact ⟨congrArg (· + 1) hlen, h₂.trans h₁⟩

theorem call_plainly {callee : Callee} {args : List Operand}
    (h : ∀ o ∈ args, ∀ name ∈ o.name?, (m.builder.var? name).isSome) :
    Plainly (call callee args m) fun _ _ => True := by
  refine (resolveCallee_plainly callee).bind fun f m₁ hm => ?_
  rw [hm, get_bind, ite_run]
  split
  · next hacc =>
    refine (resolveAll_plainly h).bind fun vs m₂ ⟨hlen, k, hm₂⟩ => ?_
    rw [hm₂]
    -- The arguments are as many as were checked, and the function is still the same.
    refine emit_plainly (P := fun _ _ => True) ?_
    refine (coerceEach_yields m.builder.position vs (m.context.function f).params m.context).bind
      fun ws ctx ⟨hws, hfs⟩ => ?_
    have hfit : (Emission.call f ws).Fit ctx m.builder.position := by
      have hf : ctx.function f = m.context.function f := by rw [Context.function, hfs]; rfl
      change Emitter.accepts (ctx.function f) ws.length
      rw [hf, hws, hlen]
      exact hacc
    exact hfit.yields.mono fun _ _ _ => trivial
  · exact rfl

theorem ret_plainly {value : Option Operand} (h : ∀ o ∈ value, ∀ name ∈ o.name?, (m.builder.var? name).isSome)
    (ho : m.builder.functions ≠ [] → ∀ b ∈ m.builder.position, (m.context.block b).function.isSome) :
    Plainly (ret value m) fun _ _ => True := by
  rw [ret, bind_run]
  unfold activeFunction
  cases hf : m.builder.activeFunction? with
  | none => exact rfl
  | some f =>
    have hb := ho fun he => by simp [Builder.activeFunction?, he] at hf
    dsimp only
    rw [get_bind]
    cases value with
    | none =>
      cases (m.context.function f).result.isVoid with
      | false => exact rfl
      | true =>
        have hfit : Emission.retVoid.Fit m.context m.builder.position := hb
        exact (emit_plainly hfit.yields).bind fun _ _ _ => trivial
    | some o =>
      cases (m.context.function f).result.isVoid with
      | true => exact rfl
      | false =>
        refine (resolve_plainly (h o rfl)).bind fun v m₁ hm => ?_
        obtain ⟨k, hm⟩ := hm
        rw [hm]
        have hfit : (Emission.ret v).Fit (m.taken k).context (m.taken k).builder.position := hb
        exact (emit_plainly hfit.yields).bind fun _ _ _ => trivial

theorem createFunction_plainly (spec : FunctionSpec) : Plainly (createFunction spec m) fun _ _ => True := by
  rw [createFunction, get_bind]
  cases m.builder.module with
  | none => exact rfl
  | some module =>
    refine (emit_plainly (P := fun _ _ => True) ?_).bind fun f m₁ _ => ?_
    · rw [Emitter.intern_bind]
      refine (Edit.addFunction_yields module spec.name _ _ _ _ _).bind fun f ctx _ => ?_
      rw [bind_run, attachAll_run]
      trivial
    · trivial

theorem createBlock_plainly (name : String) : Plainly (createBlock name m) fun _ _ => True := by
  rw [createBlock_run]
  split
  · exact rfl
  · split
    · exact rfl
    · trivial

theorem setBlock_plainly {name : String} (h : (m.builder.block? name).isSome) :
    Plainly (setBlock name m) fun _ _ => True := by
  obtain ⟨b, hb⟩ := Option.isSome_iff_exists.mp h
  rw [setBlock, get_bind, hb]
  trivial

theorem drop_plainly (count : Nat) : Plainly (drop count m) fun _ _ => True := by
  rw [drop, get_bind, ite_run]
  split
  · exact rfl
  · trivial

/-- Two operands, the second of which is looked up first. -/
private theorem operands_plainly {l r : Operand} {f : ValueId → ValueId → Step Unit}
    (hl : ∀ name ∈ l.name?, (m.builder.var? name).isSome) (hr : ∀ name ∈ r.name?, (m.builder.var? name).isSome)
    (h : ∀ v w k, Plainly (f v w (m.taken k)) fun _ _ => True) :
    Plainly ((resolve r >>= fun w => resolve l >>= fun v => f v w) m) fun _ _ => True := by
  refine (resolve_plainly hr).bind fun w m₁ ⟨k, hm⟩ => ?_
  rw [hm]
  refine (resolve_plainly (m := m.taken k) hl).bind fun v m₂ ⟨j, hm₂⟩ => ?_
  rw [hm₂, m.taken_taken]
  exact h v w (k + j)

end Step

/-- An action whose names are there fails for no precluded reason. -/
theorem Machine.Meets.execute {m : Machine} {a : Action} (h : m.Meets a) : Plainly (a.execute m) fun _ _ => True := by
  have operand {o : Operand} (ho : o ∈ a.operands) := h.vars o ho
  have place {t : Target} (ht : t ∈ a.targets) := h.blocks t ht
  cases a with
  | alloc t name =>
    cases name with
    | none => exact Step.pushEmitted_plainly (e := .alloca t none) trivial
    | some name =>
      have hfit : (Emission.alloca t (some name)).Fit m.context m.builder.position := trivial
      exact (Step.emit_plainly hfit.yields).bind fun _ _ _ => trivial
  | load t source =>
    refine (Step.resolve_plainly (operand (by simp [Action.operands]))).bind fun p m₁ _ => ?_
    exact Step.pushEmitted_plainly (e := .load t p) trivial
  | store value dest =>
    refine Step.operands_plainly (operand (by simp [Action.operands])) (operand (by simp [Action.operands]))
      fun v d k => ?_
    have hfit : (Emission.store v d).Fit (m.taken k).context (m.taken k).builder.position := trivial
    exact (Step.emit_plainly hfit.yields).bind fun _ _ _ => trivial
  | binary op lhs rhs =>
    exact Step.operands_plainly (operand (by simp [Action.operands])) (operand (by simp [Action.operands]))
      fun l r k => Step.pushEmitted_plainly (e := .binary op l r) trivial
  | compare pred lhs rhs =>
    exact Step.operands_plainly (operand (by simp [Action.operands])) (operand (by simp [Action.operands]))
      fun l r k => Step.pushEmitted_plainly (e := .compare pred l r) trivial
  | cast kind value t =>
    refine (Step.resolve_plainly (operand (by simp [Action.operands]))).bind fun v m₁ _ => ?_
    have hfit : (kind.emission v t).Fit m₁.context m₁.builder.position := by cases kind <;> trivial
    have hp := Step.pushEmitted_plainly hfit
    cases kind <;> exact hp
  | phi edges =>
    have hv : ∀ e ∈ edges, ∀ name ∈ e.value.name?, (m.builder.var? name).isSome :=
      fun e he => operand (List.mem_map_of_mem he)
    have hb : ∀ e ∈ edges, ∀ name ∈ e.block.name?, (m.builder.block? name).isSome :=
      fun e he => place (List.mem_map_of_mem he)
    refine (Step.resolveEdges_plainly hv hb).bind fun incoming m₁ hm => ?_
    obtain ⟨hlen, _⟩ := hm
    refine Step.pushEmitted_plainly (e := .phi incoming) fun hnil => h.edges ?_
    rw [hnil] at hlen
    rw [List.eq_nil_of_length_eq_zero hlen.symm]
  | condBr cond onTrue onFalse =>
    refine (Step.target_plainly (place (by simp [Action.targets]))).bind fun t m₁ hm => ?_
    rw [hm]
    refine (Step.target_plainly (place (by simp [Action.targets]))).bind fun f m₂ hm => ?_
    rw [hm]
    refine (Step.resolve_plainly (operand (by simp [Action.operands]))).bind fun c m₃ _ => ?_
    exact Step.pushEmitted_plainly (e := .condBr c t f) trivial
  | branch dest =>
    refine (Step.target_plainly (place (by simp [Action.targets]))).bind fun d m₁ _ => ?_
    exact Step.pushEmitted_plainly (e := .br d) trivial
  | call callee args => exact (Step.call_plainly fun o ho => operand ho).bind fun _ _ _ => trivial
  | ret value => exact Step.ret_plainly (fun o ho => operand (Option.mem_toList.mpr ho)) h.owned
  | createBlock name => exact Step.createBlock_plainly name
  | setBlock name => exact Step.setBlock_plainly (h.goto name rfl)
  | createFunction spec => exact Step.createFunction_plainly spec
  | push value =>
    exact (Step.resolve_plainly (operand (by simp [Action.operands]))).bind fun _ _ _ => trivial
  | pop count => exact Step.drop_plainly count
  | useFunction | useModule | keepStack | inspect => trivial

end StackAssembler.Build
