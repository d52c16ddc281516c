import StackAssembler.Proofs.Footprint
import StackAssembler.Proofs.Lowering

/-! What instructions read. Where all that is asked for is of ordinary types, all values are, and operands are neither
stores nor returns. The typing rules then leave few places for an operand without content. -/
namespace StackAssembler.IR

theorem Ty.Ordinary.of_number {t : Ty} (h : t.isInteger ∨ t.isFloat) : t.Ordinary := by
  cases t with
  | int | float => exact ⟨rfl, nofun⟩
  | _ => simp [Ty.isInteger, Ty.isFloat] at h

/-- Stores and returns. Nothing is left of them that could be read. -/
def Operation.isSilent : Operation → Bool
  | store .. | ret _ => true
  | _ => false

def Emission.isSilent : Emission → Bool
  | store .. | ret _ | retVoid => true
  | _ => false

structure Function.Ordinary (f : Function) : Prop where
  result : f.result.Ordinary
  params : ∀ t ∈ f.params, t.Ordinary

namespace Context
variable {ctx ctx' : Context}

/-- A value that can be an operand: one of the context, and neither a store nor a return. -/
structure Serves (ctx : Context) (v : ValueId) : Prop where
  there : ctx.HasValue v
  speaks : ∀ op b, (ctx.value v).kind = .instruction op b → op.isSilent = false

theorem Serves.later {v : ValueId} (h : ctx.Serves v) (hv : ctx.values.toList <+: ctx'.values.toList) :
    ctx'.Serves v := by
  refine ⟨?_, ?_⟩
  · have hle : ctx.values.toList.length ≤ ctx'.values.toList.length := hv.length_le
    exact Nat.lt_of_lt_of_le h.there hle
  · rw [value_of_grows hv h.there]
    exact h.speaks

/-- A value that is no instruction. -/
theorem Serves.of_kind {v : ValueId} (hv : ctx.HasValue v) (hk : ∀ op b, (ctx.value v).kind ≠ .instruction op b) :
    ctx.Serves v :=
  ⟨hv, fun op b h => absurd h (hk op b)⟩

/-- What scripts keep up: all types are ordinary, and all operands of instructions can be operands. -/
structure Proper (ctx : Context) : Prop where
  types : ∀ v, (ctx.typeOf v).Ordinary
  functions : ∀ f, (ctx.function f).Ordinary
  operands : ∀ v op b, (ctx.value v).kind = .instruction op b → ∀ u ∈ op.operands, ctx.Serves u

namespace Proper

theorem empty (layout : DataLayout) : Proper { layout := layout } :=
  ⟨fun _ => ⟨rfl, nofun⟩, fun _ => ⟨⟨rfl, nofun⟩, nofun⟩, nofun⟩

/-- Values are added, of ordinary types and with operands from what was there. -/
theorem append (hp : ctx.Proper) (xs : List Value) (hv : ctx'.values = ctx.values ++ xs.toArray)
    (hf : ∀ f, (ctx'.function f).Ordinary) (ht : ∀ x ∈ xs, x.type.Ordinary)
    (ho : ∀ x ∈ xs, ∀ op b, x.kind = .instruction op b → ∀ u ∈ op.operands, ctx.Serves u) : ctx'.Proper := by
  have hgrows : ctx.values.toList <+: ctx'.values.toList := by simp [hv]
  have hcases (v : ValueId) : ctx'.value v = ctx.value v ∨ ctx'.value v ∈ xs := by
    by_cases hv' : ctx'.HasValue v
    · rcases hasValue_of_append hv hv' with hold | ⟨x, hx, he⟩
      · exact .inl (value_of_grows hgrows hold)
      · exact .inr (he ▸ hx)
    · have hle : ctx'.values.size ≤ v.index := Nat.le_of_not_lt hv'
      have hle' : ctx.values.size ≤ v.index := Nat.le_trans hgrows.length_le hle
      exact .inl ((getD_of_size_le hle _).trans (getD_of_size_le hle' _).symm)
  refine ⟨fun v => ?_, hf, fun v op b hk u hu => ?_⟩
  · rcases hcases v with h | h
    · rw [typeOf, h]
      exact hp.types v
    · exact ht _ h
  · refine Serves.later ?_ hgrows
    rcases hcases v with h | h
    · exact hp.operands v op b (h ▸ hk) u hu
    · exact ho _ h op b hk u hu

/-- No values are added. -/
theorem of_values (hp : ctx.Proper) (hv : ctx'.values = ctx.values) (hf : ∀ f, (ctx'.function f).Ordinary) :
    ctx'.Proper :=
  hp.append [] (by simp [hv]) hf (List.forall_mem_nil _) (List.forall_mem_nil _)

theorem internAll (hp : ctx.Proper) (ts : List Ty) : (ctx.internAll ts).Proper := by
  rw [internAll_eq]
  exact hp.of_values rfl hp.functions

theorem numbers (hp : ctx.Proper) (h : ctx.AddsNumbers ctx') (hf : ctx'.functions = ctx.functions) : ctx'.Proper := by
  obtain ⟨xs, hxs, hx⟩ := h
  refine hp.append xs hxs (fun f => ?_) (fun x hin => .of_number (hx x hin).2) fun x hin op b hk => ?_
  · rw [function, hf]
    exact hp.functions f
  · obtain ⟨c, hc⟩ := (hx x hin).1
    rw [hc] at hk
    cases hk

theorem constant (hp : ctx.Proper) {t : Ty} (ht : t.Ordinary) (c : Constant) : (ctx.constant t c).2.Proper := by
  rcases ctx.constant_cases t c with ⟨hsame, _⟩ | hnew
  · rwa [hsame]
  · refine hp.append [⟨t, none, .constant c⟩] ?_ ?_ (List.forall_mem_singleton.mpr ht)
      (List.forall_mem_singleton.mpr nofun)
    · rw [hnew]
      exact Array.push_eq_append
    · rw [hnew]
      exact hp.functions

theorem addInstruction (hp : ctx.Proper) {op : Operation} {t : Ty} (ht : t.Ordinary)
    (ho : ∀ u ∈ op.operands, ctx.Serves u) (b : BlockId) (name : Option String) :
    (ctx.addInstruction b op t name).2.Proper := by
  refine hp.append [⟨t, name, .instruction op b⟩] Array.push_eq_append hp.functions
    (List.forall_mem_singleton.mpr ht) (List.forall_mem_singleton.mpr fun op' b' hk => ?_)
  cases hk
  exact ho

theorem declare (hp : ctx.Proper) (m : ModuleId) (name : String) {result : Ty} {params : List Ty}
    (hr : result.Ordinary) (hps : ∀ t ∈ params, t.Ordinary) (variadic : Bool) (linkage : Linkage) :
    (ctx.declare m name result params variadic linkage).Proper := by
  refine hp.append _ (ctx.declare_values m name result params variadic linkage) (fun f => ?_) ?_ ?_
  · rw [function_declare]
    split
    · exact ⟨hr, hps⟩
    · exact hp.functions f
  · rw [List.forall_mem_cons]
    refine ⟨⟨rfl, nofun⟩, fun x hx => ?_⟩
    obtain ⟨p, hin, rfl⟩ := List.mem_map.mp hx
    exact hps _ (List.fst_mem_of_mem_zipIdx hin)
  · rw [List.forall_mem_cons]
    refine ⟨nofun, fun x hx op b hk => ?_⟩
    obtain ⟨i, hi⟩ := kind_argumentValues hx
    rw [hi] at hk
    cases hk

theorem adopt (hp : ctx.Proper) (f : FunctionId) (b : BlockId) : (ctx.adopt f b).Proper := by
  refine hp.of_values rfl fun g => ?_
  have hg := hp.functions g
  simp only [Context.adopt, function, getD_modify]
  split
  · exact ⟨hg.result, hg.params⟩
  · exact hg

theorem addFunction {m : ModuleId} {name : String} {result : Ty} {params : List Ty} {variadic : Bool}
    {linkage : Linkage} {f : FunctionId} (hp : ctx.Proper) (hr : result.Ordinary) (hps : ∀ t ∈ params, t.Ordinary)
    (h : Edit.addFunction m name (.function result params variadic) linkage ctx = .ok f ctx') : ctx'.Proper := by
  rcases Edit.addFunction_run m name (.function result params variadic) linkage ctx with
    ⟨_, _, _, ht, _, hrun⟩ | ⟨err, hrun⟩
  · rw [hrun] at h
    cases h
    cases ht
    exact (hp.internAll [_]).declare m name hr hps variadic linkage
  · rw [hrun] at h
    cases h

end Proper
end Context

namespace Emission
variable {ctx ctx' : Context} {e : Emission} {op : Operation} {t : Ty}

/-- The result of what a call writes is of an ordinary type when the types that it asks for are ordinary. -/
theorem Writes.ordinary (h : e.Writes ctx op t) (hp : ctx.Proper) (ht : ∀ t ∈ e.handles.types, t.Ordinary) :
    t.Ordinary := by
  cases e with
  | alloca a name =>
    obtain ⟨_, rfl, hsize⟩ := h
    refine ⟨rfl, fun he => ?_⟩
    -- nothing is allocated for `void`
    rw [Option.some.inj he] at hsize
    cases hsize
  | load | cast | zextOrTrunc | fptoui => exact h.2 ▸ ht _ List.mem_cons_self
  | binary => exact h.2 ▸ hp.types _
  | icmp | fcmp | compare => exact h.2 ▸ ⟨rfl, nofun⟩
  | phi =>
    obtain ⟨_, v, _, rfl⟩ := h
    exact hp.types v
  | call f => exact h.2 ▸ (hp.functions f).result
  | store | br | condBr | ret | retVoid => exact h.2 ▸ ⟨rfl, nofun⟩

/-- A store is written for a store and a return for a return, and neither for anything else. -/
theorem Writes.isSilent (h : e.Writes ctx op t) : op.isSilent = e.isSilent := by
  cases e with
  | icmp | fcmp | zextOrTrunc =>
    obtain ⟨⟨_, rfl⟩, _⟩ := h
    rfl
  | compare =>
    obtain ⟨⟨_, rfl⟩ | ⟨_, rfl⟩, _⟩ := h <;> rfl
  | _ => rw [h.1]; rfl

/-- What a call answers with can be an operand, unless it is a store or a return. -/
theorem run_proper {at? : Option BlockId} {v : ValueId} (h : e.run at? ctx = .ok v ctx') (hp : ctx.Proper)
    (ht : ∀ t ∈ e.handles.types, t.Ordinary) (ho : ∀ u ∈ e.handles.values, ctx.Serves u) :
    ctx'.Proper ∧ (e.isSilent = false → ctx'.Serves v) := by
  obtain ⟨ts, _, hr⟩ := e.run_settles at? ctx
  have hplain := e.verdict_plain ctx at?
  have hi := hp.internAll ts
  have same : (ctx.internAll ts).values = ctx.values := by rw [Context.internAll_eq]
  have serves {u : ValueId} (hu : ctx.Serves u) : (ctx.internAll ts).Serves u :=
    hu.later (same ▸ List.prefix_rfl)
  rw [h] at hr
  cases hv : e.verdict ctx at? with
  | refused err =>
    rw [hv] at hr
    cases hr
  | operand u =>
    rw [hv] at hr hplain
    cases hr
    exact ⟨hi, fun _ => serves (ho v hplain)⟩
  | folded width n =>
    rw [hv] at hr
    cases hr
    have hc := (ctx.internAll ts).hasConstant_constant (.int width) (.int (Word.truncate width n))
    have hint : (Ty.int width).Ordinary := ⟨rfl, nofun⟩
    refine ⟨hi.constant hint _, fun _ => .of_kind hc.there fun op b hk => ?_⟩
    rw [hc.kind] at hk
    cases hk
  | written op t name =>
    rw [hv] at hr hplain
    have hw : e.Writes ctx op t := hplain
    cases at? with
    | none => cases hr
    | some b =>
      cases hr
      have hoperands : ∀ u ∈ op.operands, (ctx.internAll ts).Serves u := fun u hu => serves (ho u (hw.operands ▸ hu))
      refine ⟨hi.addInstruction (hw.ordinary hp ht) hoperands b name, fun hs => ⟨?_, ?_⟩⟩
      · simp [Context.HasValue, Context.addInstruction, Context.addValue]
      · intro op' b' hk
        have hnew := (ctx.internAll ts).value_addInstruction b op t name ⟨(ctx.internAll ts).values.size⟩
        rw [if_pos rfl] at hnew
        cases (congrArg Value.kind hnew).symm.trans hk
        rw [hw.isSilent, hs]

end Emission
end StackAssembler.IR

namespace StackAssembler.Build
open IR

/-! ### Machines -/

/-- The context keeps up what scripts keep up, and what the builder has at hand can be operands. -/
structure Machine.Proper (m : Machine) : Prop where
  context : m.context.Proper
  stack : ∀ v ∈ m.builder.stack, m.context.Serves v
  vars : ∀ p ∈ m.builder.vars, m.context.Serves p.2

/-- The literals of an operand can be operands. -/
def Operand.Serves (ctx : Context) (o : Operand) : Prop := ∀ v ∈ o.value?, ctx.Serves v

namespace Machine.Proper
variable {m m' : Machine}

theorem taken (hp : m.Proper) (k : Nat) : (m.taken k).Proper := by
  refine ⟨hp.context, fun v hv => hp.stack v ?_, hp.vars⟩
  unfold Machine.taken at hv
  dsimp only at hv
  split at hv
  · exact hv
  · exact List.mem_of_mem_drop hv

theorem denote (hp : m.Proper) (hs : m.Sound) {depth : Nat} {o : Operand} {v : ValueId} (ho : o.Serves m.context)
    (h : m.denote depth o = some v) : m.context.Serves v := by
  cases o with
  | stack => exact hp.stack v (List.mem_of_getElem? h)
  | value w =>
    cases h
    exact ho v rfl
  | var name =>
    obtain ⟨before, rest, hvars, _⟩ := List.lookup_eq_some_iff.mp h
    exact hp.vars (name, v) (by simp [hvars])
  | arg index =>
    obtain ⟨f, hf, hv⟩ := Option.bind_eq_some_iff.mp h
    have hknown := hs.known.functions f (List.mem_of_head? hf)
    refine .of_kind (hs.registered.hasValue_arg hknown hv) fun op b => ?_
    rw [(hs.registered.args f index v hknown hv).2]
    nofun

theorem denoteAll (hp : m.Proper) (hs : m.Sound) {os : List Operand} {vs : List ValueId}
    (ho : ∀ o ∈ os, o.Serves m.context) (h : m.denoteAll os = some vs) : ∀ v ∈ vs, m.context.Serves v := by
  induction os generalizing vs with
  | nil =>
    cases h
    exact List.forall_mem_nil _
  | cons o os ih =>
    obtain ⟨ho, hos⟩ := List.forall_mem_cons.mp ho
    simp only [Machine.denoteAll, Option.bind_eq_bind, Option.bind_eq_some_iff, Option.some.injEq] at h
    obtain ⟨rest, hrest, v, hv, rfl⟩ := h
    exact List.forall_mem_cons.mpr ⟨hp.denote hs ho hv, ih hos hrest⟩

end Machine.Proper

/-- The casts in front of a call. -/
theorem coerceEach_proper {at? : Option BlockId} {vs ws : List ValueId} {ts : List Ty} {ctx ctx' : Context}
    (hp : ctx.Proper) (ht : ∀ t ∈ ts, t.Ordinary) (hvs : ∀ v ∈ vs, ctx.Serves v)
    (h : Step.coerceEach at? vs ts ctx = .ok ws ctx') : ctx'.Proper ∧ ∀ w ∈ ws, ctx'.Serves w := by
  induction vs generalizing ts ws ctx with
  | nil =>
    cases h
    exact ⟨hp, List.forall_mem_nil _⟩
  | cons v vs ih =>
    cases ts with
    | nil =>
      cases h
      exact ⟨hp, hvs⟩
    | cons t ts =>
      obtain ⟨hv, hvs⟩ := List.forall_mem_cons.mp hvs
      obtain ⟨ht, hts⟩ := List.forall_mem_cons.mp ht
      rw [Step.coerceEach_cons] at h
      obtain ⟨w, ctx₁, hw, h⟩ := bind_ok h
      obtain ⟨ws', ctx₂, hws, h⟩ := bind_ok h
      cases h
      have first : ctx₁.Proper ∧ ctx₁.Serves w ∧ ctx.values.toList <+: ctx₁.values.toList := by
        unfold Step.coerce at hw
        split at hw
        · cases hw
          exact ⟨hp, hv, List.prefix_rfl⟩
        · have hrun : (Emission.cast .bitcast v t).run at? ctx = .ok w ctx₁ := hw
          obtain ⟨hp₁, hw₁⟩ := Emission.run_proper hrun hp (List.forall_mem_singleton.mpr ht)
            (List.forall_mem_singleton.mpr hv)
          exact ⟨hp₁, hw₁ rfl, (Within.emission hrun).values⟩
      obtain ⟨hp₁, hw₁, hgrows⟩ := first
      have hknown : ∀ v ∈ vs, ctx₁.Serves v := fun v hin => (hvs v hin).later hgrows
      obtain ⟨hp₂, hws₂⟩ := ih hp₁ hts hknown hws
      have hgrows₂ := (coerceEach_within (fun v hin => (hknown v hin).there) hws).values
      exact ⟨hp₂, List.forall_mem_cons.mpr ⟨hw₁.later hgrows₂, hws₂⟩⟩

theorem adoptAll_proper {ctx : Context} (f : FunctionId) (bs : List BlockId) (hp : ctx.Proper) :
    (Step.adoptAll f bs ctx).Proper := by
  induction bs generalizing ctx with
  | nil => exact hp
  | cons b bs ih =>
    rw [Step.adoptAll]
    split
    · exact ih (hp.adopt f b)
    · exact ih hp

/-- The call that an action comes down to brings along the types of the action and the values of its operands. -/
theorem Machine.emission?_handles {m : Machine} {a : Action} {vs : List ValueId} {e : Emission}
    (h : m.emission? a vs = some e) :
    e.handles.types ⊆ a.types ∧ e.handles.values ⊆ vs ∧ e.isSilent = !a.pushes := by
  unfold Machine.emission? at h
  split at h
  case h_6 kind _ t v =>
    cases h
    cases kind <;> exact ⟨List.Subset.refl _, List.Subset.refl _, rfl⟩
  case h_7 edges vs =>
    obtain ⟨bs, _, he⟩ := Option.bind_eq_some_iff.mp h
    cases he
    refine ⟨List.Subset.refl _, fun v hv => ?_, rfl⟩
    obtain ⟨p, hp, rfl⟩ := List.mem_map.mp hv
    exact (List.of_mem_zip hp).1
  case h_8 cond onTrue onFalse c =>
    obtain ⟨t, _, h⟩ := Option.bind_eq_some_iff.mp h
    obtain ⟨f, _, he⟩ := Option.bind_eq_some_iff.mp h
    cases he
    exact ⟨List.Subset.refl _, List.Subset.refl _, rfl⟩
  case h_9 dest =>
    obtain ⟨d, _, he⟩ := Option.bind_eq_some_iff.mp h
    cases he
    exact ⟨List.Subset.refl _, List.Subset.refl _, rfl⟩
  all_goals
    cases h <;> exact ⟨List.Subset.refl _, List.Subset.refl _, rfl⟩

theorem Effect.proper {m m₁ : Machine} {a : Action} {vs : List ValueId} {r : Option ValueId} (h : Effect m a vs r m₁)
    (hp : m.Proper) (hr : Registered m₁.context) (hf : ∀ f ∈ m₁.builder.functions, m₁.context.HasFunction f)
    (ht : ∀ t ∈ a.types, t.Ordinary) (hvs : ∀ v ∈ vs, m.context.Serves v) :
    m₁.Proper ∧ ∀ v ∈ r, m₁.context.Serves v := by
  have hgrows := (h.within fun v hv => (hvs v hv).there).values
  have hstack : ∀ v ∈ m₁.builder.stack, m₁.context.Serves v := fun v hv => by
    rw [h.stack] at hv
    exact (hp.stack v (List.mem_of_mem_drop hv)).later hgrows
  have hvars : ∀ p ∈ m.builder.vars, m₁.context.Serves p.2 := fun p hin => (hp.vars p hin).later hgrows
  -- the value of a function that is active
  have hactive : ∀ f ∈ m₁.builder.functions, m₁.context.Serves (m₁.context.function f).value := fun f hin => by
    refine .of_kind (hr.hasValue (hf f hin)) fun op b => ?_
    rw [(hr.value f (hf f hin)).2]
    nofun
  cases h with
  | emitted he hrun =>
    obtain ⟨htypes, hvalues, hsilent⟩ := Machine.emission?_handles he
    obtain ⟨hp₁, hv⟩ := Emission.run_proper hrun hp.context (fun t hin => ht t (htypes hin))
      fun u hin => hvs u (hvalues hin)
    refine ⟨⟨hp₁, hstack, hvars⟩, fun v hv' => ?_⟩
    cases hpush : a.pushes with
    | false => simp [hpush] at hv'
    | true =>
      simp only [hpush, if_true, Option.mem_def, Option.some.injEq] at hv'
      exact hv' ▸ hv (by rw [hsilent, hpush]; rfl)
  | alloc hrun =>
    obtain ⟨hp₁, hv⟩ := Emission.run_proper hrun hp.context ht (List.forall_mem_nil _)
    exact ⟨⟨hp₁, hstack, List.forall_mem_cons.mpr ⟨hv rfl, hvars⟩⟩, nofun⟩
  | @call callee args f vs ws v ctx ctx' hcallee hc hrun =>
    obtain ⟨hp₁, hws⟩ := coerceEach_proper hp.context (hp.context.functions f).params hvs hc
    obtain ⟨hp₂, hv⟩ := Emission.run_proper hrun hp₁ (List.forall_mem_nil _) hws
    refine ⟨⟨hp₂, hstack, hvars⟩, fun u hu => ?_⟩
    cases hu
    exact hv rfl
  | createBlock =>
    refine ⟨⟨?_, hstack, hvars⟩, nofun⟩
    unfold Machine.withBlock
    cases m.builder.activeFunction? with
    | none => exact hp.context.of_values rfl hp.context.functions
    | some f => exact (hp.context.of_values rfl hp.context.functions : (m.context.addBlock _).2.Proper).adopt f _
  | @createFunction spec k f ctx hk hadd =>
    obtain ⟨hresult, hparams⟩ := List.forall_mem_cons.mp ht
    refine ⟨⟨adoptAll_proper f _ ?_, hstack, hvars⟩, fun v hv => ?_⟩
    · exact (hp.context.internAll [_]).addFunction hresult hparams hadd
    · cases hv
      exact hactive f List.mem_cons_self
  | useFunction =>
    refine ⟨⟨hp.context, hstack, hvars⟩, fun v hv => ?_⟩
    cases hv
    exact hactive _ List.mem_cons_self
  | push =>
    refine ⟨⟨hp.context, hstack, hvars⟩, fun v hv => ?_⟩
    cases hv
    exact hvs _ List.mem_cons_self
  | setBlock | useModule | pop | keepStack | inspect => exact ⟨⟨hp.context, hstack, hvars⟩, nofun⟩

theorem Done.proper {m m' : Machine} {a : Action} (h : Done m a m') (hp : m.Proper) (hs : m.Sound) (hs' : m'.Sound)
    (ht : ∀ t ∈ a.types, t.Ordinary) (ho : ∀ o ∈ a.operands, o.Serves m.context) : m'.Proper := by
  obtain ⟨_, vs, r, m₁, hvs, he, rfl⟩ := h
  obtain ⟨hp₁, hr⟩ := he.proper (hp.taken _) hs'.registered hs'.known.functions ht (hp.denoteAll hs ho hvs)
  refine ⟨hp₁.context, fun v hv => ?_, hp₁.vars⟩
  rcases List.mem_append.mp hv with hv | hv
  · exact hr v (Option.mem_toList.mp hv)
  · exact hp₁.stack v hv

end StackAssembler.Build

namespace StackAssembler.IR

/-- The places where an operand without content may stand: the edges of a phi, and the arguments of a call that the
function takes as `void` or that go beyond its parameters. -/
inductive Context.Vacant (ctx : Context) (v : ValueId) : Operation → Prop where
  | edge {incoming : List (ValueId × BlockId)} : v ∈ incoming.map Prod.fst → ctx.Vacant v (.phi incoming)
  | argument {f : FunctionId} {args : List ValueId} {i : Nat} : args[i]? = some v →
      (∀ t ∈ (ctx.function f).params[i]?, t = .void) → ctx.Vacant v (.call f args)

/-- The typing rules leave no other places. -/
theorem WellTyped.vacant {ctx : Context} {b : BlockId} {op : Operation} {t : Ty} (h : WellTyped ctx b op t)
    (hp : ctx.Proper) {v : ValueId} (hv : v ∈ op.operands) (ht : ctx.typeOf v = .void) : ctx.Vacant v op := by
  have compared {l r : ValueId} (hin : v ∈ [l, r]) (hr : ctx.typeOf r = ctx.typeOf l) : ctx.typeOf l = .void := by
    rcases List.mem_cons.mp hin with rfl | hin
    · exact ht
    · cases List.mem_singleton.mp hin
      exact hr.symm.trans ht
  cases h with
  | alloca => cases hv
  | load hptr =>
    cases List.mem_singleton.mp hv
    cases ht.symm.trans hptr
  | @store w p space hptr =>
    rcases List.mem_cons.mp hv with rfl | hv
    · rw [ht] at hptr
      have hpointee := (hp.types p).pointee
      rw [hptr] at hpointee
      exact absurd rfl hpointee
    · cases List.mem_singleton.mp hv
      cases ht.symm.trans hptr
  | intBinary _ hl hr | floatBinary _ hl hr =>
    rcases List.mem_cons.mp hv with rfl | hv
    · cases ht.symm.trans hl
    · cases List.mem_singleton.mp hv
      cases ht.symm.trans hr
  | icmp hl hr =>
    rw [compared hv hr] at hl
    rcases hl with hl | hl <;> cases hl
  | fcmp hl hr =>
    rw [compared hv hr] at hl
    cases hl
  | cast hc =>
    cases List.mem_singleton.mp hv
    rw [ht] at hc
    cases hc with
    | numbers hs => rcases hs with hs | hs <;> cases hs
  | phi => exact .edge hv
  | br => cases hv
  | condBr hc =>
    cases List.mem_singleton.mp hv
    cases ht.symm.trans hc
  | @call f args rest hargs =>
    obtain ⟨i, hi⟩ : ∃ i, args[i]? = some v := List.mem_iff_getElem?.mp hv
    refine .argument hi fun t hparam => ?_
    have htype : (args.map ctx.typeOf)[i]? = some t := by
      obtain ⟨hlt, _⟩ := List.getElem?_eq_some_iff.mp hparam
      rw [hargs, List.getElem?_append_left hlt]
      exact hparam
    rw [List.getElem?_map, hi] at htype
    exact (Option.some.inj htype).symm.trans ht
  | ret _ _ hne =>
    cases List.mem_singleton.mp hv
    exact absurd ht hne
  | retVoid => cases hv

end StackAssembler.IR
