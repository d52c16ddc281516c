import StackAssembler.Proofs.OperandStack
import StackAssembler.Proofs.Request

/-! What actions do with their operands, and how they end. -/
namespace StackAssembler.Build
open IR

/-- The call of the emitter that converts a value. -/
def Conversion.emission (kind : Conversion) (v : ValueId) (t : Ty) : Emission :=
  match kind with
  | .bitcast => .cast .bitcast v t
  | .zextOrTrunc => .zextOrTrunc v t
  | .fptoui => .fptoui v t
  | .ptrtoint => .cast .ptrtoint v t
  | .inttoptr => .cast .inttoptr v t

/-- The call of the emitter that an action comes down to when its operands are some values. -/
def Machine.emission? (m : Machine) : Action → List ValueId → Option Emission
  | .alloc t none, [] => some (.alloca t none)
  | .load t _, [p] => some (.load t p)
  | .store _ _, [v, d] => some (.store v d)
  | .binary op _ _, [l, r] => some (.binary op l r)
  | .compare pred _ _, [l, r] => some (.compare pred l r)
  | .cast kind _ t, [v] => some (kind.emission v t)
  | .phi edges, vs => do some (.phi (vs.zip (← m.placeAll (edges.map (·.block)))))
  | .condBr _ onTrue onFalse, [c] => do some (.condBr c (← m.place onTrue) (← m.place onFalse))
  | .branch dest, [] => do some (.br (← m.place dest))
  | .ret (some _), [v] => some (.ret v)
  | .ret none, [] => some .retVoid
  | _, _ => none

namespace Action

/-- Whether an action leaves a result on the stack. -/
def pushes : Action → Bool
  | alloc _ none | load .. | binary .. | compare .. | cast .. | phi _ | condBr .. | branch _ | call ..
  | createFunction _ | useFunction _ | push _ => true
  | _ => false

/-- How many values an action drops off the stack besides its operands. -/
def drops : Action → Nat
  | pop count => count
  | _ => 0

/-- The variables that an action adds. -/
def binds (ctx : Context) : Action → List (String × ValueId)
  | alloc _ (some name) => [(name, ⟨ctx.values.size⟩)]
  | _ => []

end Action

/-- What an action does when its operands are some values: its result, and the machine before the result is
pushed. The operands have no part in it any more. -/
inductive Effect (m : Machine) : Action → List ValueId → Option ValueId → Machine → Prop where
  | emitted {a : Action} {vs : List ValueId} {e : Emission} {v : ValueId} {ctx : Context} :
      m.emission? a vs = some e → e.run m.builder.position m.context = .ok v ctx →
      Effect m a vs (if a.pushes then some v else none) { m with context := ctx }
  | alloc {t : Ty} {name : String} {v : ValueId} {ctx : Context} :
      (Emission.alloca t (some name)).run m.builder.position m.context = .ok v ctx →
      Effect m (.alloc t (some name)) [] none
        { m with context := ctx, builder.vars := (name, v) :: m.builder.vars }
  | call {callee : Callee} {args : List Operand} {f : FunctionId} {vs ws : List ValueId} {v : ValueId}
      {ctx ctx' : Context} : m.callee? callee = some f →
      Step.coerceEach m.builder.position vs (m.context.function f).params m.context = .ok ws ctx →
      (Emission.call f ws).run m.builder.position ctx = .ok v ctx' →
      Effect m (.call callee args) vs (some v) { m with context := ctx' }
  | createBlock {name : String} : m.builder.block? name = none →
      Effect m (.createBlock name) [] none (m.withBlock name)
  | setBlock {name : String} {b : BlockId} : m.builder.block? name = some b →
      Effect m (.setBlock name) [] none { m with builder.position := some b }
  | createFunction {spec : FunctionSpec} {k : ModuleId} {f : FunctionId} {ctx : Context} :
      m.builder.module = some k →
      Edit.addFunction k spec.name (.function spec.result spec.params spec.variadic) .external
        (m.context.intern (.function spec.result spec.params spec.variadic)) = .ok f ctx →
      Effect m (.createFunction spec) [] (some ((Step.adoptAll f m.builder.blockOrder ctx).function f).value)
        { context := Step.adoptAll f m.builder.blockOrder ctx
          builder := { m.builder with position := none, functions := f :: m.builder.functions } }
  | useFunction {f : FunctionId} :
      Effect m (.useFunction f) [] (some (m.context.function f).value)
        { m with
          builder.module := some (m.context.function f).module
          builder.functions := f :: m.builder.functions }
  | useModule {k : ModuleId} : Effect m (.useModule k) [] none { m with builder.module := some k }
  | push {o : Operand} {v : ValueId} : Effect m (.push o) [v] (some v) m
  | pop {count : Nat} : count ≤ m.builder.stack.length →
      Effect m (.pop count) [] none { m with builder.stack := m.builder.stack.drop count }
  | keepStack : Effect m .keepStack [] none { m with builder.keepStack := true }
  | inspect : Effect m .inspect [] none m

/-- An action that succeeds takes its operands off the stack, has its effect and pushes its result. -/
def Done (m : Machine) (a : Action) (m' : Machine) : Prop :=
  m.Holds (a.operands.count .stack) ∧ ∃ vs r m₁, m.denoteAll a.operands = some vs ∧
    Effect (m.taken (a.operands.count .stack)) a vs r m₁ ∧ m' = m₁.pushed r

/-- What an action that fails leaves: operands were taken and types entered into the table. Only a call can
have come further. A block that a builder takes for its own must be one of the context. -/
inductive Failed (m : Machine) (a : Action) : Machine → Prop where
  | spent {j : Nat} {ts : List Ty} : j ≤ a.operands.count .stack →
      Failed m a { m.taken j with context := m.context.internAll ts }
  | coerced {callee : Callee} {args : List Operand} {f : FunctionId} {vs ws : List ValueId} {n : Nat}
      {ctx : Context} : a = .call callee args → m.callee? callee = some f → m.denoteAll args = some vs →
      Step.coerceEach m.builder.position (vs.take n) (m.context.function f).params m.context = .ok ws ctx →
      Failed m a { m.taken (args.count .stack) with context := ctx }
  | foreign {p : String × BlockId} {m' : Machine} : p ∈ m.builder.blocks.pairs → ¬ m.context.HasBlock p.2 → Failed m a m'

theorem Failed.taken {m : Machine} {a : Action} {j : Nat} (h : j ≤ a.operands.count .stack) :
    Failed m a (m.taken j) := by
  have h : Failed m a { m.taken j with context := m.context.internAll [] } := .spent h
  exact h

theorem Failed.retyped {m : Machine} {a : Action} (ts : List Ty) :
    Failed m a { m with context := m.context.internAll ts } := by
  have h : Failed m a { m.taken 0 with context := m.context.internAll ts } := .spent (Nat.zero_le _)
  rwa [m.taken_zero] at h

theorem Failed.unchanged {m : Machine} {a : Action} : Failed m a m := .retyped []

/-- An action without operands. -/
theorem Done.bare {m m₁ : Machine} {a : Action} {r : Option ValueId} (ha : a.operands = [])
    (h : Effect m a [] r m₁) : Done m a (m₁.pushed r) := by
  unfold Done
  rw [ha, List.count_nil, m.taken_zero]
  exact ⟨Machine.holds_zero, [], r, m₁, rfl, h, rfl⟩

namespace Action
variable {m : Machine} {a : Action}

/-- An action with one operand. -/
private theorem one_ends {o : Operand} (ha : a.operands = [o]) {f : ValueId → Step Unit}
    (h : ∀ v, m.denoteAll a.operands = some [v] → m.Holds (a.operands.count .stack) →
      Ends (f v (m.taken (a.operands.count .stack))) (fun _ => Done m a) (Failed m a)) :
    Ends ((Step.resolve o >>= f) m) (fun _ => Done m a) (Failed m a) := by
  rw [ha] at h
  refine Ends.bind (Step.resolve_ends o m) (fun v m₁ ⟨hv, hh, hm⟩ => ?_) fun m' hm => ?_
  · rw [hm]
    exact h v (by simp [Machine.denoteAll, hv]) hh
  · rw [hm]
    exact .unchanged

/-- An action with two operands. The second is taken first. -/
private theorem two_ends {l r : Operand} (ha : a.operands = [l, r]) {f : ValueId → ValueId → Step Unit}
    (h : ∀ v w, m.denoteAll a.operands = some [v, w] → m.Holds (a.operands.count .stack) →
      Ends (f v w (m.taken (a.operands.count .stack))) (fun _ => Done m a) (Failed m a)) :
    Ends ((Step.resolve r >>= fun w => Step.resolve l >>= fun v => f v w) m) (fun _ => Done m a) (Failed m a) := by
  have hc : a.operands.count .stack = [r].count .stack + [l].count .stack := by
    rw [ha]
    simp [List.count_cons]
  rw [hc] at h
  refine Ends.bind (Step.resolve_ends r m) (fun w m₁ ⟨hw, hh, hm⟩ => ?_) fun m' hm => ?_
  · rw [hm]
    refine Ends.bind (Step.resolve_taken l hh) (fun v m₂ ⟨hv, hh₂, hm₂⟩ => ?_) fun m' hm => ?_
    · rw [hm₂]
      exact h v w (by simp [ha, Machine.denoteAll, hv, hw]) hh₂
    · rw [hm]
      exact .taken (by omega)
  · rw [hm]
    exact .unchanged

/-- An action that comes down to a call of the emitter whose answer is pushed. -/
private theorem pushed_ends {vs : List ValueId} {e : Emission} (hp : a.pushes)
    (hvs : m.denoteAll a.operands = some vs) (hh : m.Holds (a.operands.count .stack))
    (he : (m.taken (a.operands.count .stack)).emission? a vs = some e) :
    Ends (Step.pushEmitted (e.run ·) (m.taken (a.operands.count .stack))) (fun _ => Done m a) (Failed m a) := by
  refine Ends.bind (Step.emission_ends e _) (fun v m₁ ⟨ctx, hr, hm⟩ => ?_) fun m' ⟨ts, hm⟩ => ?_
  · have hf := Effect.emitted he hr
    rw [if_pos hp] at hf
    exact ⟨hh, vs, _, _, hvs, hf, by rw [hm]; rfl⟩
  · rw [hm]
    exact .spent (Nat.le_refl _)

/-- An action that comes down to a call of the emitter without a result. -/
private theorem silent_ends {vs : List ValueId} {e : Emission} (hp : a.pushes = false)
    (hvs : m.denoteAll a.operands = some vs) (hh : m.Holds (a.operands.count .stack))
    (he : (m.taken (a.operands.count .stack)).emission? a vs = some e) :
    Ends ((Step.emit (e.run ·) >>= fun _ => pure ()) (m.taken (a.operands.count .stack))) (fun _ => Done m a)
      (Failed m a) := by
  refine Ends.bind (Step.emission_ends e _) (fun v m₁ ⟨ctx, hr, hm⟩ => ?_) fun m' ⟨ts, hm⟩ => ?_
  · have hf := Effect.emitted he hr
    rw [hp, if_neg (by simp)] at hf
    exact ⟨hh, vs, _, _, hvs, hf, hm⟩
  · rw [hm]
    exact .spent (Nat.le_refl _)

/-- An action without operands whose answer is pushed. -/
private theorem bare_ends {e : Emission} (hp : a.pushes) (ha : a.operands = []) (he : m.emission? a [] = some e) :
    Ends (Step.pushEmitted (e.run ·) m) (fun _ => Done m a) (Failed m a) := by
  have hc : a.operands.count .stack = 0 := by rw [ha, List.count_nil]
  have hvs : m.denoteAll a.operands = some [] := by
    rw [ha]
    rfl
  have h := pushed_ends (e := e) hp hvs (by rw [hc]; exact Machine.holds_zero) (by rwa [hc, m.taken_zero])
  rwa [hc, m.taken_zero] at h

/-- When one of the casts in front of a call is refused, the earlier ones stay. -/
theorem coerceEach_error {at? : Option BlockId} {vs : List ValueId} {ts : List Ty} {ctx ctx' : Context}
    {err : IrError} (h : Step.coerceEach at? vs ts ctx = .error err ctx') :
    ∃ n ws, Step.coerceEach at? (vs.take n) ts ctx = .ok ws ctx' := by
  induction vs generalizing ts ctx with
  | nil => cases h
  | cons v vs ih =>
    cases ts with
    | nil => cases h
    | cons t ts =>
      rw [Step.coerceEach_cons] at h
      rcases bind_error h with h | ⟨w, ctx₁, hw, h⟩
      · refine ⟨0, [], ?_⟩
        unfold Step.coerce at h
        split at h
        · cases h
        · rw [Emission.run_error (e := .cast .bitcast v t) rfl h]
          rfl
      · rcases bind_error h with h | ⟨ws, ctx₂, _, h⟩
        · obtain ⟨n, ws, hws⟩ := ih h
          refine ⟨n + 1, w :: ws, ?_⟩
          rw [List.take_succ_cons, Step.coerceEach_cons, bind_of_ok hw, bind_of_ok hws]
          rfl
        · cases h

private theorem call_ends (callee : Callee) (args : List Operand) (m : Machine) :
    Ends (Step.call callee args m) (fun v m₁ => Done m (.call callee args) (m₁.pushed (some v)))
      (Failed m (.call callee args)) := by
  refine Ends.bind (Step.resolveCallee_ends callee m) (fun f m₁ ⟨hf, hm⟩ => ?_) fun m' hm => hm ▸ .unchanged
  rw [hm, get_bind, ite_run]
  split
  · refine Ends.bind (Step.resolveAll_ends args m) (fun vs m₂ ⟨hvs, hh, hm₂⟩ => ?_)
      fun m' ⟨j, hj, hm⟩ => hm ▸ .taken hj
    rw [hm₂, Step.emit_run, bind_run]
    cases hc : Step.coerceEach m.builder.position vs (m.context.function f).params m.context with
    | error err ctx =>
      rw [show Step.coerceEach (m.taken _).builder.position vs _ (m.taken _).context = _ from hc]
      obtain ⟨n, ws, hws⟩ := coerceEach_error hc
      exact Failed.coerced rfl hf hvs hws
    | ok ws ctx =>
      rw [show Step.coerceEach (m.taken _).builder.position vs _ (m.taken _).context = _ from hc]
      dsimp only
      cases hr : (Emission.call f ws).run m.builder.position ctx with
      | error err ctx' =>
        rw [show Emitter.call (m.taken _).builder.position f ws ctx = _ from hr, Emission.run_error rfl hr]
        rw [← List.take_length (l := vs)] at hc
        exact Failed.coerced rfl hf hvs hc
      | ok v ctx' =>
        rw [show Emitter.call (m.taken _).builder.position f ws ctx = _ from hr]
        have hcallee : (m.taken (args.count .stack)).callee? callee = some f := by cases callee <;> exact hf
        exact ⟨hh, vs, some v, _, hvs, .call hcallee hc hr, rfl⟩
  · exact Failed.unchanged

private theorem ret_ends (value : Option Operand) (m : Machine) :
    Ends ((Action.ret value).execute m) (fun _ => Done m (.ret value)) (Failed m (.ret value)) := by
  rw [execute, Step.ret, bind_run]
  unfold Step.activeFunction
  cases hf : m.builder.activeFunction? with
  | none => exact Failed.unchanged
  | some f =>
    dsimp only
    rw [get_bind]
    cases value with
    | none =>
      cases (m.context.function f).result.isVoid with
      | false => exact Failed.unchanged
      | true =>
        have h := silent_ends (m := m) (a := .ret none) (e := .retVoid) rfl rfl Machine.holds_zero rfl
        rwa [show (Action.ret none).operands.count .stack = 0 from rfl, m.taken_zero] at h
    | some o =>
      cases (m.context.function f).result.isVoid with
      | true => exact Failed.unchanged
      | false => exact one_ends rfl fun v hvs hh => silent_ends (e := .ret v) rfl hvs hh rfl

private theorem createBlock_ends (name : String) (m : Machine) :
    Ends ((Action.createBlock name).execute m) (fun _ => Done m (.createBlock name)) (Failed m (.createBlock name)) := by
  rw [execute, Step.createBlock_run]
  split
  · exact Failed.unchanged
  · next hn =>
    cases hl : m.builder.blocks.left? ⟨m.context.blocks.size⟩ with
    | none => exact .bare rfl (.createBlock (Option.not_isSome_iff_eq_none.mp hn))
    | some other =>
      obtain ⟨p, hp, _⟩ := Option.map_eq_some_iff.mp hl
      have hb : p.2 = ⟨m.context.blocks.size⟩ := by simpa using List.find?_some hp
      exact Failed.foreign (List.mem_of_find?_eq_some hp) (by rw [hb]; exact Nat.lt_irrefl _)

private theorem createFunction_ends (spec : FunctionSpec) (m : Machine) :
    Ends ((Action.createFunction spec).execute m) (fun _ => Done m (.createFunction spec))
      (Failed m (.createFunction spec)) := by
  rw [execute, Step.createFunction, get_bind]
  cases hm : m.builder.module with
  | none => exact Failed.unchanged
  | some k =>
    dsimp only
    rw [bind_run, Step.emit_run, Emitter.intern_bind, bind_run]
    rcases Edit.addFunction_run k spec.name (.function spec.result spec.params spec.variadic) .external
      (m.context.intern (.function spec.result spec.params spec.variadic)) with ⟨_, _, _, _, _, h⟩ | ⟨err, h⟩
    · rw [h]
      dsimp only
      rw [bind_run, Step.attachAll_run]
      exact .bare rfl (.createFunction hm h)
    · rw [h]
      exact Failed.retyped [.function spec.result spec.params spec.variadic]

/-- How every action ends. -/
theorem execute_ends (a : Action) (m : Machine) : Ends (a.execute m) (fun _ => Done m a) (Failed m a) := by
  cases a with
  | alloc t name =>
    cases name with
    | none => exact bare_ends (e := .alloca t none) rfl rfl rfl
    | some name =>
      refine Ends.bind (Step.emission_ends (.alloca t (some name)) m) (fun v m₁ ⟨ctx, hr, hm⟩ => ?_)
        fun m' ⟨ts, hm⟩ => ?_
      · rw [hm]
        exact .bare rfl (.alloc hr)
      · rw [hm]
        exact .retyped ts
  | load t source => exact one_ends rfl fun p hvs hh => pushed_ends (e := .load t p) rfl hvs hh rfl
  | store value dest => exact two_ends rfl fun v d hvs hh => silent_ends (e := .store v d) rfl hvs hh rfl
  | binary op lhs rhs => exact two_ends rfl fun l r hvs hh => pushed_ends (e := .binary op l r) rfl hvs hh rfl
  | compare pred lhs rhs => exact two_ends rfl fun l r hvs hh => pushed_ends (e := .compare pred l r) rfl hvs hh rfl
  | cast kind value t =>
    refine one_ends rfl fun v hvs hh => ?_
    have h := pushed_ends (a := .cast kind value t) (e := kind.emission v t) rfl hvs hh rfl
    cases kind <;> exact h
  | phi edges =>
    refine Ends.bind (Step.resolveEdges_ends edges m) (fun incoming m₁ ⟨hvs, hbs, hh, hm⟩ => ?_)
      fun m' ⟨j, hj, hm⟩ => ?_
    · rw [hm]
      refine pushed_ends (a := .phi edges) (e := .phi incoming) rfl hvs hh ?_
      simp [Machine.emission?, Machine.placeAll_taken, hbs, List.zip_map']
    · rw [hm]
      exact .taken hj
  | condBr cond onTrue onFalse =>
    refine Ends.bind (Step.target_ends onTrue m) (fun t m₁ ⟨ht, hm⟩ => ?_) fun m' hm => hm ▸ .unchanged
    rw [hm]
    refine Ends.bind (Step.target_ends onFalse m) (fun f m₁ ⟨hf, hm⟩ => ?_) fun m' hm => hm ▸ .unchanged
    rw [hm]
    refine one_ends rfl fun c hvs hh => pushed_ends (e := .condBr c t f) rfl hvs hh ?_
    simp [Machine.emission?, Machine.place_taken, ht, hf]
  | branch dest =>
    refine Ends.bind (Step.target_ends dest m) (fun d m₁ ⟨hd, hm⟩ => ?_) fun m' hm => hm ▸ .unchanged
    rw [hm]
    exact bare_ends (e := .br d) rfl rfl (by simp [Machine.emission?, hd])
  | call callee args => exact Ends.bind (call_ends callee args m) (fun _ _ h => h) fun _ h => h
  | ret value => exact ret_ends value m
  | createBlock name => exact createBlock_ends name m
  | setBlock name =>
    rw [execute, Step.setBlock, get_bind]
    cases hb : m.builder.block? name with
    | none => exact Failed.unchanged
    | some b => exact .bare rfl (.setBlock hb)
  | createFunction spec => exact createFunction_ends spec m
  | useFunction f => exact .bare rfl .useFunction
  | useModule k => exact .bare rfl .useModule
  | push value => exact one_ends rfl fun v hvs hh => ⟨hh, _, _, _, hvs, .push, rfl⟩
  | pop count =>
    rw [execute, Step.drop, get_bind, ite_run]
    split
    · exact Failed.unchanged
    · next h => exact .bare rfl (.pop (Nat.le_of_not_lt h))
  | keepStack => exact .bare rfl .keepStack
  | inspect => exact .bare rfl .inspect

end Action

namespace Effect
variable {m m₁ : Machine} {a : Action} {vs : List ValueId} {r : Option ValueId}

theorem isSome_result (h : Effect m a vs r m₁) : r.isSome = a.pushes := by
  cases h with
  | emitted => cases a.pushes <;> rfl
  | _ => rfl

theorem stack (h : Effect m a vs r m₁) : m₁.builder.stack = m.builder.stack.drop a.drops := by
  cases h with
  | emitted he =>
    have : a.drops = 0 := by cases a <;> first | rfl | cases he
    rw [this]
    rfl
  | _ => rfl

theorem vars (h : Effect m a vs r m₁) : m₁.builder.vars = a.binds m.context ++ m.builder.vars := by
  cases h with
  | emitted he =>
    have : a.binds m.context = [] := by
      unfold Action.binds
      split
      · cases he
      · rfl
    rw [this]
    rfl
  | alloc hr =>
    rw [Emission.run_ok rfl hr]
    rfl
  | _ => rfl

end Effect

/-- An action that succeeds resolves its operands from right to left, each operand on the stack to the value
that the ones to its right left on top, and takes exactly these values. It has its effect with what the
operands stand for, and then pushes the result if it is of a kind that has one. -/
theorem Action.execute_ok {a : Action} {m m' : Machine} (h : a.execute m = .ok () m') :
    m.Holds (a.operands.count .stack) ∧ ∃ vs r m₁, vs.length = a.operands.length ∧
      (∀ i o, a.operands[i]? = some o → vs[i]? = m.denote ((a.operands.drop (i + 1)).count .stack) o) ∧
      Effect (m.taken (a.operands.count .stack)) a vs r m₁ ∧ m' = m₁.pushed r ∧ r.isSome = a.pushes ∧
      m'.builder.stack = r.toList ++ (m.taken (a.operands.count .stack)).builder.stack.drop a.drops ∧
      m'.builder.vars = a.binds m.context ++ m.builder.vars := by
  obtain ⟨hh, vs, r, m₁, hvs, he, rfl⟩ := (a.execute_ends m).of_ok h
  refine ⟨hh, vs, r, m₁, Machine.length_denoteAll hvs, fun i o => Machine.getElem?_denoteAll hvs, he, rfl,
    he.isSome_result, ?_, he.vars⟩
  rw [← he.stack]
  rfl

/-- Both arguments of a function on the stack, the second on top. -/
def Machine.operands : Machine :=
  after (executeAll [.useModule ⟨0⟩, .createFunction ⟨"f", .int 32, [.int 32, .int 32], false⟩,
    .createBlock "entry", .pop 1, .push (.arg 0), .push (.arg 1)]) { context.modules := #[⟨"m", #[]⟩] }

/-- The value below the top is what is subtracted from. -/
theorem Action.execute_ok_sub :
    Machine.operands.builder.stack = [⟨2⟩, ⟨1⟩] ∧ ∃ vs r m₁, vs[0]? = some ⟨1⟩ ∧ vs[1]? = some ⟨2⟩ ∧
      Effect (Machine.operands.taken 2) (.binary .sub .stack .stack) vs r m₁ ∧ r.isSome ∧
      (after (Action.binary .sub .stack .stack).execute Machine.operands).builder.stack = r.toList := by
  have h : (Action.binary .sub .stack .stack).execute Machine.operands = .ok () _ :=
    eq_ok_of_failure? (by decide +kernel)
  obtain ⟨_, vs, r, m₁, _, hvs, he, _, hr, hstack, _⟩ := Action.execute_ok h
  have hl : vs[0]? = some ⟨1⟩ := (hvs 0 .stack rfl).trans (by decide +kernel)
  have hr' : vs[1]? = some ⟨2⟩ := (hvs 1 .stack rfl).trans (by decide +kernel)
  have hempty : (Machine.operands.taken 2).builder.stack = [] := by decide +kernel
  refine ⟨by decide +kernel, vs, r, m₁, hl, hr', he, hr, hstack.trans ?_⟩
  rw [show (Action.binary .sub .stack .stack).operands.count .stack = 2 from rfl, hempty]
  simp

end StackAssembler.Build
