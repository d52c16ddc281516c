import StackAssembler.Proofs.Effect
import StackAssembler.Proofs.Progress

/-! What an action leaves behind when it fails. -/
namespace StackAssembler.IR

/-- Bit-cast values to types, one after another, at the end of a block. -/
def Context.addCasts (ctx : Context) (b : BlockId) (casts : List (ValueId × Ty)) : Context :=
  casts.foldl (fun ctx p => (ctx.addInstruction b (.cast .bitcast p.1) p.2 none).2) ctx

end StackAssembler.IR

namespace StackAssembler.Build
open IR

/-- The casts that are called for: those of values of other types. -/
def casts (ctx : Context) (vs : List ValueId) (ts : List Ty) : List (ValueId × Ty) :=
  (vs.zip ts).filter fun p => ctx.typeOf p.1 ≠ p.2

private theorem typeOf_addCasts {ctx : Context} {v : ValueId} (hv : ctx.HasValue v) (b : BlockId) (w : ValueId)
    (t : Ty) : (ctx.addCasts b [(w, t)]).typeOf v = ctx.typeOf v := by
  rw [Context.typeOf, Context.addCasts, List.foldl_cons, List.foldl_nil, Context.value_addInstruction,
    if_neg (Nat.ne_of_lt hv)]
  rfl

private theorem casts_addCasts {ctx : Context} {vs : List ValueId} (hvs : ∀ v ∈ vs, ctx.HasValue v) (ts : List Ty)
    (b : BlockId) (w : ValueId) (t : Ty) : casts (ctx.addCasts b [(w, t)]) vs ts = casts ctx vs ts := by
  refine List.filter_congr fun p hp => ?_
  rw [typeOf_addCasts (hvs p.1 (List.of_mem_zip hp).1)]

/-- The casts that a call puts in front of itself, one for each argument of another type than the parameter. -/
theorem coerceEach_ok {at? : Option BlockId} {vs ws : List ValueId} {ts : List Ty} {ctx ctx' : Context}
    (hvs : ∀ v ∈ vs, ctx.HasValue v) (h : Step.coerceEach at? vs ts ctx = .ok ws ctx') :
    casts ctx vs ts = [] ∧ ctx' = ctx ∨ ∃ b, at? = some b ∧ ctx' = ctx.addCasts b (casts ctx vs ts) := by
  induction vs generalizing ts ws ctx with
  | nil =>
    cases h
    exact Or.inl ⟨rfl, rfl⟩
  | cons v vs ih =>
    cases ts with
    | nil =>
      cases h
      exact Or.inl ⟨rfl, rfl⟩
    | cons t ts =>
      obtain ⟨hv, hvs⟩ := List.forall_mem_cons.mp hvs
      rw [Step.coerceEach_cons] at h
      obtain ⟨w, ctx₁, hw, h⟩ := bind_ok h
      obtain ⟨ws', ctx₂, hws, h⟩ := bind_ok h
      cases h
      unfold Step.coerce at hw
      by_cases ht : ctx.typeOf v = t
      · rw [if_pos ht] at hw
        cases hw
        have hc : casts ctx (v :: vs) (t :: ts) = casts ctx vs ts := by simp [casts, ht]
        rw [hc]
        exact ih hvs hws
      · rw [if_neg ht] at hw
        obtain ⟨_, b, rfl, _, rfl, hb⟩ := Emitter.bitcast_ok ht hw
        have hb : ctx₁ = ctx.addCasts b [(v, t)] := hb
        subst hb
        have hc : casts ctx (v :: vs) (t :: ts) = (v, t) :: casts ctx vs ts := by simp [casts, ht]
        have hknown : ∀ u ∈ vs, (ctx.addCasts b [(v, t)]).HasValue u := fun u hu => by
          have := hvs u hu
          simp only [Context.HasValue, Context.addCasts, Context.addInstruction, Context.addValue, List.foldl_cons,
            List.foldl_nil, Array.size_push] at this ⊢
          omega
        refine Or.inr ⟨b, rfl, ?_⟩
        rcases ih hknown hws with ⟨hnone, rfl⟩ | ⟨c, hb, rfl⟩
        · rw [casts_addCasts hvs] at hnone
          rw [hc, hnone]
        · cases hb
          rw [hc, casts_addCasts hvs]
          rfl

/-- An action that fails leaves the builder as it was, except that operands may be gone from a stack that is not
kept. The context may have got types. Only a call may also have written the casts of its first arguments. -/
theorem Reachable.execute_error {m m' : Machine} {a : Action} {e : BuildError} (hm : Reachable m)
    (hk : m.context.Knows a.handles) (h : a.execute m = .error e m') :
    (∃ j ≤ a.operands.count .stack, m'.builder = { m.builder with
      stack := if m.builder.keepStack then m.builder.stack else m.builder.stack.drop j }) ∧
    ((∃ types, m.context.types.toList <+: types.toList ∧ m'.context = { m.context with types := types }) ∨
      ∃ callee args f vs n b, a = .call callee args ∧ m.callee? callee = some f ∧ m.denoteAll args = some vs ∧
        m.builder.position = some b ∧ m'.context =
          m.context.addCasts b (casts m.context (vs.take n) (m.context.function f).params)) := by
  obtain ⟨layout, hl⟩ := hm.leads
  have hs := hl.sound
  cases (a.execute_ends m).of_error h with
  | @spent j ts hj =>
    refine ⟨⟨j, hj, rfl⟩, Or.inl ⟨(m.context.internAll ts).types, m.context.types_prefix_internAll ts, ?_⟩⟩
    exact m.context.internAll_eq ts
  | @coerced callee args f vs ws n ctx ha hf hvs hws =>
    subst ha
    refine ⟨⟨_, Nat.le_refl _, rfl⟩, ?_⟩
    have hknown := hs.denoteAll (fun o ho => Action.known_operand hk ho) hvs
    rcases coerceEach_ok (fun v hv => hknown.values v (List.mem_of_mem_take hv)) hws with ⟨_, rfl⟩ | ⟨b, hb, rfl⟩
    · exact Or.inl ⟨m.context.types, List.prefix_rfl, rfl⟩
    · exact Or.inr ⟨callee, args, f, vs, n, b, rfl, hf, hvs, hb, rfl⟩
  | foreign hp hn => exact absurd (Builder.hasBlock_pair hs.known _ hp) hn

/-- A function that is to call another one with its arguments, the second of which cannot be cast. -/
def Command.mismatch : List Command :=
  let bytes : Ty := .pointer (.int 8) 0
  let words : Ty := .pointer (.int 32) 0
  [.request (.addModule "m"), .request (.intern .void), .request (.intern (.int 8)), .request (.intern (.int 32)),
    .request (.intern bytes), .request (.intern words), .request (.intern (.function .void [bytes, bytes] false)),
    .request (.addFunction ⟨0⟩ "use" (.function .void [bytes, bytes] false) .external), .perform (.useModule ⟨0⟩),
    .perform (.createFunction ⟨"main", .void, [words, .int 32], false⟩), .perform (.createBlock "entry"),
    .perform (.push (.arg 1))]

def Machine.mismatch : Machine := Machine.runAll {} Command.mismatch

/-- The call takes its operand off the stack and leaves the cast of the other argument. -/
theorem Reachable.execute_error_call :
    failure? (Action.call (.named "use") [.arg 0, .stack]).execute Machine.mismatch =
        some (.ir (.invalidCast .bitcast (.int 32) (.pointer (.int 8) 0))) ∧
      ((after (Action.call (.named "use") [.arg 0, .stack]).execute Machine.mismatch).context.block
        ⟨0⟩).instructions = #[⟨6⟩] ∧
      ∃ j ≤ 1, (after (Action.call (.named "use") [.arg 0, .stack]).execute Machine.mismatch).builder =
        { Machine.mismatch.builder with
          stack := if Machine.mismatch.builder.keepStack then Machine.mismatch.builder.stack
            else Machine.mismatch.builder.stack.drop j } := by
  have hf : failure? (Action.call (.named "use") [.arg 0, .stack]).execute Machine.mismatch =
      some (.ir (.invalidCast .bitcast (.int 32) (.pointer (.int 8) 0))) := by decide +kernel
  have hm : Reachable Machine.mismatch := ⟨{}, .of_permits Command.mismatch (by decide +kernel)⟩
  exact ⟨hf, by decide +kernel, (hm.execute_error (by decide +kernel) (eq_error_of_failure? hf)).1⟩

end StackAssembler.Build
