import StackAssembler.Proofs.Tandem

/-! The arguments of a call: how many there have to be, which of them are cast, and what the call gets in their
place. -/
namespace StackAssembler.IR

/-- Errors about the number or the types of arguments. -/
def IrError.aboutArguments : IrError → Bool
  | argumentCount .. | typeMismatch .. => true
  | _ => false

/-- The bit-cast of a value to a type, as an instruction of a block. -/
def Value.bitcast (b : BlockId) (p : ValueId × Ty) : Value := ⟨p.2, none, .instruction (.cast .bitcast p.1) b⟩

/-- A new instruction fails for want of an open block only. -/
theorem Emitter.append_apart (at? : Option BlockId) (op : Operation) (t : Ty) (name : Option String)
    (ctx : Context) :
    Yields (append at? op t name ctx) (fun _ _ => True) fun err => err.aboutArguments = false := by
  rw [append, bind_run]
  cases at? with
  | none => exact rfl
  | some b =>
    rw [openBlock_at]
    cases (ctx.terminator? b).isSome with
    | true => exact rfl
    | false => trivial

theorem Emitter.accepts_eq_false_iff (f : Function) (n : Nat) :
    accepts f n = false ↔ n < f.params.length ∨ f.params.length < n ∧ f.variadic = false := by
  rw [← Bool.not_eq_true, accepts_iff]
  cases f.variadic with
  | false =>
    simp
    omega
  | true => simp

theorem Appends.casts {ctx : Context} {b : BlockId} (hb : ctx.HasBlock b) (cs : List (ValueId × Ty)) :
    Appends b (cs.map (Value.bitcast b)) [] ctx (ctx.addCasts b cs) := by
  induction cs generalizing ctx with
  | nil => exact .nothing b ctx
  | cons p cs ih =>
    have first := Appends.instruction hb (.cast .bitcast p.1) p.2 none
    have hb' : (ctx.addInstruction b (.cast .bitcast p.1) p.2 none).2.HasBlock b := by
      simpa [Context.HasBlock, Context.addInstruction, Context.addValue] using hb
    exact first.trans (ih hb')

end StackAssembler.IR

namespace StackAssembler.Build
open IR

/-- Errors about the number or the types of arguments, found by the action or by the emitter. -/
def BuildError.aboutArguments : BuildError → Bool
  | argumentCount .. => true
  | ir err => err.aboutArguments
  | _ => false

/-- What a call gets for its arguments when the casts stand in the table of values from a position on. An argument
that is of another type than its parameter is replaced by its own cast; all others, those beyond the parameters among
them, are passed on as they are. -/
structure Passes (ctx : Context) (start : Nat) (ts : List Ty) (vs ws : List ValueId) : Prop where
  length : ws.length = vs.length
  cast : ∀ {i : Nat} {v : ValueId} {t : Ty}, vs[i]? = some v → ts[i]? = some t → ctx.typeOf v ≠ t →
    ∃ k, k = (casts ctx (vs.take i) ts).length ∧ (casts ctx vs ts)[k]? = some (v, t) ∧ ws[i]? = some ⟨start + k⟩
  same : ∀ {i : Nat} {v : ValueId}, vs[i]? = some v → (∀ t, ts[i]? = some t → ctx.typeOf v = t) → ws[i]? = some v

namespace Passes
variable {ctx : Context} {start : Nat} {v : ValueId} {t : Ty} {vs ws : List ValueId} {ts : List Ty}

theorem unchanged (h : casts ctx vs ts = []) : Passes ctx start ts vs vs where
  length := rfl
  cast {i v t} hv ht hne := by
    have hin : (v, t) ∈ casts ctx vs ts := by
      refine List.mem_filter.mpr ⟨List.mem_iff_getElem?.mpr ⟨i, ?_⟩, by simpa using hne⟩
      rw [List.getElem?_zip_eq_some]
      exact ⟨hv, ht⟩
    rw [h] at hin
    cases hin
  same hv _ := hv

theorem keep (ht : ctx.typeOf v = t) (h : Passes ctx start ts vs ws) :
    Passes ctx start (t :: ts) (v :: vs) (v :: ws) := by
  have skip (us : List ValueId) : casts ctx (v :: us) (t :: ts) = casts ctx us ts := by simp [casts, ht]
  constructor
  · exact congrArg (· + 1) h.length
  · intro i u s hu hs hne
    cases i with
    | zero =>
      cases hu
      cases hs
      exact absurd ht hne
    | succ i =>
      rw [List.take_succ_cons, skip, skip]
      exact h.cast hu hs hne
  · intro i u hu hts
    cases i with
    | zero => exact hu
    | succ i => exact h.same hu hts

theorem replace (ht : ctx.typeOf v ≠ t) (h : Passes ctx (start + 1) ts vs ws) :
    Passes ctx start (t :: ts) (v :: vs) (⟨start⟩ :: ws) := by
  have first (us : List ValueId) : casts ctx (v :: us) (t :: ts) = (v, t) :: casts ctx us ts := by simp [casts, ht]
  constructor
  · exact congrArg (· + 1) h.length
  · intro i u s hu hs hne
    cases i with
    | zero =>
      cases hu
      cases hs
      exact ⟨0, rfl, by rw [first]; rfl, rfl⟩
    | succ i =>
      obtain ⟨k, hk, hc, hw⟩ := h.cast hu hs hne
      refine ⟨k + 1, ?_, ?_, ?_⟩
      · rw [List.take_succ_cons, first, List.length_cons, hk]
      · rw [first]
        exact hc
      · rw [Nat.add_assoc, Nat.add_comm 1 k] at hw
        exact hw
  · intro i u hu hts
    cases i with
    | zero =>
      cases hu
      exact absurd (hts t rfl) ht
    | succ i => exact h.same hu hts

/-- What a call gets has the types of the parameters, once the casts are there. -/
theorem typed {b : BlockId} {ctx' : Context} (h : Passes ctx ctx.values.size ts vs ws)
    (hvs : ∀ v ∈ vs, ctx.HasValue v) (ha : Appends b ((casts ctx vs ts).map (Value.bitcast b)) [] ctx ctx') :
    ∀ p ∈ ws.zip ts, ctx'.typeOf p.1 = p.2 := by
  rintro ⟨w, t⟩ hp
  obtain ⟨i, hi⟩ := List.mem_iff_getElem?.mp hp
  obtain ⟨hw, ht⟩ := List.getElem?_zip_eq_some.mp hi
  have hlt : i < vs.length := h.length ▸ (List.getElem?_eq_some_iff.mp hw).1
  obtain ⟨v, hv⟩ : ∃ v, vs[i]? = some v := ⟨vs[i], List.getElem?_eq_getElem hlt⟩
  dsimp only at hw ht ⊢
  by_cases hty : ctx.typeOf v = t
  · have same : ws[i]? = some v := h.same hv fun s hs => by
      rw [ht] at hs
      cases hs
      exact hty
    rw [hw] at same
    cases same
    rw [Context.typeOf, ha.value_old (hvs w (List.mem_of_getElem? hv))]
    exact hty
  · obtain ⟨k, _, hc, hk⟩ := h.cast hv ht hty
    rw [hw] at hk
    cases hk
    have new : ((casts ctx vs ts).map (Value.bitcast b))[k]? = some (Value.bitcast b (v, t)) := by
      rw [List.getElem?_map, hc]
      rfl
    rw [Context.typeOf, ha.value_new new]
    rfl

end Passes

/-- A call gets its arguments, or their casts. The types of the arguments are those of an earlier context. -/
private theorem passes_coerceEach {at? : Option BlockId} {vs ws : List ValueId} {ts : List Ty} {c ctx ctx' : Context}
    (hvs : ∀ v ∈ vs, ctx.HasValue v ∧ ctx.typeOf v = c.typeOf v)
    (h : Step.coerceEach at? vs ts ctx = .ok ws ctx') : Passes c ctx.values.size ts vs ws := by
  induction vs generalizing ts ws ctx with
  | nil =>
    cases h
    exact .unchanged rfl
  | cons v vs ih =>
    cases ts with
    | nil =>
      cases h
      exact .unchanged rfl
    | cons t ts =>
      obtain ⟨⟨hv, hty⟩, hvs⟩ := List.forall_mem_cons.mp hvs
      rw [Step.coerceEach_cons] at h
      obtain ⟨w, ctx₁, hw, h⟩ := bind_ok h
      obtain ⟨ws', ctx₂, hws, h⟩ := bind_ok h
      cases h
      unfold Step.coerce at hw
      split at hw
      · next ht =>
        cases hw
        exact (ih hvs hws).keep (hty ▸ ht)
      · next ht =>
        obtain ⟨_, b, _, _, rfl, rfl⟩ := Emitter.bitcast_ok ht hw
        have size := ctx.size_addInstruction b (.cast .bitcast v) t none
        refine .replace (hty ▸ ht) (size ▸ ih (fun u hu => ?_) hws)
        obtain ⟨hu, hty⟩ := hvs u hu
        have hu : u.index < ctx.values.size := hu
        refine ⟨by rw [Context.HasValue, size]; omega, ?_⟩
        rw [Context.typeOf, Context.value_addInstruction, if_neg (Nat.ne_of_lt hu)]
        exact hty

/-- The casts in front of a call come to the end of the open block, and the call gets them in place of their
arguments. Where no block is open there are no casts. -/
theorem coerceEach_passes {at? : Option BlockId} {b : BlockId} {vs ws : List ValueId} {ts : List Ty}
    {ctx ctx' : Context} (hat : ∀ d ∈ at?, d = b ∧ ctx.HasBlock d) (hvs : ∀ v ∈ vs, ctx.HasValue v)
    (h : Step.coerceEach at? vs ts ctx = .ok ws ctx') :
    Appends b ((casts ctx vs ts).map (Value.bitcast b)) [] ctx ctx' ∧ Passes ctx ctx.values.size ts vs ws := by
  refine ⟨?_, passes_coerceEach (fun v hv => ⟨hvs v hv, rfl⟩) h⟩
  rcases coerceEach_ok hvs h with ⟨hnone, rfl⟩ | ⟨d, hd, rfl⟩
  · rw [hnone]
    exact .nothing b _
  · obtain ⟨rfl, hb⟩ := hat d hd
    exact .casts hb _

/-- What a call writes once its arguments are known. -/
theorem coerced_written {b : BlockId} {f : FunctionId} {vs ws : List ValueId} {v : ValueId} {ctx ctx₁ ctx' : Context}
    (hb : ctx.HasBlock b) (hvs : ∀ v ∈ vs, ctx.HasValue v)
    (hws : Step.coerceEach (some b) vs (ctx.function f).params ctx = .ok ws ctx₁)
    (hr : Emitter.call (some b) f ws ctx₁ = .ok v ctx') :
    v = ⟨ctx.values.size + (casts ctx vs (ctx.function f).params).length⟩ ∧
      Passes ctx ctx.values.size (ctx.function f).params vs ws ∧
      Appends b ((casts ctx vs (ctx.function f).params).map (Value.bitcast b) ++
        [⟨(ctx.function f).result, none, .instruction (.call f ws) b⟩]) [] ctx ctx' := by
  have hat : ∀ d ∈ some b, d = b ∧ ctx.HasBlock d := fun d hd => by
    cases hd
    exact ⟨rfl, hb⟩
  obtain ⟨happ, hpass⟩ := coerceEach_passes hat hvs hws
  obtain ⟨_, _, _, hd, _, rfl, rfl⟩ := Emitter.call_ok hr
  cases hd
  have hf : ctx₁.function f = ctx.function f := by rw [Context.function, happ.functions]; rfl
  have reached := (Proceeds.coerceEach (fun d hd => (hat d hd).2) hvs).of_ok hws
  rw [hf]
  exact ⟨by simp [happ.size], hpass, happ.trans (.instruction (reached.1.keeps.hasBlock hb) _ _ _)⟩

namespace Step

theorem coerceEach_apart (at? : Option BlockId) (vs : List ValueId) (ts : List Ty) (ctx : Context) :
    Yields (coerceEach at? vs ts ctx) (fun _ _ => True) fun err => err.aboutArguments = false := by
  induction vs generalizing ts ctx with
  | nil => trivial
  | cons v vs ih =>
    cases ts with
    | nil => trivial
    | cons t ts =>
      have first : Yields (coerce at? v t ctx) (fun _ _ => True) fun err => err.aboutArguments = false := by
        unfold coerce
        split
        · trivial
        · rw [Emitter.cast, get_bind, ite_run]
          split
          · split
            · trivial
            · exact Emitter.append_apart at? _ t none ctx
          · exact rfl
      rw [coerceEach_cons]
      exact first.bind fun w ctx₁ _ => (ih ts ctx₁).bind fun _ _ _ => trivial

theorem resolve_apart (o : Operand) (m : Machine) :
    Yields (resolve o m) (fun _ _ => True) fun e => e.aboutArguments = false := by
  cases o with
  | stack =>
    change Yields (pop m) _ _
    rw [pop_run]
    cases m.builder.stack <;> trivial
  | value v => trivial
  | var name =>
    simp only [resolve]
    cases m.builder.var? name <;> trivial
  | arg index =>
    simp only [resolve]
    cases m.builder.activeFunction? with
    | none => exact rfl
    | some f =>
      dsimp only
      cases (m.context.function f).args[index]? <;> trivial

theorem resolveAll_apart (os : List Operand) (m : Machine) :
    Yields (resolveAll os m) (fun _ _ => True) fun e => e.aboutArguments = false := by
  induction os with
  | nil => trivial
  | cons o os ih => exact ih.bind fun vs m₁ _ => (resolve_apart o m₁).bind fun _ _ _ => trivial

theorem resolveCallee_apart (c : Callee) (m : Machine) :
    Yields (resolveCallee c m) (fun f m' => m.callee? c = some f ∧ m' = m) fun e =>
      m.callee? c = none ∧ e.aboutArguments = false := by
  cases c with
  | function f => exact ⟨rfl, rfl⟩
  | named name =>
    simp only [resolveCallee, Machine.callee?]
    cases m.builder.module with
    | none => exact ⟨rfl, rfl⟩
    | some k =>
      cases hf : m.context.findFunction? k name with
      | none => simp [Yields, hf, BuildError.aboutArguments]
      | some f => simp [Yields, hf]

/-- The emitter finds no fault with the arguments that it gets. -/
theorem coerced_apart {f : FunctionId} {vs : List ValueId} {at? : Option BlockId} {ctx : Context}
    (hat : ∀ b ∈ at?, ctx.HasBlock b) (hvs : ∀ v ∈ vs, ctx.HasValue v)
    (ha : Emitter.accepts (ctx.function f) vs.length) :
    Yields ((coerceEach at? vs (ctx.function f).params >>= Emitter.call at? f) ctx) (fun _ _ => True)
      fun err => err.aboutArguments = false := by
  rw [bind_run]
  cases hws : coerceEach at? vs (ctx.function f).params ctx with
  | error err ctx₁ => exact (coerceEach_apart at? vs _ ctx).of_error hws
  | ok ws ctx₁ =>
    dsimp only
    have hat' : ∀ d ∈ at?, d = at?.getD ⟨0⟩ ∧ ctx.HasBlock d := by
      intro d hd
      have hsome : at? = some d := hd
      exact ⟨by rw [hsome]; rfl, hat d hd⟩
    obtain ⟨happ, hpass⟩ := coerceEach_passes hat' hvs hws
    have hf : ctx₁.function f = ctx.function f := by rw [Context.function, happ.functions]; rfl
    rw [Emitter.call, get_bind, hf, hpass.length, if_pos ha, bind_of_ok (Emitter.expectEach_ok (hpass.typed hvs happ))]
    exact Emitter.append_apart at? _ _ none ctx₁

end Step

/-- A call is refused for the number of its arguments before anything else happens, or not at all for its
arguments. -/
theorem Machine.Sound.call_cases {m : Machine} (hs : m.Sound) (callee : Callee) {args : List Operand}
    (hargs : ∀ o ∈ args, o.Known m.context) :
    (∃ f, m.callee? callee = some f ∧ Emitter.accepts (m.context.function f) args.length = false ∧
      Step.call callee args m = .error (.argumentCount (m.context.function f).name
        (m.context.function f).params.length args.length) m) ∨
    (∀ f, m.callee? callee = some f → Emitter.accepts (m.context.function f) args.length = true) ∧
      Yields (Step.call callee args m) (fun _ _ => True) fun e => e.aboutArguments = false := by
  have callee_apart := Step.resolveCallee_apart callee m
  rw [Step.call, bind_run]
  cases hr : Step.resolveCallee callee m with
  | error e m₁ =>
    obtain ⟨hnone, he⟩ := callee_apart.of_error hr
    refine Or.inr ⟨fun f hf => ?_, he⟩
    rw [hnone] at hf
    cases hf
  | ok f m₁ =>
    obtain ⟨hf, hm⟩ := callee_apart.of_ok hr
    dsimp only
    rw [hm, get_bind, ite_run]
    cases ha : Emitter.accepts (m.context.function f) args.length with
    | false => exact Or.inl ⟨f, hf, ha, rfl⟩
    | true =>
      refine Or.inr ⟨fun g hg => ?_, ?_⟩
      · rw [hf] at hg
        cases hg
        exact ha
      · rw [if_pos rfl, bind_run]
        cases hvs : Step.resolveAll args m with
        | error e m₂ => exact (Step.resolveAll_apart args m).of_error hvs
        | ok vs m₂ =>
          obtain ⟨hvs, _, hm₂⟩ := (Step.resolveAll_ends args m).of_ok hvs
          have hat : ∀ b ∈ m.builder.position, m.context.HasBlock b := fun b hb =>
            hs.known.blocks b (List.mem_append_left _ (Option.mem_toList.mpr hb))
          rw [← Machine.length_denoteAll hvs] at ha
          have emitted := Step.coerced_apart hat (hs.denoteAll hargs hvs).values ha
          rw [hm₂]
          exact Step.emit_yields emitted

/-- A call is refused for its number of arguments exactly when the callee is found and takes another number, and then
nothing has happened. One that succeeds writes a cast for each argument of another type than its parameter, in the
order of the arguments, and then itself, with the casts in place of the arguments, and leaves its value on the stack.
The emitter never finds fault with the number or the types of the arguments. -/
theorem Reachable.coerces {m : Machine} (hm : Reachable m) {callee : Callee} {args : List Operand}
    (hk : m.context.Knows (Action.call callee args).handles) :
    (∀ name expected found m', (Action.call callee args).execute m = .error (.argumentCount name expected found) m' ↔
      ∃ f, m.callee? callee = some f ∧
        (args.length < (m.context.function f).params.length ∨
          (m.context.function f).params.length < args.length ∧ (m.context.function f).variadic = false) ∧
        name = (m.context.function f).name ∧ expected = (m.context.function f).params.length ∧
        found = args.length ∧ m' = m) ∧
    (∀ m', (Action.call callee args).execute m = .ok () m' → ∃ f vs ws b, m.callee? callee = some f ∧
      m.denoteAll args = some vs ∧ m.builder.position = some b ∧
      Passes m.context m.context.values.size (m.context.function f).params vs ws ∧
      Appends b ((casts m.context vs (m.context.function f).params).map (Value.bitcast b) ++
        [⟨(m.context.function f).result, none, .instruction (.call f ws) b⟩]) [] m.context m'.context ∧
      m'.builder = { m.builder with
        stack := ⟨m.context.values.size + (casts m.context vs (m.context.function f).params).length⟩ ::
          (m.taken (args.count .stack)).builder.stack }) ∧
    ∀ err m', (Action.call callee args).execute m = .error (.ir err) m' → err.aboutArguments = false := by
  obtain ⟨layout, hl⟩ := hm.leads
  have hs := hl.sound
  have hargs : ∀ o ∈ args, o.Known m.context := fun o ho => Action.known_operand hk ho
  have outcome := hs.call_cases callee hargs
  -- What the call fails for, the action fails for, as it does no more than push the value.
  have failing {e : BuildError} {m' : Machine} :
      (Action.call callee args).execute m = .error e m' ↔ Step.call callee args m = .error e m' := by
    refine ⟨fun h => ?_, fun h => bind_of_error h _⟩
    rcases bind_error h with h | ⟨v, m₁, _, h⟩
    · exact h
    · cases h
  refine ⟨fun name expected found m' => ?_, fun m' h => ?_, fun err m' h => ?_⟩
  · rw [failing]
    rcases outcome with ⟨f, hf, ha, hr⟩ | ⟨hacc, hr⟩
    · rw [hr]
      constructor
      · intro h
        cases h
        exact ⟨f, hf, (Emitter.accepts_eq_false_iff _ _).mp ha, rfl, rfl, rfl, rfl⟩
      · rintro ⟨g, hg, _, rfl, rfl, rfl, rfl⟩
        rw [hf] at hg
        cases hg
        rfl
    · constructor
      · intro h
        exact absurd (hr.of_error h) (by simp [BuildError.aboutArguments])
      · rintro ⟨g, hg, hcount, _⟩
        have refused := (Emitter.accepts_eq_false_iff _ _).mpr hcount
        rw [hacc g hg] at refused
        cases refused
  · obtain ⟨_, vs, r, m₁, hvs, he, rfl⟩ := ((Action.call callee args).execute_ends m).of_ok h
    cases he with
    | emitted he => cases he
    | @call _ _ f _ ws v ctx ctx' hf hws hr =>
      have hf : m.callee? callee = some f := by cases callee <;> exact hf
      obtain ⟨_, _, b, hb, _⟩ := Emitter.call_ok hr
      have hin : m.context.HasBlock b := hs.known.blocks b (List.mem_append_left _ (Option.mem_toList.mpr hb))
      rw [hb] at hws hr
      obtain ⟨rfl, hpass, happ⟩ := coerced_written hin (hs.denoteAll hargs hvs).values hws hr
      exact ⟨f, vs, ws, b, hf, hvs, hb, hpass, happ, rfl⟩
  · rcases outcome with ⟨f, _, _, hr⟩ | ⟨_, hr⟩
    · rw [failing, hr] at h
      cases h
    · exact hr.of_error (failing.mp h)

/-- A function that is to call a variadic one with its arguments, two of which are on the stack as well. -/
def Command.variadic : List Command :=
  let bytes : Ty := .pointer (.int 8) 0
  let words : Ty := .pointer (.int 32) 0
  [.request (.addModule "m"), .request (.intern .void), .request (.intern (.int 8)), .request (.intern (.int 32)),
    .request (.intern bytes), .request (.intern words),
    .request (.intern (.function .void [bytes, words, bytes] true)),
    .request (.addFunction ⟨0⟩ "use" (.function .void [bytes, words, bytes] true) .external),
    .perform (.useModule ⟨0⟩), .perform (.createFunction ⟨"main", .void, [words, .int 32], false⟩),
    .perform (.createBlock "entry"), .perform (.push (.arg 0)), .perform (.push (.arg 1))]

def Machine.variadic : Machine := Machine.runAll {} Command.variadic

/-- The call is refused while it has too few arguments, before one of them is looked up. With enough of them, the
same value is cast for the first and the third parameter, and the call gets each cast in its own place. -/
theorem Reachable.coerces_variadic :
    (Action.call (.named "use") [.var "x"]).execute Machine.variadic =
        .error (.argumentCount "use" 3 1) Machine.variadic ∧
      ∃ ws b, Passes Machine.variadic.context 7 [.pointer (.int 8) 0, .pointer (.int 32) 0, .pointer (.int 8) 0]
          [⟨5⟩, ⟨5⟩, ⟨5⟩, ⟨6⟩] ws ∧
        Appends b ([(⟨5⟩, .pointer (.int 8) 0), (⟨5⟩, .pointer (.int 8) 0)].map (Value.bitcast b) ++
            [⟨.void, none, .instruction (.call ⟨0⟩ ws) b⟩]) [] Machine.variadic.context
          (after (Action.call (.named "use") [.arg 0, .stack, .arg 0, .stack]).execute Machine.variadic).context ∧
        (after (Action.call (.named "use") [.arg 0, .stack, .arg 0, .stack]).execute
          Machine.variadic).builder.stack = [⟨9⟩, ⟨4⟩] := by
  have hm : Reachable Machine.variadic := ⟨{}, .of_permits Command.variadic (by decide +kernel)⟩
  have hf : Machine.variadic.callee? (.named "use") = some ⟨0⟩ := by decide +kernel
  constructor
  · refine ((hm.coerces (by decide +kernel)).1 "use" 3 1 Machine.variadic).mpr ⟨⟨0⟩, hf, ?_, ?_, ?_, rfl, rfl⟩
    · exact Or.inl (by decide +kernel)
    · decide +kernel
    · decide +kernel
  · have hr : (Action.call (.named "use") [.arg 0, .stack, .arg 0, .stack]).execute Machine.variadic = .ok () _ :=
      eq_ok_of_failure? (by decide +kernel)
    obtain ⟨f, vs, ws, b, hf', hvs', _, hpass, happ, hstack⟩ := (hm.coerces (by decide +kernel)).2.1 _ hr
    rw [hf] at hf'
    cases hf'
    have hvs : Machine.variadic.denoteAll [.arg 0, .stack, .arg 0, .stack] = some [⟨5⟩, ⟨5⟩, ⟨5⟩, ⟨6⟩] := by
      decide +kernel
    rw [hvs] at hvs'
    cases hvs'
    have params : (Machine.variadic.context.function ⟨0⟩).params =
        [.pointer (.int 8) 0, .pointer (.int 32) 0, .pointer (.int 8) 0] := by decide +kernel
    have result : (Machine.variadic.context.function ⟨0⟩).result = .void := by decide +kernel
    have size : Machine.variadic.context.values.size = 7 := by decide +kernel
    have needed : casts Machine.variadic.context [⟨5⟩, ⟨5⟩, ⟨5⟩, ⟨6⟩]
        [.pointer (.int 8) 0, .pointer (.int 32) 0, .pointer (.int 8) 0] =
        [(⟨5⟩, .pointer (.int 8) 0), (⟨5⟩, .pointer (.int 8) 0)] := by decide +kernel
    rw [params, size] at hpass
    rw [params, needed, result] at happ
    exact ⟨ws, b, hpass, happ, by decide +kernel⟩

end StackAssembler.Build
