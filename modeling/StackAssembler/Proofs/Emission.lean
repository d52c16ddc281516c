import StackAssembler.Proofs.StateError
import StackAssembler.Proofs.WellTyped

/-! Calls of the emitter, and all that can come of them. -/
namespace StackAssembler.IR

/-- A call of the emitter. -/
inductive Emission where
  | alloca (t : Ty) (name : Option String)
  | load (t : Ty) (pointer : ValueId)
  | store (value pointer : ValueId)
  | binary (op : BinaryOp) (lhs rhs : ValueId)
  | icmp (pred : Predicate) (lhs rhs : ValueId)
  | fcmp (pred : Predicate) (lhs rhs : ValueId)
  | compare (pred : Predicate) (lhs rhs : ValueId)
  | cast (op : CastOp) (v : ValueId) (target : Ty)
  | zextOrTrunc (v : ValueId) (target : Ty)
  | fptoui (v : ValueId) (target : Ty)
  | phi (incoming : List (ValueId × BlockId))
  | br (dest : BlockId)
  | condBr (cond : ValueId) (onTrue onFalse : BlockId)
  | call (callee : FunctionId) (args : List ValueId)
  | ret (v : ValueId)
  | retVoid
  deriving DecidableEq, Repr

namespace Emission

def run (at? : Option BlockId) : Emission → Edit ValueId
  | alloca t name => Emitter.alloca at? t name
  | load t p => Emitter.load at? t p
  | store v p => Emitter.store at? v p
  | binary op l r => Emitter.binary at? op l r
  | icmp pred l r => Emitter.icmp at? pred l r
  | fcmp pred l r => Emitter.fcmp at? pred l r
  | compare pred l r => Emitter.compare at? pred l r
  | cast op v t => Emitter.cast at? op v t
  | zextOrTrunc v t => Emitter.zextOrTrunc at? v t
  | fptoui v t => Emitter.fptoui at? v t
  | phi incoming => Emitter.phi at? incoming
  | br d => Emitter.br at? d
  | condBr c t f => Emitter.condBr at? c t f
  | call f args => Emitter.call at? f args
  | ret v => Emitter.ret at? v
  | retVoid => Emitter.retVoid at?

def handles : Emission → Handles
  | alloca t _ => { types := [t] }
  | load t p => { types := [t], values := [p] }
  | store v p => { values := [v, p] }
  | binary _ l r | icmp _ l r | fcmp _ l r | compare _ l r => { values := [l, r] }
  | cast _ v t | zextOrTrunc v t | fptoui v t => { types := [t], values := [v] }
  | phi incoming => { values := incoming.map Prod.fst, blocks := incoming.map Prod.snd }
  | br d => { blocks := [d] }
  | condBr c t f => { values := [c], blocks := [t, f] }
  | call f args => { values := args, functions := [f] }
  | ret v => { values := [v] }
  | retVoid => {}

/-- The types that a call may enter into the table, also when it is refused in the end. -/
def types : Emission → List Ty
  | alloca t _ => [.pointer t 0]
  | icmp .. | fcmp .. | compare .. => [.int 1]
  | condBr .. => [.int 1, .void]
  | store .. | br _ | ret _ | retVoid => [.void]
  | _ => []

/-- Whether a call may answer without writing an instruction. -/
def folds : Emission → Bool
  | binary .. | icmp .. | compare .. | cast .. | zextOrTrunc .. | fptoui .. => true
  | _ => false

theorem types_known {ctx : Context} {e : Emission} (h : ctx.Knows e.handles) {t c : Ty} (ht : t ∈ e.types)
    (hc : c ∈ t.components) : ctx.HasType c := by
  cases e with
  | alloca a _ =>
    simp only [types, List.mem_singleton] at ht
    subst ht
    exact h.types c (by simpa [handles, Ty.components] using hc)
  | condBr =>
    simp only [types, List.mem_cons, List.not_mem_nil, or_false] at ht
    rcases ht with rfl | rfl <;> simp [Ty.components] at hc
  | _ => simp_all [types, Ty.components]

end Emission

namespace Context

/-- Enter types into the table one after another. -/
def internAll (ctx : Context) (ts : List Ty) : Context := ts.foldl intern ctx

theorem internAll_eq (ctx : Context) (ts : List Ty) :
    ctx.internAll ts = { ctx with types := (ctx.internAll ts).types } := by
  induction ts generalizing ctx with
  | nil => rfl
  | cons t ts ih =>
    change (ctx.intern t).internAll ts = _
    rw [ih]
    simp only [internAll, List.foldl_cons]
    unfold intern
    split <;> rfl

theorem internAll_concat (ctx : Context) (ts : List Ty) (t : Ty) :
    ctx.internAll (ts ++ [t]) = (ctx.internAll ts).intern t := by
  simp [internAll]

theorem types_prefix_internAll (ctx : Context) (ts : List Ty) :
    ctx.types.toList <+: (ctx.internAll ts).types.toList := by
  induction ts generalizing ctx with
  | nil => exact List.prefix_rfl
  | cons t ts ih =>
    refine List.IsPrefix.trans ?_ (ih (ctx.intern t))
    unfold intern
    split
    · exact List.prefix_rfl
    · simp

@[simp] theorem typeOf_internAll (ctx : Context) (ts : List Ty) : (ctx.internAll ts).typeOf = ctx.typeOf := by
  rw [internAll_eq]; rfl

@[simp] theorem terminator?_internAll (ctx : Context) (ts : List Ty) :
    (ctx.internAll ts).terminator? = ctx.terminator? := by
  rw [internAll_eq]; rfl

end Context

/-- All that can come of a call of the emitter at a position. Types may have been entered into the table in
any case; beyond that a refused call changes nothing. -/
inductive Outcome (at? : Option BlockId) (e : Emission) (ctx : Context) :
    EStateM.Result IrError Context ValueId → Prop where
  | refused {err : IrError} (ts : List Ty) : (∀ t ∈ ts, t ∈ e.types) →
      Outcome at? e ctx (.error err (ctx.internAll ts))
  | written {b : BlockId} {op : Operation} {t : Ty} {name : Option String} {ts : List Ty} : at? = some b →
      ctx.terminator? b = none → (∀ t ∈ ts, t ∈ e.types) → op.handles = { e.handles with types := [] } →
      WellTyped ctx b op t →
      Outcome at? e ctx (.ok ⟨ctx.values.size⟩ ((ctx.internAll ts).addInstruction b op t name).2)
  | operand {v : ValueId} : e.folds → v ∈ e.handles.values → Outcome at? e ctx (.ok v ctx)
  | folded {width : Nat} {n : Int} (ts : List Ty) : e.folds → (∀ t ∈ ts, t ∈ e.types) →
      Outcome at? e ctx (.ok ((ctx.internAll ts).constant (.int width) (.int (Word.truncate width n))).1
        ((ctx.internAll ts).constant (.int width) (.int (Word.truncate width n))).2)

/-- Calls with the same handles and types can come to the same. -/
theorem Outcome.of_like {at? : Option BlockId} {e e' : Emission} {ctx : Context}
    {r : EStateM.Result IrError Context ValueId} (h : Outcome at? e ctx r)
    (hh : { e.handles with types := [] } = ({ e'.handles with types := [] } : Handles)) (ht : e.types = e'.types)
    (hf : e.folds → e'.folds) : Outcome at? e' ctx r := by
  cases h with
  | refused ts hts => exact .refused ts (by rwa [← ht])
  | written ha ho hts hop hw => exact .written ha ho (by rwa [← ht]) (hop.trans hh) hw
  | operand he hv =>
    have := congrArg Handles.values hh
    exact .operand (hf he) (this ▸ hv)
  | folded ts he hts => exact .folded ts (hf he) (by rwa [← ht])

namespace Emitter
variable {at? : Option BlockId} {e : Emission} {ctx : Context}

/-! ### What the parts of a call come to -/

theorem expect_run (v : ValueId) (t : Ty) (ctx : Context) :
    expect v t ctx = if ctx.typeOf v = t then .ok () ctx
      else .error (.typeMismatch (.exactly t) (ctx.typeOf v)) ctx := by
  simp only [expect, bind_run, get_run]
  split <;> rfl

theorem expect_bind {α : Type} (v : ValueId) (t : Ty) (f : Unit → Edit α) (ctx : Context) :
    (expect v t >>= f) ctx = if ctx.typeOf v = t then f () ctx
      else .error (.typeMismatch (.exactly t) (ctx.typeOf v)) ctx := by
  rw [bind_run, expect_run]
  by_cases h : ctx.typeOf v = t <;> simp [h]

theorem intern_bind {α : Type} (t : Ty) (f : Unit → Edit α) (ctx : Context) :
    (Edit.intern t >>= f) ctx = f () (ctx.intern t) :=
  rfl

theorem openBlock_at (b : BlockId) (ctx : Context) :
    openBlock (some b) ctx = if (ctx.terminator? b).isSome then .error (.blockTerminated (ctx.blockLabel b)) ctx
      else .ok b ctx := by
  rw [openBlock, get_bind, ite_run]
  rfl

theorem openBlock_run (at? : Option BlockId) (ctx : Context) :
    (∃ b, at? = some b ∧ ctx.terminator? b = none ∧ openBlock at? ctx = .ok b ctx) ∨
      ∃ err, openBlock at? ctx = .error err ctx := by
  cases at? with
  | none => exact Or.inr ⟨_, rfl⟩
  | some b =>
    rw [openBlock_at]
    cases ho : ctx.terminator? b with
    | some v => exact Or.inr ⟨_, rfl⟩
    | none => exact Or.inl ⟨b, rfl, ho, rfl⟩

theorem append_ok {op : Operation} {t : Ty} {name : Option String} {v : ValueId} {ctx' : Context}
    (h : append at? op t name ctx = .ok v ctx') :
    ∃ b, at? = some b ∧ ctx.terminator? b = none ∧ v = ⟨ctx.values.size⟩ ∧
      ctx' = (ctx.addInstruction b op t name).2 := by
  rw [append] at h
  rcases openBlock_run at? ctx with ⟨b, hb, ho, hr⟩ | ⟨err, hr⟩
  · rw [bind_of_ok hr] at h
    cases h
    exact ⟨b, hb, ho, rfl, rfl⟩
  · rw [bind_of_error hr] at h
    cases h

theorem append_open {b : BlockId} {op : Operation} {t : Ty} {name : Option String}
    (h : (ctx.terminator? b).isSome = false) :
    append (some b) op t name ctx = .ok ⟨ctx.values.size⟩ (ctx.addInstruction b op t name).2 := by
  rw [append, bind_run, openBlock_at, h]
  rfl

private theorem append_outcome {op : Operation} {t : Ty} {name : Option String} (ts : List Ty)
    (hts : ∀ t ∈ ts, t ∈ e.types) (hh : op.handles = { e.handles with types := [] })
    (hw : ∀ b, at? = some b → WellTyped ctx b op t) :
    Outcome at? e ctx (append at? op t name (ctx.internAll ts)) := by
  rw [append]
  rcases openBlock_run at? (ctx.internAll ts) with ⟨b, rfl, ho, h⟩ | ⟨err, h⟩
  · rw [bind_of_ok h]
    rw [Context.terminator?_internAll] at ho
    have hn : ctx.values.size = (ctx.internAll ts).values.size := by rw [Context.internAll_eq]
    change Outcome _ e ctx (.ok ⟨(ctx.internAll ts).values.size⟩ ((ctx.internAll ts).addInstruction b op t name).2)
    rw [← hn]
    exact .written rfl ho hts hh (hw b rfl)
  · rw [bind_of_error h]
    exact .refused ts hts

private theorem appendVoid_outcome {op : Operation} (ts : List Ty) (hts : ∀ t ∈ ts, t ∈ e.types)
    (hv : .void ∈ e.types) (hh : op.handles = { e.handles with types := [] })
    (hw : ∀ b, at? = some b → WellTyped ctx b op .void) :
    Outcome at? e ctx (appendVoid at? op (ctx.internAll ts)) := by
  have h : Outcome at? e ctx (append at? op .void none (ctx.internAll (ts ++ [.void]))) :=
    append_outcome (ts ++ [.void]) (by simpa [or_imp, forall_and] using ⟨hts, hv⟩) hh hw
  rwa [Context.internAll_concat] at h

theorem integerOf_run (t : Ty) (n : Int) (ctx : Context) :
    Edit.integerOf t n ctx = match t with
      | .int width =>
        .ok (ctx.constant (.int width) (.int (Word.truncate width n))).1
          (ctx.constant (.int width) (.int (Word.truncate width n))).2
      | t => .error (.typeMismatch .anInteger t) ctx := by
  cases t <;> rfl

/-- A bit-cast between different types writes one instruction. -/
theorem bitcast_ok {v w : ValueId} {t : Ty} {ctx' : Context} (hne : ctx.typeOf v ≠ t)
    (h : cast at? .bitcast v t ctx = .ok w ctx') :
    isLegal ctx.layout .bitcast (ctx.typeOf v) t ∧ ∃ b, at? = some b ∧ ctx.terminator? b = none ∧
      w = ⟨ctx.values.size⟩ ∧ ctx' = (ctx.addInstruction b (.cast .bitcast v) t none).2 := by
  rw [cast, get_bind, ite_run] at h
  split at h
  · next hl =>
    rw [if_neg fun hc => hne hc.2] at h
    exact ⟨hl, append_ok h⟩
  · cases h

theorem bitcast_open {v : ValueId} {t : Ty} {b : BlockId} (hne : ctx.typeOf v ≠ t)
    (hl : isLegal ctx.layout .bitcast (ctx.typeOf v) t) (ho : (ctx.terminator? b).isSome = false) :
    cast (some b) .bitcast v t ctx =
      .ok ⟨ctx.values.size⟩ (ctx.addInstruction b (.cast .bitcast v) t none).2 := by
  rw [cast, get_bind, if_pos hl, if_neg fun hc => hne hc.2]
  exact append_open ho

/-! ### What each call comes to -/

private theorem alloca_outcome (t : Ty) (name : Option String) :
    Outcome at? (.alloca t name) ctx (alloca at? t name ctx) := by
  simp only [alloca, bind_run, get_run]
  cases hs : t.allocSize? ctx.layout with
  | none => exact .refused [] (by simp)
  | some n =>
    exact append_outcome [.pointer t 0] (by simp [Emission.types]) rfl fun b _ => .alloca (by simp [hs])

private theorem load_outcome (t : Ty) (p : ValueId) : Outcome at? (.load t p) ctx (load at? t p ctx) := by
  simp only [load, bind_run, get_run]
  cases hp : ctx.typeOf p with
  | pointer q space =>
    simp only [Ty.pointee?]
    split
    · subst q
      exact append_outcome [] (by simp) rfl fun b _ => .load hp
    · exact .refused [] (by simp)
  | _ => exact .refused [] (by simp)

private theorem store_outcome (v p : ValueId) : Outcome at? (.store v p) ctx (store at? v p ctx) := by
  simp only [store, bind_run, get_run]
  cases hp : ctx.typeOf p with
  | pointer q space =>
    simp only [Ty.pointee?, expect_bind]
    split
    · next hv =>
      subst hv
      exact appendVoid_outcome [] (by simp) (by simp [Emission.types]) rfl fun b _ => .store hp
    · exact .refused [] (by simp)
  | _ => exact .refused [] (by simp)

private theorem binary_outcome (op : BinaryOp) (l r : ValueId) :
    Outcome at? (.binary op l r) ctx (binary at? op l r ctx) := by
  simp only [binary, get_bind, expect_bind]
  split
  · next hr =>
    rw [ite_run]
    by_cases hop : (if op.isFloat then (ctx.typeOf l).isFloat else (ctx.typeOf l).isInteger) = true
    · rw [if_pos hop, get_bind]
      cases hf : foldBinary? ctx op l r with
      | some n =>
        simp only [integerOf_run]
        split
        · exact .folded [] rfl (by simp)
        · exact .refused [] (by simp)
      | none =>
        refine append_outcome [] (by simp) rfl fun b _ => ?_
        generalize ht : ctx.typeOf l = t at hr hop
        cases hfl : op.isFloat with
        | true =>
          rw [hfl] at hop
          cases t <;> cases hop
          exact .floatBinary hfl ht hr
        | false =>
          rw [hfl] at hop
          cases t <;> cases hop
          exact .intBinary hfl ht hr
    · rw [if_neg hop]
      exact .refused [] (by simp)
  · exact .refused [] (by simp)

private theorem icmp_outcome (pred : Predicate) (l r : ValueId) :
    Outcome at? (.icmp pred l r) ctx (icmp at? pred l r ctx) := by
  cases pred with
  | float p => exact .refused [] (by simp)
  | int p =>
    simp only [icmp, get_bind, expect_bind, ite_run]
    split
    · next hr =>
      split
      · next hl =>
        cases hf : foldCompare? ctx p l r with
        | some c => exact .folded [.int 1] rfl (by simp [Emission.types])
        | none =>
          refine append_outcome [.int 1] (by simp [Emission.types]) rfl fun b _ => ?_
          exact .icmp (by simpa using hl) hr
      · exact .refused [] (by simp)
    · exact .refused [] (by simp)

private theorem fcmp_outcome (pred : Predicate) (l r : ValueId) :
    Outcome at? (.fcmp pred l r) ctx (fcmp at? pred l r ctx) := by
  cases pred with
  | int p => exact .refused [] (by simp)
  | float p =>
    simp only [fcmp, get_bind, expect_bind, ite_run]
    split
    · next hr =>
      split
      · next hl => exact append_outcome [.int 1] (by simp [Emission.types]) rfl fun b _ => .fcmp hl hr
      · exact .refused [] (by simp)
    · exact .refused [] (by simp)

private theorem compare_outcome (pred : Predicate) (l r : ValueId) :
    Outcome at? (.compare pred l r) ctx (compare at? pred l r ctx) := by
  have hi : Outcome at? (.icmp pred l r) ctx (icmp at? pred l r ctx) := icmp_outcome pred l r
  have hf : Outcome at? (.fcmp pred l r) ctx (fcmp at? pred l r ctx) := fcmp_outcome pred l r
  simp only [compare]
  split
  · exact hf.of_like rfl rfl (by simp [Emission.folds])
  · exact hi.of_like rfl rfl (by simp [Emission.folds])

private theorem cast_outcome (op : CastOp) (v : ValueId) (t : Ty) :
    Outcome at? (.cast op v t) ctx (cast at? op v t ctx) := by
  simp only [cast, get_bind, ite_run]
  split
  · next hl =>
    have hc := isLegal_iff.mp hl
    split
    · exact .operand rfl (by simp [Emission.handles])
    · next hne =>
      cases hf : foldCast? ctx op v with
      | some payload =>
        simp only [integerOf_run]
        split
        · exact .folded [] rfl (by simp)
        · exact .refused [] (by simp)
      | none =>
        exact append_outcome [] (by simp) rfl fun b _ => .cast hc fun ho he => hne ⟨ho, he⟩
  · exact .refused [] (by simp)

private theorem zextOrTrunc_outcome (v : ValueId) (t : Ty) :
    Outcome at? (.zextOrTrunc v t) ctx (zextOrTrunc at? v t ctx) := by
  simp only [zextOrTrunc, get_bind, ite_run]
  split
  · exact .operand rfl (by simp [Emission.handles])
  · cases ctx.typeOf v <;> cases t
    case int.int a b => exact (cast_outcome _ v _).of_like rfl rfl (by simp [Emission.folds])
    all_goals exact .refused [] (by simp)

private theorem fptoui_outcome (v : ValueId) (t : Ty) : Outcome at? (.fptoui v t) ctx (fptoui at? v t ctx) := by
  simp only [fptoui, get_bind, ite_run]
  split
  · exact .operand rfl (by simp [Emission.handles])
  · exact (cast_outcome _ v t).of_like rfl rfl (by simp [Emission.folds])

theorem expectAll_run (t : Ty) (vs : List ValueId) (ctx : Context) :
    (expectAll t vs ctx = .ok () ctx ∧ ∀ v ∈ vs, ctx.typeOf v = t) ∨ ∃ err, expectAll t vs ctx = .error err ctx := by
  induction vs with
  | nil => exact Or.inl ⟨rfl, by simp⟩
  | cons v vs ih =>
    rw [expectAll, expect_bind]
    split
    · next hv =>
      rcases ih with ⟨h, hvs⟩ | ⟨err, h⟩
      · exact Or.inl ⟨h, by simpa using ⟨hv, hvs⟩⟩
      · exact Or.inr ⟨err, h⟩
    · exact Or.inr ⟨_, rfl⟩

theorem expectEach_run (vs : List ValueId) (ts : List Ty) (ctx : Context) :
    (expectEach vs ts ctx = .ok () ctx ∧ ∀ p ∈ vs.zip ts, ctx.typeOf p.1 = p.2) ∨
      ∃ err, expectEach vs ts ctx = .error err ctx := by
  induction vs generalizing ts with
  | nil => exact Or.inl ⟨rfl, by simp⟩
  | cons v vs ih =>
    cases ts with
    | nil => exact Or.inl ⟨rfl, by simp⟩
    | cons t ts =>
      rw [expectEach, expect_bind]
      split
      · next hv =>
        rcases ih ts with ⟨h, hvs⟩ | ⟨err, h⟩
        · exact Or.inl ⟨h, by rw [List.zip_cons_cons, List.forall_mem_cons]; exact ⟨hv, hvs⟩⟩
        · exact Or.inr ⟨err, h⟩
      · exact Or.inr ⟨_, rfl⟩

private theorem phi_outcome (incoming : List (ValueId × BlockId)) :
    Outcome at? (.phi incoming) ctx (phi at? incoming ctx) := by
  cases incoming with
  | nil => exact .refused [] (by simp)
  | cons first rest =>
    rw [phi, get_bind]
    rcases expectAll_run (ctx.typeOf first.1) ((first :: rest).map Prod.fst) ctx with ⟨h, hvs⟩ | ⟨err, h⟩
    · rw [bind_of_ok h]
      refine append_outcome [] (by simp) rfl fun b _ => .phi (by simp) fun e he => ?_
      exact hvs e.1 (List.mem_map_of_mem he)
    · rw [bind_of_error h]
      exact .refused [] (by simp)

private theorem br_outcome (d : BlockId) : Outcome at? (.br d) ctx (br at? d ctx) :=
  appendVoid_outcome [] (by simp) (by simp [Emission.types]) rfl fun _ _ => .br

private theorem condBr_outcome (c : ValueId) (t f : BlockId) :
    Outcome at? (.condBr c t f) ctx (condBr at? c t f ctx) := by
  rw [condBr, intern_bind, expect_bind]
  change Outcome at? _ ctx (if (ctx.internAll [.int 1]).typeOf c = _ then _ else _)
  split
  · next hc =>
    rw [Context.typeOf_internAll] at hc
    exact appendVoid_outcome [.int 1] (by simp [Emission.types]) (by simp [Emission.types]) rfl
      fun _ _ => .condBr hc
  · exact .refused [.int 1] (by simp [Emission.types])

theorem accepts_iff (f : Function) (n : Nat) :
    accepts f n = true ↔ f.params.length ≤ n ∧ (n = f.params.length ∨ f.variadic) := by
  unfold accepts
  split <;> simp_all

/-- Values that agree in order with as many types, and the types of the values left over. -/
private theorem types_of_zip {type : ValueId → Ty} {vs : List ValueId} {ts : List Ty} (hl : ts.length ≤ vs.length)
    (h : ∀ p ∈ vs.zip ts, type p.1 = p.2) : vs.map type = ts ++ (vs.drop ts.length).map type := by
  induction ts generalizing vs with
  | nil => simp
  | cons t ts ih =>
    cases vs with
    | nil => simp at hl
    | cons v vs =>
      rw [List.zip_cons_cons, List.forall_mem_cons] at h
      simpa [h.1] using ih (by simpa using hl) h.2

private theorem call_outcome (f : FunctionId) (args : List ValueId) :
    Outcome at? (.call f args) ctx (call at? f args ctx) := by
  rw [call, get_bind, ite_run]
  split
  · next ha =>
    obtain ⟨hle, hlen⟩ := (accepts_iff _ _).mp ha
    rcases expectEach_run args (ctx.function f).params ctx with ⟨h, hvs⟩ | ⟨err, h⟩
    · rw [bind_of_ok h]
      refine append_outcome [] (by simp) rfl fun b _ => ?_
      refine .call ((args.drop (ctx.function f).params.length).map ctx.typeOf) ?_ ?_
      · exact types_of_zip hle hvs
      · rcases hlen with hlen | hv
        · exact Or.inl (by simp [hlen])
        · exact Or.inr hv
    · rw [bind_of_error h]
      exact .refused [] (by simp)
  · exact .refused [] (by simp)

theorem currentFunction_run (at? : Option BlockId) (ctx : Context) :
    (∃ b f, at? = some b ∧ (ctx.block b).function = some f ∧
      currentFunction at? ctx = .ok (ctx.function f) ctx) ∨ ∃ err, currentFunction at? ctx = .error err ctx := by
  rw [currentFunction]
  rcases openBlock_run at? ctx with ⟨b, hat, _, h⟩ | ⟨err, h⟩
  · rw [bind_of_ok h, get_bind]
    cases hf : (ctx.block b).function with
    | some f => exact Or.inl ⟨b, f, hat, hf, rfl⟩
    | none => exact Or.inr ⟨_, rfl⟩
  · exact Or.inr ⟨err, bind_of_error h _⟩

private theorem ret_outcome (v : ValueId) : Outcome at? (.ret v) ctx (ret at? v ctx) := by
  rw [ret]
  rcases currentFunction_run at? ctx with ⟨b, f, rfl, hf, h⟩ | ⟨err, h⟩
  · rw [bind_of_ok h, get_bind, ite_run]
    split
    · exact .refused [] (by simp)
    · next hr =>
      obtain ⟨hv, ht⟩ := not_or.mp hr
      rw [not_not] at ht
      refine appendVoid_outcome [] (by simp) (by simp [Emission.types]) rfl fun b' hb => ?_
      cases hb
      refine .ret hf ht fun he => hv ?_
      rw [← ht, he]
      rfl
  · rw [bind_of_error h]
    exact .refused [] (by simp)

private theorem retVoid_outcome : Outcome at? .retVoid ctx (retVoid at? ctx) := by
  rw [retVoid]
  rcases currentFunction_run at? ctx with ⟨b, f, rfl, hf, h⟩ | ⟨err, h⟩
  · rw [bind_of_ok h, ite_run]
    split
    · next hr =>
      refine appendVoid_outcome [] (by simp) (by simp [Emission.types]) rfl fun b' hb => ?_
      cases hb
      refine .retVoid hf ?_
      cases ht : (ctx.function f).result <;> simp_all [Ty.isVoid]
    · exact .refused [] (by simp)
  · rw [bind_of_error h]
    exact .refused [] (by simp)

end Emitter

/-- What comes of any call of the emitter, at any position. -/
theorem Emission.run_outcome (at? : Option BlockId) (e : Emission) (ctx : Context) :
    Outcome at? e ctx (e.run at? ctx) := by
  cases e with
  | alloca t name => exact Emitter.alloca_outcome t name
  | load t p => exact Emitter.load_outcome t p
  | store v p => exact Emitter.store_outcome v p
  | binary op l r => exact Emitter.binary_outcome op l r
  | icmp pred l r => exact Emitter.icmp_outcome pred l r
  | fcmp pred l r => exact Emitter.fcmp_outcome pred l r
  | compare pred l r => exact Emitter.compare_outcome pred l r
  | cast op v t => exact Emitter.cast_outcome op v t
  | zextOrTrunc v t => exact Emitter.zextOrTrunc_outcome v t
  | fptoui v t => exact Emitter.fptoui_outcome v t
  | phi incoming => exact Emitter.phi_outcome incoming
  | br d => exact Emitter.br_outcome d
  | condBr c t f => exact Emitter.condBr_outcome c t f
  | call f args => exact Emitter.call_outcome f args
  | ret v => exact Emitter.ret_outcome v
  | retVoid => exact Emitter.retVoid_outcome

/-- A call that does not fold answers with the next value of the context. -/
theorem Emission.run_ok {at? : Option BlockId} {e : Emission} {ctx ctx' : Context} {v : ValueId}
    (hf : e.folds = false) (h : e.run at? ctx = .ok v ctx') : v = ⟨ctx.values.size⟩ := by
  have outcome := e.run_outcome at? ctx
  rw [h] at outcome
  cases outcome with
  | written => rfl
  | operand he | folded _ he =>
    rw [hf] at he
    cases he

/-- A call that enters no types leaves no trace when it is refused. -/
theorem Emission.run_error {at? : Option BlockId} {e : Emission} {ctx ctx' : Context} {err : IrError}
    (ht : e.types = []) (h : e.run at? ctx = .error err ctx') : ctx' = ctx := by
  have outcome := e.run_outcome at? ctx
  rw [h] at outcome
  cases outcome with
  | refused ts hts =>
    have : ts = [] := List.eq_nil_iff_forall_not_mem.mpr fun t h => by simpa [ht] using hts t h
    rw [this]
    rfl

end StackAssembler.IR
