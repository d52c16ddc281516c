import StackAssembler.Proofs.Emission

/-! What a call of the emitter comes to, as a function of what the emitter reads. The table of types is not read:
it only takes up the types that a call enters on its way. -/
namespace StackAssembler.IR

/-- What a call comes to: an error, a value that is there, an integer constant or a new instruction. -/
inductive Verdict where
  | refused (err : IrError)
  | operand (v : ValueId)
  | folded (width : Nat) (n : Int)
  | written (op : Operation) (t : Ty) (name : Option String)
  deriving DecidableEq, Repr

namespace Verdict

/-- What a verdict makes of a context, at a position. -/
def result (ctx : Context) (at? : Option BlockId) : Verdict → EStateM.Result IrError Context ValueId
  | refused err => .error err ctx
  | operand v => .ok v ctx
  | folded width n =>
    let c := ctx.constant (.int width) (.int (Word.truncate width n))
    .ok c.1 c.2
  | written op t name =>
    match at? with
    | none => .error .noInsertionPoint ctx
    | some b =>
      let i := ctx.addInstruction b op t name
      .ok i.1 i.2

variable (ctx : Context) (at? : Option BlockId)

/-- Go on if a value has a type. -/
def require (v : ValueId) (t : Ty) (next : Verdict) : Verdict :=
  if ctx.typeOf v = t then next else refused (.typeMismatch (.exactly t) (ctx.typeOf v))

/-- Go on with the block that takes the next instruction. -/
def inOpen (next : BlockId → Verdict) : Verdict :=
  match at? with
  | none => refused .noInsertionPoint
  | some b => if (ctx.terminator? b).isSome then refused (.blockTerminated (ctx.blockLabel b)) else next b

/-- Go on with the function that the open block belongs to. -/
def inFunction (next : Function → Verdict) : Verdict :=
  inOpen ctx at? fun b =>
    match (ctx.block b).function with
    | some f => next (ctx.function f)
    | none => refused (.detachedBlock (ctx.blockLabel b))

def write (op : Operation) (t : Ty) (name : Option String) : Verdict := inOpen ctx at? fun _ => written op t name

/-- A constant of a type that has to be an integer type. -/
def fold (t : Ty) (n : Int) : Verdict :=
  match t.width? with
  | some width => folded width n
  | none => refused (.typeMismatch .anInteger t)

/-- The first of some values has to be of its type, and so on. -/
def requireEach : List ValueId → List Ty → Verdict → Verdict
  | v :: vs, t :: ts, next => require ctx v t (requireEach vs ts next)
  | _, _, next => next

def icmp (pred : Predicate) (l r : ValueId) : Verdict :=
  match pred with
  | .float p => refused (.invalidOperand "icmp" (.floatPredicate p))
  | .int p =>
    require ctx r (ctx.typeOf l) <|
      if (ctx.typeOf l).isInteger || (ctx.typeOf l).isPointer then
        match Emitter.foldCompare? ctx p l r with
        | some b => folded 1 (if b then 1 else 0)
        | none => write ctx at? (.icmp p l r) (.int 1) none
      else refused (.invalidOperand "icmp" (.operandsOfType (ctx.typeOf l)))

def fcmp (pred : Predicate) (l r : ValueId) : Verdict :=
  match pred with
  | .int p => refused (.invalidOperand "fcmp" (.intPredicate p))
  | .float p =>
    require ctx r (ctx.typeOf l) <|
      if (ctx.typeOf l).isFloat then write ctx at? (.fcmp p l r) (.int 1) none
      else refused (.invalidOperand "fcmp" (.operandsOfType (ctx.typeOf l)))

def cast (op : CastOp) (v : ValueId) (t : Ty) : Verdict :=
  if Emitter.isLegal ctx.layout op (ctx.typeOf v) t then
    if op = .bitcast ∧ ctx.typeOf v = t then operand v
    else
      match Emitter.foldCast? ctx op v with
      | some payload => fold t payload
      | none => write ctx at? (.cast op v) t none
  else refused (.invalidCast op (ctx.typeOf v) t)

def zextOrTrunc (v : ValueId) (t : Ty) : Verdict :=
  if ctx.typeOf v = t then operand v
  else
    match ctx.typeOf v, t with
    | .int a, .int b => cast ctx at? (if a < b then .zext else .trunc) v t
    | _, _ => refused (.invalidCast .zext (ctx.typeOf v) t)

def phi (incoming : List (ValueId × BlockId)) : Verdict :=
  match incoming with
  | [] => refused .emptyPhi
  | (first, _) :: _ =>
    let t := ctx.typeOf first
    let vs := incoming.map Prod.fst
    requireEach ctx vs (vs.map fun _ => t) (write ctx at? (.phi incoming) t none)

end Verdict

open Verdict in
/-- The verdict on a call at a position. -/
def Emission.verdict (ctx : Context) (at? : Option BlockId) : Emission → Verdict
  | alloca t name =>
    if (t.allocSize? ctx.layout).isSome then write ctx at? (.alloca t) (.pointer t 0) name
    else refused (.invalidOperand "alloca" (.cannotAllocate t))
  | load t p =>
    match (ctx.typeOf p).pointee? with
    | none => refused (.invalidOperand "load" (.notAPointer (ctx.typeOf p)))
    | some q => if q = t then write ctx at? (.load p) t none else refused (.typeMismatch (.exactly t) q)
  | store v p =>
    match (ctx.typeOf p).pointee? with
    | none => refused (.invalidOperand "store" (.notAPointer (ctx.typeOf p)))
    | some q => require ctx v q (write ctx at? (.store v p) .void none)
  | binary op l r =>
    require ctx r (ctx.typeOf l) <|
      if (if op.isFloat then (ctx.typeOf l).isFloat else (ctx.typeOf l).isInteger) then
        match Emitter.foldBinary? ctx op l r with
        | some n => fold (ctx.typeOf l) n
        | none => write ctx at? (.binary op l r) (ctx.typeOf l) none
      else refused (.invalidOperand op.mnemonic (.operandsOfType (ctx.typeOf l)))
  | icmp pred l r => Verdict.icmp ctx at? pred l r
  | fcmp pred l r => Verdict.fcmp ctx at? pred l r
  | compare pred l r => if pred.isFloat then Verdict.fcmp ctx at? pred l r else Verdict.icmp ctx at? pred l r
  | cast op v t => Verdict.cast ctx at? op v t
  | zextOrTrunc v t => Verdict.zextOrTrunc ctx at? v t
  | fptoui v t => if ctx.typeOf v = t then operand v else Verdict.cast ctx at? .fptoui v t
  | phi incoming => Verdict.phi ctx at? incoming
  | br d => write ctx at? (.br d) .void none
  | condBr c t f => require ctx c (.int 1) (write ctx at? (.condBr c t f) .void none)
  | call f args =>
    let fn := ctx.function f
    if Emitter.accepts fn args.length then
      requireEach ctx args fn.params (write ctx at? (.call f args) fn.result none)
    else refused (.argumentCount fn.name fn.params.length args.length)
  | ret v => inFunction ctx at? fun fn =>
      if fn.result.isVoid ∨ ctx.typeOf v ≠ fn.result then refused (.returnMismatch fn.name fn.result)
      else write ctx at? (.ret (some v)) .void none
  | retVoid => inFunction ctx at? fun fn =>
      if fn.result.isVoid then write ctx at? (.ret none) .void none
      else refused (.returnMismatch fn.name fn.result)

namespace Verdict
variable {ctx : Context} {at? : Option BlockId} {types : List Ty} {op : Operation} {t : Ty} {name : Option String}

/-- A run that comes to the verdict, once some of the types that it may enter are in the table. -/
def Settles (d : Verdict) (ctx : Context) (at? : Option BlockId) (types : List Ty)
    (r : EStateM.Result IrError Context ValueId) : Prop :=
  ∃ ts, (∀ t ∈ ts, t ∈ types) ∧ r = d.result (ctx.internAll ts) at?

theorem settles_refused {err : IrError} : Settles (refused err) ctx at? types (.error err ctx) := ⟨[], by simp, rfl⟩

theorem settles_operand {v : ValueId} : Settles (operand v) ctx at? types (.ok v ctx) := ⟨[], by simp, rfl⟩

theorem settles_fold {n : Int} : Settles (fold t n) ctx at? types (Edit.integerOf t n ctx) := by
  rw [Emitter.integerOf_run]
  cases t with
  | int width => exact ⟨[], by simp, rfl⟩
  | _ => exact settles_refused

/-- A check whose failure is reported. -/
theorem settles_check {c : Prop} [Decidable c] {next : Verdict} {x : Edit ValueId} {err : IrError}
    (h : c → Settles next ctx at? types (x ctx)) :
    Settles (if c then next else refused err) ctx at? types ((if c then x else throw err) ctx) := by
  rw [ite_run]
  split
  · next hc => exact h hc
  · exact settles_refused

theorem settles_require {v : ValueId} {next : Verdict} {f : Unit → Edit ValueId} (ts : List Ty)
    (hts : ∀ t ∈ ts, t ∈ types) (h : ctx.typeOf v = t → Settles next ctx at? types (f () (ctx.internAll ts))) :
    Settles (require ctx v t next) ctx at? types ((Emitter.expect v t >>= f) (ctx.internAll ts)) := by
  rw [Emitter.expect_bind, Context.typeOf_internAll, require]
  split
  · next hv => exact h hv
  · exact ⟨ts, hts, rfl⟩

/-- Once a block is found to take the next instruction, the verdict is the one on what follows. -/
theorem settles_inOpen {next : BlockId → Verdict} {f : BlockId → Edit ValueId} (ts : List Ty)
    (hts : ∀ t ∈ ts, t ∈ types)
    (h : ∀ b, at? = some b → ctx.terminator? b = none → Settles (next b) ctx at? types (f b (ctx.internAll ts))) :
    Settles (inOpen ctx at? next) ctx at? types ((Emitter.openBlock at? >>= f) (ctx.internAll ts)) := by
  cases at? with
  | none => exact ⟨ts, hts, rfl⟩
  | some b =>
    have hrun : Emitter.openBlock (some b) (ctx.internAll ts) =
        if (ctx.terminator? b).isSome then .error (.blockTerminated (ctx.blockLabel b)) (ctx.internAll ts)
        else .ok b (ctx.internAll ts) := by
      rw [Emitter.openBlock_at, Context.terminator?_internAll, Context.internAll_eq]
      rfl
    rw [bind_run, hrun, inOpen]
    cases ht : ctx.terminator? b with
    | some v => exact ⟨ts, hts, rfl⟩
    | none => exact h b rfl ht

theorem settles_append (ts : List Ty) (hts : ∀ t ∈ ts, t ∈ types) :
    Settles (write ctx at? op t name) ctx at? types (Emitter.append at? op t name (ctx.internAll ts)) := by
  refine settles_inOpen ts hts fun b hb _ => ⟨ts, hts, ?_⟩
  subst hb
  rfl

theorem settles_appendVoid (ts : List Ty) (hts : ∀ t ∈ ts, t ∈ types) (hv : .void ∈ types) :
    Settles (write ctx at? op .void none) ctx at? types (Emitter.appendVoid at? op (ctx.internAll ts)) := by
  have h : Settles (write ctx at? op .void none) ctx at? types
      (Emitter.append at? op .void none (ctx.internAll (ts ++ [.void]))) :=
    settles_append (ts ++ [.void]) (by simpa [or_imp, forall_and] using ⟨hts, hv⟩)
  rwa [Context.internAll_concat] at h

theorem settles_inFunction {next : Function → Verdict} {f : Function → Edit ValueId}
    (h : ∀ fn, Settles (next fn) ctx at? types (f fn ctx)) :
    Settles (inFunction ctx at? next) ctx at? types ((Emitter.currentFunction at? >>= f) ctx) := by
  rw [Emitter.currentFunction, bind_assoc]
  refine settles_inOpen [] (by simp) fun b _ _ => ?_
  change Settles _ ctx at? types (((get >>= _) >>= f) ctx)
  rw [bind_assoc, get_bind]
  cases (ctx.block b).function with
  | none => exact settles_refused
  | some g => exact h (ctx.function g)

theorem settles_requireEach {vs : List ValueId} {ts : List Ty} {next : Verdict} {f : Unit → Edit ValueId}
    (h : Settles next ctx at? types (f () ctx)) :
    Settles (requireEach ctx vs ts next) ctx at? types ((Emitter.expectEach vs ts >>= f) ctx) := by
  induction vs generalizing ts with
  | nil => exact h
  | cons v vs ih =>
    cases ts with
    | nil => exact h
    | cons t ts => 
      rw [Emitter.expectEach, bind_assoc]
      exact settles_require [] (by simp) fun _ => ih

theorem settles_requireAll {vs : List ValueId} {next : Verdict} {f : Unit → Edit ValueId}
    (h : Settles next ctx at? types (f () ctx)) :
    Settles (requireEach ctx vs (vs.map fun _ => t) next) ctx at? types ((Emitter.expectAll t vs >>= f) ctx) := by
  induction vs with
  | nil => exact h
  | cons v vs ih =>
    rw [Emitter.expectAll, bind_assoc]
    exact settles_require [] (by simp) fun _ => ih

end Verdict

namespace Emitter
variable {at? : Option BlockId} {ctx : Context}
open Verdict

private theorem icmp_settles (pred : Predicate) (l r : ValueId) :
    (Verdict.icmp ctx at? pred l r).Settles ctx at? [.int 1] (icmp at? pred l r ctx) := by
  cases pred with
  | float p => exact settles_refused
  | int p =>
    rw [icmp, get_bind]
    refine settles_require [] (by simp) fun _ => settles_check fun _ => ?_
    rw [get_bind]
    cases foldCompare? ctx p l r with
    | some b => exact ⟨[.int 1], by simp, rfl⟩
    | none => exact settles_append [.int 1] (by simp)

private theorem fcmp_settles (pred : Predicate) (l r : ValueId) :
    (Verdict.fcmp ctx at? pred l r).Settles ctx at? [.int 1] (fcmp at? pred l r ctx) := by
  cases pred with
  | int p => exact settles_refused
  | float p =>
    rw [fcmp, get_bind]
    exact settles_require [] (by simp) fun _ => settles_check fun _ => settles_append [.int 1] (by simp)

private theorem cast_settles (op : CastOp) (v : ValueId) (t : Ty) :
    (Verdict.cast ctx at? op v t).Settles ctx at? [] (cast at? op v t ctx) := by
  rw [cast, get_bind]
  refine settles_check fun _ => ?_
  rw [ite_run]
  split
  · exact settles_operand
  · cases foldCast? ctx op v with
    | some payload => exact settles_fold
    | none => exact settles_append [] (by simp)

private theorem zextOrTrunc_settles (v : ValueId) (t : Ty) :
    (Verdict.zextOrTrunc ctx at? v t).Settles ctx at? [] (zextOrTrunc at? v t ctx) := by
  unfold Verdict.zextOrTrunc
  rw [zextOrTrunc, get_bind, ite_run]
  split
  · exact settles_operand
  · cases ctx.typeOf v <;> cases t
    case int.int => exact cast_settles _ v _
    all_goals exact settles_refused

end Emitter

open Verdict in
/-- A call of the emitter comes to its verdict. -/
theorem Emission.run_settles (at? : Option BlockId) (e : Emission) (ctx : Context) :
    (e.verdict ctx at?).Settles ctx at? e.types (e.run at? ctx) := by
  cases e with
  | alloca t name =>
    rw [run, Emitter.alloca, get_bind, verdict]
    cases t.allocSize? ctx.layout with
    | none => exact settles_refused
    | some n => exact settles_append [.pointer t 0] (by simp [types])
  | load t p =>
    rw [run, Emitter.load, get_bind, verdict]
    cases (ctx.typeOf p).pointee? with
    | none => exact settles_refused
    | some q => exact settles_check fun _ => settles_append [] (by simp)
  | store v p =>
    rw [run, Emitter.store, get_bind, verdict]
    cases (ctx.typeOf p).pointee? with
    | none => exact settles_refused
    | some q => exact settles_require [] (by simp) fun _ => settles_appendVoid [] (by simp) (by simp [types])
  | binary op l r =>
    rw [run, Emitter.binary, get_bind, verdict]
    refine settles_require [] (by simp) fun _ => settles_check fun _ => ?_
    rw [get_bind]
    cases Emitter.foldBinary? ctx op l r with
    | some n => exact settles_fold
    | none => exact settles_append [] (by simp)
  | icmp pred l r => exact Emitter.icmp_settles pred l r
  | fcmp pred l r => exact Emitter.fcmp_settles pred l r
  | compare pred l r =>
    rw [run, Emitter.compare, verdict]
    split
    · exact Emitter.fcmp_settles pred l r
    · exact Emitter.icmp_settles pred l r
  | cast op v t => exact Emitter.cast_settles op v t
  | zextOrTrunc v t => exact Emitter.zextOrTrunc_settles v t
  | fptoui v t =>
    rw [run, Emitter.fptoui, get_bind, ite_run, verdict]
    split
    · exact settles_operand
    · exact Emitter.cast_settles .fptoui v t
  | phi incoming =>
    cases incoming with
    | nil => exact settles_refused
    | cons first rest =>
      rw [run, Emitter.phi, get_bind]
      exact settles_requireAll (settles_append [] (by simp))
  | br d => exact settles_appendVoid [] (by simp) (by simp [types])
  | condBr c t f =>
    rw [run, Emitter.condBr, Emitter.intern_bind, verdict]
    refine settles_require [.int 1] (by simp [types]) fun _ => ?_
    exact settles_appendVoid [.int 1] (by simp [types]) (by simp [types])
  | call f args =>
    rw [run, Emitter.call, get_bind, verdict]
    exact settles_check fun _ => settles_requireEach (settles_append [] (by simp))
  | ret v =>
    rw [run, Emitter.ret, verdict]
    refine settles_inFunction fun fn => ?_
    rw [get_bind, ite_run]
    split
    · exact settles_refused
    · exact settles_appendVoid [] (by simp) (by simp [types])
  | retVoid =>
    rw [run, Emitter.retVoid, verdict]
    exact settles_inFunction fun fn => settles_check fun _ => settles_appendVoid [] (by simp) (by simp [types])

end StackAssembler.IR
