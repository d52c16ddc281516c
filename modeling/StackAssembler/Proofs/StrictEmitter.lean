import StackAssembler.Proofs.Emission
import StackAssembler.Proofs.Guarded
import StackAssembler.Proofs.StrictContext

/-! Appending instructions, where each look at the context and each step of arithmetic stays within its domain. With
handles that are known to a closed context this is what the emitter does, and the value that it answers with is known. -/
namespace StackAssembler.IR

/-- The types that a message spells. -/
def OperandFault.types : OperandFault → List Ty
  | .cannotAllocate t | .notAPointer t | .operandsOfType t => [t]
  | _ => []

def IrError.types : IrError → List Ty
  | .typeMismatch (.exactly t) found => [t, found]
  | .typeMismatch _ found => [found]
  | .invalidOperand _ fault => fault.types
  | .invalidCast _ source target => [source, target]
  | .returnMismatch _ t | .notAFunction t => [t]
  | _ => []

namespace Strict
open Guarded (look)

/-- An edit of a context that looks at entries, or has no result. -/
abbrev Edit := Guarded IrError Context

def typeNames (ctx : Context) : List Ty → Option (List String)
  | [] => return []
  | t :: ts => return (← typeName ctx t) :: (← typeNames ctx ts)

/-- Refuse with an error, whose types are spelled at once. -/
def refuse {α : Type} (e : IrError) : Edit α := do
  let _ ← look (typeNames · e.types)
  Guarded.refuse e

def expect (v : ValueId) (t : Ty) : Edit Unit := do
  let found ← look (typeOf · v)
  if found = t then pure () else refuse (.typeMismatch (.exactly t) found)

def openBlock (at? : Option BlockId) : Edit BlockId := do
  match at? with
  | none => refuse .noInsertionPoint
  | some b =>
    if (← look (terminator? · b)).isSome then
      let label ← look (blockLabel · b)
      refuse (.blockTerminated label)
    else pure b

def append (at? : Option BlockId) (op : Operation) (t : Ty) (name : Option String) : Edit ValueId := do
  let b ← openBlock at?
  let _ ← look (block · b)
  liftM (IR.Edit.perform fun ctx => ctx.addInstruction b op t name)

def appendVoid (at? : Option BlockId) (op : Operation) : Edit ValueId := do
  liftM (IR.Edit.intern .void)
  append at? op .void none

/-- An integer constant of a type. Its payload is the number under a mask. -/
def integerOf (t : Ty) (v : Int) : Edit ValueId := do
  match (← look (type · t)).width? with
  | some width => do
    let payload ← look fun _ => truncate width v
    liftM (IR.Edit.perform fun ctx => ctx.constant t (.int payload))
  | none => refuse (.typeMismatch .anInteger t)

/-! ### Memory -/

def alloca (at? : Option BlockId) (t : Ty) (name : Option String) : Edit ValueId := do
  match ← look (allocSize? · t) with
  | none => refuse (.invalidOperand "alloca" (.cannotAllocate t))
  | some _ =>
    liftM (IR.Edit.intern (.pointer t 0))
    append at? (.alloca t) (.pointer t 0) name

def load (at? : Option BlockId) (t : Ty) (pointer : ValueId) : Edit ValueId := do
  let p ← look (typeOf · pointer)
  match (← look (type · p)).pointee? with
  | none => refuse (.invalidOperand "load" (.notAPointer p))
  | some pointee =>
    if pointee = t then append at? (.load pointer) t none
    else refuse (.typeMismatch (.exactly t) pointee)

def store (at? : Option BlockId) (value pointer : ValueId) : Edit ValueId := do
  let p ← look (typeOf · pointer)
  match (← look (type · p)).pointee? with
  | none => refuse (.invalidOperand "store" (.notAPointer p))
  | some pointee =>
    expect value pointee
    appendVoid at? (.store value pointer)

/-! ### Arithmetic -/

def foldBinary? (ctx : Context) (op : BinaryOp) (lhs rhs : ValueId) : Option (Option Int) := do
  match ← payload? ctx lhs with
  | none => return none
  | some a =>
    match ← payload? ctx rhs with
    | none => return none
    | some b =>
      match (← type ctx (← typeOf ctx lhs)).width? with
      | none => return none
      | some width => if Word.capacity < width then return none else combine? op width a b

def binary (at? : Option BlockId) (op : BinaryOp) (lhs rhs : ValueId) : Edit ValueId := do
  let t ← look (typeOf · lhs)
  expect rhs t
  let kind ← look (type · t)
  if (if op.isFloat then kind.isFloat else kind.isInteger) then
    match ← look (foldBinary? · op lhs rhs) with
    | some v => integerOf t v
    | none => append at? (.binary op lhs rhs) t none
  else refuse (.invalidOperand op.mnemonic (.operandsOfType t))

def foldCompare? (ctx : Context) (p : IntPredicate) (lhs rhs : ValueId) : Option (Option Bool) := do
  match ← payload? ctx lhs with
  | none => return none
  | some a =>
    match ← payload? ctx rhs with
    | none => return none
    | some b =>
      let _ ← signed? ctx lhs
      let _ ← signed? ctx rhs
      match (← type ctx (← typeOf ctx lhs)).width? with
      | none => return none
      | some width => return some (Word.compare p width a b)

def icmp (at? : Option BlockId) (pred : Predicate) (lhs rhs : ValueId) : Edit ValueId := do
  match pred with
  | .float p => refuse (.invalidOperand "icmp" (.floatPredicate p))
  | .int p =>
    let t ← look (typeOf · lhs)
    expect rhs t
    let kind ← look (type · t)
    if kind.isInteger || kind.isPointer then
      match ← look (foldCompare? · p lhs rhs) with
      | some b => do
        let payload ← look fun _ => truncate 1 (if b then 1 else 0)
        liftM (IR.Edit.perform fun ctx => (ctx.intern (.int 1)).constant (.int 1) (.int payload))
      | none =>
        liftM (IR.Edit.intern (.int 1))
        append at? (.icmp p lhs rhs) (.int 1) none
    else refuse (.invalidOperand "icmp" (.operandsOfType t))

def fcmp (at? : Option BlockId) (pred : Predicate) (lhs rhs : ValueId) : Edit ValueId := do
  match pred with
  | .int p => refuse (.invalidOperand "fcmp" (.intPredicate p))
  | .float p =>
    let t ← look (typeOf · lhs)
    expect rhs t
    if (← look (type · t)).isFloat then
      liftM (IR.Edit.intern (.int 1))
      append at? (.fcmp p lhs rhs) (.int 1) none
    else refuse (.invalidOperand "fcmp" (.operandsOfType t))

def compare (at? : Option BlockId) (pred : Predicate) (lhs rhs : ValueId) : Edit ValueId :=
  if pred.isFloat then fcmp at? pred lhs rhs else icmp at? pred lhs rhs

/-! ### Casts -/

def isLegal (ctx : Context) (op : CastOp) (source target : Ty) : Option Bool := do
  let source ← type ctx source
  let target ← type ctx target
  match op with
  | .bitcast =>
    if source.isPointer && target.isPointer then return true
    else if (source.isInteger || source.isFloat) && (target.isInteger || target.isFloat) then
      return (← sizeInBits? ctx source) = (← sizeInBits? ctx target)
    else return false
  | op => return Emitter.isLegal ctx.layout op source target

def foldCast? (ctx : Context) (op : CastOp) (v : ValueId) : Option (Option Nat) := do
  let payload ← payload? ctx v
  match op with
  | .zext | .trunc => return payload
  | _ => return none

def cast (at? : Option BlockId) (op : CastOp) (v : ValueId) (target : Ty) : Edit ValueId := do
  let source ← look (typeOf · v)
  if ← look (isLegal · op source target) then
    if op = .bitcast ∧ source = target then pure v
    else
      match ← look (foldCast? · op v) with
      | some payload => integerOf target payload
      | none => append at? (.cast op v) target none
  else refuse (.invalidCast op source target)

def zextOrTrunc (at? : Option BlockId) (v : ValueId) (target : Ty) : Edit ValueId := do
  let source ← look (typeOf · v)
  if source = target then pure v
  else
    match ← look (type · source), ← look (type · target) with
    | .int a, .int b => cast at? (if a < b then .zext else .trunc) v target
    | _, _ => refuse (.invalidCast .zext source target)

def fptoui (at? : Option BlockId) (v : ValueId) (target : Ty) : Edit ValueId := do
  let source ← look (typeOf · v)
  if source = target then pure v else cast at? .fptoui v target

/-! ### Control flow -/

def expectAll (t : Ty) : List ValueId → Edit Unit
  | [] => pure ()
  | v :: vs => do
    expect v t
    expectAll t vs

def phi (at? : Option BlockId) (incoming : List (ValueId × BlockId)) : Edit ValueId := do
  match incoming with
  | [] => refuse .emptyPhi
  | (first, _) :: _ =>
    let t ← look (typeOf · first)
    expectAll t (incoming.map Prod.fst)
    append at? (.phi incoming) t none

def br (at? : Option BlockId) (dest : BlockId) : Edit ValueId := appendVoid at? (.br dest)

def condBr (at? : Option BlockId) (cond : ValueId) (onTrue onFalse : BlockId) : Edit ValueId := do
  liftM (IR.Edit.intern (.int 1))
  expect cond (.int 1)
  appendVoid at? (.condBr cond onTrue onFalse)

def expectEach : List ValueId → List Ty → Edit Unit
  | v :: vs, t :: ts => do
    expect v t
    expectEach vs ts
  | _, _ => pure ()

def call (at? : Option BlockId) (callee : FunctionId) (args : List ValueId) : Edit ValueId := do
  let f ← look (function · callee)
  if Emitter.accepts f args.length then
    expectEach args f.params
    append at? (.call callee args) f.result none
  else refuse (.argumentCount f.name f.params.length args.length)

def currentFunction (at? : Option BlockId) : Edit Function := do
  let b ← openBlock at?
  match (← look (block · b)).function with
  | some f => look (function · f)
  | none => do
    let label ← look (blockLabel · b)
    refuse (.detachedBlock label)

def ret (at? : Option BlockId) (v : ValueId) : Edit ValueId := do
  let f ← currentFunction at?
  let result ← look (type · f.result)
  let found ← look (typeOf · v)
  if result.isVoid ∨ found ≠ f.result then refuse (.returnMismatch f.name f.result)
  else appendVoid at? (.ret (some v))

def retVoid (at? : Option BlockId) : Edit ValueId := do
  let f ← currentFunction at?
  if (← look (type · f.result)).isVoid then appendVoid at? (.ret none)
  else refuse (.returnMismatch f.name f.result)

/-! ### Answers -/

/-- An edit stays within its domains, does what `f` does, and answers with a known value. -/
abbrev Answers (x : Edit ValueId) (f : IR.Edit ValueId) (ctx : Context) : Prop :=
  Faithful x f ctx fun v ctx' => ctx'.HasValue v

section
variable {ctx : Context} (hc : ctx.Closed)
include hc

theorem typeNames_eq {ts : List Ty} (h : ∀ t ∈ ts, ctx.HasType t) : typeNames ctx ts = some (ts.map Ty.name) := by
  induction ts with
  | nil => rfl
  | cons t ts ih =>
    obtain ⟨ht, hts⟩ := List.forall_mem_cons.mp h
    rw [typeNames, typeName_eq hc ht, ih hts]
    rfl

theorem refuse_faithful {α : Type} {P : α → Context → Prop} {e : IrError} (h : ∀ t ∈ e.types, ctx.HasType t) :
    Faithful (refuse e) (throw e) ctx P :=
  .look (typeNames_eq hc h) (.refuse (intact_iff.mpr hc))

omit hc in
theorem perform_faithful {α : Type} {f : Context → α × Context} {P : α → Context → Prop}
    (h : ctx.Becomes (f ctx).2 ∧ P (f ctx).1 (f ctx).2) :
    Faithful (liftM (IR.Edit.perform f)) (IR.Edit.perform f) ctx P :=
  .lift ⟨becomes_iff.mpr h.1, h.2⟩

/-- A type whose components are known becomes known. -/
theorem intern_faithful (t : Ty) (ht : ∀ c ∈ t.components, ctx.HasType c) (hw : ∀ width ∈ t.width?, width < Nat.pow 2 32) :
    Faithful (liftM (IR.Edit.intern t)) (IR.Edit.intern t) ctx fun _ ctx' => ctx'.HasType t :=
  perform_faithful (f := fun ctx => ((), ctx.intern t)) (hc.intern ht hw)

theorem expect_faithful {v : ValueId} {t : Ty} (hv : ctx.HasValue v) (ht : ctx.HasType t) :
    Faithful (expect v t) (Emitter.expect v t) ctx fun _ ctx' => ctx' = ctx := by
  refine .get (.look (typeOf_eq hv) (.ite (fun _ => .pure (intact_iff.mpr hc) rfl) fun _ => refuse_faithful hc ?_))
  exact List.forall_mem_cons.mpr ⟨ht, List.forall_mem_singleton.mpr (hc.hasType_typeOf hv)⟩

theorem integerOf_faithful {t : Ty} (ht : ctx.HasType t) (v : Int) : Answers (integerOf t v) (IR.Edit.integerOf t v) ctx := by
  refine .look (type_eq ht) ?_
  unfold IR.Edit.integerOf
  cases t.width? with
  | some width => exact .look (truncate_eq width v) (perform_faithful (hc.constant ht _))
  | none => exact refuse_faithful hc (List.forall_mem_singleton.mpr ht)

theorem hasType_pointee {t p : Ty} (ht : ctx.HasType t) (h : t.pointee? = some p) : ctx.HasType p := by
  cases t with
  | pointer q space =>
    cases h
    exact hc.types _ ht p (.head _)
  | _ => cases h

theorem foldBinary?_eq (op : BinaryOp) {lhs rhs : ValueId} (hl : ctx.HasValue lhs) (hr : ctx.HasValue rhs) :
    foldBinary? ctx op lhs rhs = some (Emitter.foldBinary? ctx op lhs rhs) := by
  rw [foldBinary?, payload?_eq hl, Emitter.foldBinary?]
  cases ctx.payload? lhs with
  | none => rfl
  | some a =>
    dsimp only [bind, Option.bind]
    rw [payload?_eq hr]
    cases ctx.payload? rhs with
    | none => rfl
    | some b =>
      dsimp only
      rw [typeOf_eq hl]
      dsimp only
      rw [type_eq (hc.hasType_typeOf hl)]
      dsimp only
      cases (ctx.typeOf lhs).width? with
      | none => rfl
      | some width =>
        dsimp only
        split
        · rfl
        · next h => exact combine?_eq h op a b

theorem foldCompare?_eq (p : IntPredicate) {lhs rhs : ValueId} (hl : ctx.HasValue lhs) (hr : ctx.HasValue rhs) :
    foldCompare? ctx p lhs rhs = some (Emitter.foldCompare? ctx p lhs rhs) := by
  rw [foldCompare?, payload?_eq hl, Emitter.foldCompare?]
  cases ctx.payload? lhs with
  | none => rfl
  | some a =>
    dsimp only [bind, Option.bind]
    rw [payload?_eq hr]
    cases ctx.payload? rhs with
    | none => rfl
    | some b =>
      dsimp only
      rw [signed?_eq hc hl, signed?_eq hc hr, typeOf_eq hl]
      dsimp only
      rw [type_eq (hc.hasType_typeOf hl)]
      dsimp only
      cases (ctx.typeOf lhs).width? <;> rfl

theorem isLegal_eq (op : CastOp) {source target : Ty} (hs : ctx.HasType source) (ht : ctx.HasType target) :
    isLegal ctx op source target = some (Emitter.isLegal ctx.layout op source target) := by
  rw [isLegal, type_eq hs, type_eq ht]
  cases op with
  | bitcast =>
    dsimp only [bind, Option.bind, Emitter.isLegal]
    rw [sizeInBits?_eq hc hs, sizeInBits?_eq hc ht]
    cases source.isPointer && target.isPointer with
    | true => rfl
    | false =>
      cases (source.isInteger || source.isFloat) && (target.isInteger || target.isFloat) with
      | true => rfl
      | false => rfl
  | _ => rfl

omit hc in
theorem foldCast?_eq (op : CastOp) {v : ValueId} (hv : ctx.HasValue v) :
    foldCast? ctx op v = some (Emitter.foldCast? ctx op v) := by
  rw [foldCast?, payload?_eq hv]
  cases op <;> rfl

theorem expectAll_faithful {t : Ty} (ht : ctx.HasType t) {vs : List ValueId} (hvs : ∀ v ∈ vs, ctx.HasValue v) :
    Faithful (expectAll t vs) (Emitter.expectAll t vs) ctx fun _ ctx' => ctx' = ctx := by
  induction vs with
  | nil => exact .pure (intact_iff.mpr hc) rfl
  | cons v vs ih =>
    obtain ⟨hv, hvs⟩ := List.forall_mem_cons.mp hvs
    refine (expect_faithful hc hv ht).bind fun _ ctx' _ hctx => ?_
    subst hctx
    exact ih hvs

theorem expectEach_faithful {vs : List ValueId} {ts : List Ty} (hvs : ∀ v ∈ vs, ctx.HasValue v)
    (hts : ∀ t ∈ ts, ctx.HasType t) :
    Faithful (expectEach vs ts) (Emitter.expectEach vs ts) ctx fun _ ctx' => ctx' = ctx := by
  induction vs generalizing ts with
  | nil => exact .pure (intact_iff.mpr hc) rfl
  | cons v vs ih =>
    cases ts with
    | nil => exact .pure (intact_iff.mpr hc) rfl
    | cons t ts =>
      obtain ⟨hv, hvs⟩ := List.forall_mem_cons.mp hvs
      obtain ⟨ht, hts⟩ := List.forall_mem_cons.mp hts
      refine (expect_faithful hc hv ht).bind fun _ ctx' _ hctx => ?_
      subst hctx
      exact ih hvs hts

/-! ### Writing -/

variable {at? : Option BlockId} (hat : ∀ b ∈ at?, ctx.HasBlock b)
include hat

theorem openBlock_faithful :
    Faithful (openBlock at?) (Emitter.openBlock at?) ctx fun b ctx' => ctx' = ctx ∧ ctx.HasBlock b := by
  cases at? with
  | none => exact refuse_faithful hc (List.forall_mem_nil _)
  | some b =>
    have hb := hat b rfl
    refine .get (.look (terminator?_eq hc hb) (.ite (fun _ => .look (blockLabel_eq hb) ?_) fun _ => ?_))
    · exact refuse_faithful hc (List.forall_mem_nil _)
    · exact .pure (intact_iff.mpr hc) ⟨rfl, hb⟩

theorem append_faithful {op : Operation} {t : Ty} {name : Option String} (hts : ∀ u ∈ t :: op.types, ctx.HasType u)
    (hk : ctx.Knows op.handles) : Answers (append at? op t name) (Emitter.append at? op t name) ctx := by
  refine (openBlock_faithful hc hat).bind fun b ctx' _ ⟨hctx, hb⟩ => ?_
  subst hctx
  refine .look (block_eq hb) (perform_faithful (hc.addInstruction name ?_))
  exact { hk with types := hts, blocks := List.forall_mem_cons.mpr ⟨hb, hk.blocks⟩ }

/-- What is written once a type has been entered. -/
theorem intern_append_faithful {op : Operation} (t : Ty) {name : Option String} (ht : ∀ c ∈ t.components, ctx.HasType c)
    (hw : ∀ width ∈ t.width?, width < Nat.pow 2 32) (hts : ∀ u ∈ op.types, ctx.HasType u) (hk : ctx.Knows op.handles) :
    Answers (liftM (IR.Edit.intern t) >>= fun _ => append at? op t name)
      (IR.Edit.intern t >>= fun _ => Emitter.append at? op t name) ctx := by
  refine (intern_faithful hc t ht hw).bind fun _ ctx' hb ht => ?_
  refine append_faithful hb.intact.closed (fun b h => hb.retains.hasBlock (hat b h)) ?_ (hb.retains _ hk)
  exact List.forall_mem_cons.mpr ⟨ht, fun u hu => hb.retains.hasType (hts u hu)⟩

theorem appendVoid_faithful {op : Operation} (hts : ∀ u ∈ op.types, ctx.HasType u) (hk : ctx.Knows op.handles) :
    Answers (appendVoid at? op) (Emitter.appendVoid at? op) ctx :=
  intern_append_faithful hc hat .void (List.forall_mem_nil _) (by decide) hts hk

theorem alloca_faithful {t : Ty} {name : Option String} (ht : ctx.HasType t) :
    Answers (alloca at? t name) (Emitter.alloca at? t name) ctx := by
  refine .get (.look (allocSize?_eq hc ht) ?_)
  cases t.allocSize? ctx.layout with
  | none => exact refuse_faithful hc (List.forall_mem_singleton.mpr ht)
  | some _ =>
    exact intern_append_faithful hc hat (.pointer t 0) (List.forall_mem_singleton.mpr ht) (fun _ h => nomatch h)
      (List.forall_mem_singleton.mpr ht) Context.knows_nothing

theorem load_faithful {t : Ty} {pointer : ValueId} (ht : ctx.HasType t) (hp : ctx.HasValue pointer) :
    Answers (load at? t pointer) (Emitter.load at? t pointer) ctx := by
  have hpt := hc.hasType_typeOf hp
  refine .get (.look (typeOf_eq hp) (.look (type_eq hpt) ?_))
  dsimp only
  cases h : (ctx.typeOf pointer).pointee? with
  | none => exact refuse_faithful hc (List.forall_mem_singleton.mpr hpt)
  | some pointee =>
    refine .ite (fun _ => ?_) fun _ => refuse_faithful hc ?_
    · exact append_faithful hc hat (List.forall_mem_singleton.mpr ht) (Context.knows_value.mpr hp)
    · exact List.forall_mem_cons.mpr ⟨ht, List.forall_mem_singleton.mpr (hasType_pointee hc hpt h)⟩

theorem store_faithful {value pointer : ValueId} (hv : ctx.HasValue value) (hp : ctx.HasValue pointer) :
    Answers (store at? value pointer) (Emitter.store at? value pointer) ctx := by
  have hpt := hc.hasType_typeOf hp
  refine .get (.look (typeOf_eq hp) (.look (type_eq hpt) ?_))
  dsimp only
  cases h : (ctx.typeOf pointer).pointee? with
  | none => exact refuse_faithful hc (List.forall_mem_singleton.mpr hpt)
  | some pointee =>
    refine (expect_faithful hc hv (hasType_pointee hc hpt h)).bind fun _ ctx' _ hctx => ?_
    subst hctx
    refine appendVoid_faithful hc hat (List.forall_mem_nil _) (Context.knows_values.mpr ?_)
    exact List.forall_mem_cons.mpr ⟨hv, List.forall_mem_singleton.mpr hp⟩

theorem binary_faithful (op : BinaryOp) {lhs rhs : ValueId} (hl : ctx.HasValue lhs) (hr : ctx.HasValue rhs) :
    Answers (binary at? op lhs rhs) (Emitter.binary at? op lhs rhs) ctx := by
  have ht := hc.hasType_typeOf hl
  refine .get (.look (typeOf_eq hl) ((expect_faithful hc hr ht).bind fun _ ctx' _ hctx => ?_))
  subst hctx
  refine .look (type_eq ht) (.ite (fun _ => .get (.look (foldBinary?_eq hc op hl hr) ?_)) fun _ => ?_)
  · cases Emitter.foldBinary? ctx' op lhs rhs with
    | some v => exact integerOf_faithful hc ht v
    | none =>
      refine append_faithful hc hat (List.forall_mem_singleton.mpr ht) (Context.knows_values.mpr ?_)
      exact List.forall_mem_cons.mpr ⟨hl, List.forall_mem_singleton.mpr hr⟩
  · exact refuse_faithful hc (List.forall_mem_singleton.mpr ht)

theorem icmp_faithful (pred : Predicate) {lhs rhs : ValueId} (hl : ctx.HasValue lhs) (hr : ctx.HasValue rhs) :
    Answers (icmp at? pred lhs rhs) (Emitter.icmp at? pred lhs rhs) ctx := by
  cases pred with
  | float p => exact refuse_faithful hc (List.forall_mem_nil _)
  | int p =>
    have ht := hc.hasType_typeOf hl
    refine .get (.look (typeOf_eq hl) ((expect_faithful hc hr ht).bind fun _ ctx' _ hctx => ?_))
    subst hctx
    refine .look (type_eq ht) (.ite (fun _ => .get (.look (foldCompare?_eq hc p hl hr) ?_)) fun _ => ?_)
    · cases Emitter.foldCompare? ctx' p lhs rhs with
      | some b =>
        obtain ⟨hb, hint⟩ := hc.intern (t := .int 1) (List.forall_mem_nil _) (by decide)
        obtain ⟨hb', hv⟩ := hb.closed.constant hint (.int (Word.truncate 1 (if b then 1 else 0)))
        exact .look (truncate_eq 1 (if b then 1 else 0)) (perform_faithful ⟨hb.trans hb', hv⟩)
      | none =>
        refine intern_append_faithful hc hat (.int 1) (List.forall_mem_nil _) (by decide) (List.forall_mem_nil _)
          (Context.knows_values.mpr ?_)
        exact List.forall_mem_cons.mpr ⟨hl, List.forall_mem_singleton.mpr hr⟩
    · exact refuse_faithful hc (List.forall_mem_singleton.mpr ht)

theorem fcmp_faithful (pred : Predicate) {lhs rhs : ValueId} (hl : ctx.HasValue lhs) (hr : ctx.HasValue rhs) :
    Answers (fcmp at? pred lhs rhs) (Emitter.fcmp at? pred lhs rhs) ctx := by
  cases pred with
  | int p => exact refuse_faithful hc (List.forall_mem_nil _)
  | float p =>
    have ht := hc.hasType_typeOf hl
    refine .get (.look (typeOf_eq hl) ((expect_faithful hc hr ht).bind fun _ ctx' _ hctx => ?_))
    subst hctx
    refine .look (type_eq ht) (.ite (fun _ => ?_) fun _ => refuse_faithful hc (List.forall_mem_singleton.mpr ht))
    refine intern_append_faithful hc hat (.int 1) (List.forall_mem_nil _) (by decide) (List.forall_mem_nil _)
      (Context.knows_values.mpr ?_)
    exact List.forall_mem_cons.mpr ⟨hl, List.forall_mem_singleton.mpr hr⟩

theorem compare_faithful (pred : Predicate) {lhs rhs : ValueId} (hl : ctx.HasValue lhs) (hr : ctx.HasValue rhs) :
    Answers (compare at? pred lhs rhs) (Emitter.compare at? pred lhs rhs) ctx :=
  .ite (fun _ => fcmp_faithful hc hat pred hl hr) fun _ => icmp_faithful hc hat pred hl hr

theorem cast_faithful (op : CastOp) {v : ValueId} {target : Ty} (hv : ctx.HasValue v) (ht : ctx.HasType target) :
    Answers (cast at? op v target) (Emitter.cast at? op v target) ctx := by
  have hs := hc.hasType_typeOf hv
  refine .get (.look (typeOf_eq hv) (.look (isLegal_eq hc op hs ht) (.ite (fun _ => ?_) fun _ => refuse_faithful hc ?_)))
  · refine .ite (fun _ => .pure (intact_iff.mpr hc) hv) fun _ => .look (foldCast?_eq op hv) ?_
    cases Emitter.foldCast? ctx op v with
    | some payload => exact integerOf_faithful hc ht payload
    | none => exact append_faithful hc hat (List.forall_mem_singleton.mpr ht) (Context.knows_value.mpr hv)
  · exact List.forall_mem_cons.mpr ⟨hs, List.forall_mem_singleton.mpr ht⟩

theorem zextOrTrunc_faithful {v : ValueId} {target : Ty} (hv : ctx.HasValue v) (ht : ctx.HasType target) :
    Answers (zextOrTrunc at? v target) (Emitter.zextOrTrunc at? v target) ctx := by
  have hs := hc.hasType_typeOf hv
  refine .get (.look (typeOf_eq hv) (.ite (fun _ => .pure (intact_iff.mpr hc) hv) fun _ => ?_))
  refine .look (type_eq hs) (.look (type_eq ht) ?_)
  have refused : Answers (refuse (.invalidCast .zext (ctx.typeOf v) target)) (throw (.invalidCast .zext (ctx.typeOf v) target)) ctx :=
    refuse_faithful hc (List.forall_mem_cons.mpr ⟨hs, List.forall_mem_singleton.mpr ht⟩)
  generalize ctx.typeOf v = source at refused ⊢
  cases source with
  | int a =>
    cases target with
    | int b => exact cast_faithful hc hat _ hv ht
    | _ => exact refused
  | _ => exact refused

theorem fptoui_faithful {v : ValueId} {target : Ty} (hv : ctx.HasValue v) (ht : ctx.HasType target) :
    Answers (fptoui at? v target) (Emitter.fptoui at? v target) ctx :=
  .get (.look (typeOf_eq hv) (.ite (fun _ => .pure (intact_iff.mpr hc) hv) fun _ => cast_faithful hc hat .fptoui hv ht))

theorem phi_faithful {incoming : List (ValueId × BlockId)} (hk : ctx.Knows (Operation.phi incoming).handles) :
    Answers (phi at? incoming) (Emitter.phi at? incoming) ctx := by
  cases incoming with
  | nil => exact refuse_faithful hc (List.forall_mem_nil _)
  | cons e es =>
    have hfirst := hk.values e.1 (.head _)
    have ht := hc.hasType_typeOf hfirst
    refine .get (.look (typeOf_eq hfirst) ((expectAll_faithful hc ht hk.values).bind fun _ ctx' _ hctx => ?_))
    subst hctx
    exact append_faithful hc hat (List.forall_mem_singleton.mpr ht) hk

theorem br_faithful {dest : BlockId} (hd : ctx.HasBlock dest) : Answers (br at? dest) (Emitter.br at? dest) ctx :=
  appendVoid_faithful hc hat (List.forall_mem_nil _) (Context.knows_block.mpr hd)

theorem condBr_faithful {cond : ValueId} {onTrue onFalse : BlockId}
    (hk : ctx.Knows (Operation.condBr cond onTrue onFalse).handles) :
    Answers (condBr at? cond onTrue onFalse) (Emitter.condBr at? cond onTrue onFalse) ctx := by
  refine (intern_faithful hc (.int 1) (List.forall_mem_nil _) (by decide)).bind fun _ ctx₁ hb ht => ?_
  have hk := hb.retains _ hk
  refine (expect_faithful hb.intact.closed (hk.values cond (.head _)) ht).bind fun _ ctx₂ _ hctx => ?_
  subst hctx
  exact appendVoid_faithful hb.intact.closed (fun b h => hb.retains.hasBlock (hat b h)) (List.forall_mem_nil _) hk

theorem call_faithful {callee : FunctionId} {args : List ValueId} (hk : ctx.Knows (Operation.call callee args).handles) :
    Answers (call at? callee args) (Emitter.call at? callee args) ctx := by
  have hf := hk.functions callee (.head _)
  have hts := (hc.function hf).types
  refine .get (.look (function_eq hf) (.ite (fun _ => ?_) fun _ => refuse_faithful hc (List.forall_mem_nil _)))
  refine (expectEach_faithful hc hk.values fun t ht => hts t (.tail _ (.tail _ ht))).bind fun _ ctx' _ hctx => ?_
  subst hctx
  exact append_faithful hc hat (List.forall_mem_singleton.mpr (hts _ (.tail _ (.head _)))) hk

theorem currentFunction_faithful :
    Faithful (currentFunction at?) (Emitter.currentFunction at?) ctx fun f ctx' => ctx' = ctx ∧ ctx.HasType f.result := by
  refine (openBlock_faithful hc hat).bind fun b ctx' _ ⟨hctx, hb⟩ => ?_
  subst hctx
  refine .get (.look (block_eq hb) ?_)
  cases h : (ctx'.block b).function with
  | some f =>
    have hf := (hc.block hb).functions f (Option.mem_toList.mpr h)
    exact .found (intact_iff.mpr hc) (function_eq hf) ⟨rfl, (hc.function hf).types _ (.tail _ (.head _))⟩
  | none => exact .look (blockLabel_eq hb) (refuse_faithful hc (List.forall_mem_nil _))

theorem ret_faithful {v : ValueId} (hv : ctx.HasValue v) : Answers (ret at? v) (Emitter.ret at? v) ctx := by
  refine (currentFunction_faithful hc hat).bind fun f ctx' _ ⟨hctx, ht⟩ => ?_
  subst hctx
  refine .get (.look (type_eq ht) (.look (typeOf_eq hv) (.ite (fun _ => ?_) fun _ => ?_)))
  · exact refuse_faithful hc (List.forall_mem_singleton.mpr ht)
  · exact appendVoid_faithful hc hat (List.forall_mem_nil _) (Context.knows_value.mpr hv)

theorem retVoid_faithful : Answers (retVoid at?) (Emitter.retVoid at?) ctx := by
  refine (currentFunction_faithful hc hat).bind fun f ctx' _ ⟨hctx, ht⟩ => ?_
  subst hctx
  refine .look (type_eq ht) (.ite (fun _ => ?_) fun _ => refuse_faithful hc (List.forall_mem_singleton.mpr ht))
  exact appendVoid_faithful hc hat (List.forall_mem_nil _) Context.knows_nothing

end
end Strict
end StackAssembler.IR
