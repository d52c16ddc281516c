import StackAssembler.IR.Emitter
import StackAssembler.Proofs.Growth

/-! The typing rules of instructions, and that what is built later keeps them. -/
namespace StackAssembler.IR

/-- What a cast may go from and to. -/
inductive Convertible (layout : DataLayout) : CastOp → Ty → Ty → Prop where
  | pointers {p q : Ty} {s t : Nat} : Convertible layout .bitcast (.pointer p s) (.pointer q t)
  | numbers {s t : Ty} : (s.isInteger ∨ s.isFloat) → (t.isInteger ∨ t.isFloat) →
      s.sizeInBits? layout = t.sizeInBits? layout → Convertible layout .bitcast s t
  | zext {m n : Nat} : m < n → Convertible layout .zext (.int m) (.int n)
  | trunc {m n : Nat} : n < m → Convertible layout .trunc (.int m) (.int n)
  | fptoui {f : FloatFormat} {n : Nat} : Convertible layout .fptoui (.float f) (.int n)
  | ptrtoint {p : Ty} {s n : Nat} : Convertible layout .ptrtoint (.pointer p s) (.int n)
  | inttoptr {n : Nat} {p : Ty} {s : Nat} : Convertible layout .inttoptr (.int n) (.pointer p s)

theorem isLegal_iff {layout : DataLayout} {op : CastOp} {s t : Ty} :
    Emitter.isLegal layout op s t = true ↔ Convertible layout op s t := by
  constructor
  · intro h
    cases op with
    | bitcast =>
      simp only [Emitter.isLegal, Bool.or_eq_true, Bool.and_eq_true, decide_eq_true_eq] at h
      rcases h with ⟨hs, ht⟩ | ⟨⟨hs, ht⟩, he⟩
      · cases s <;> cases hs
        cases t <;> cases ht
        exact .pointers
      · exact .numbers hs ht he
    | zext =>
      cases s <;> cases t <;> simp_all [Emitter.isLegal]
      exact .zext h
    | trunc =>
      cases s <;> cases t <;> simp_all [Emitter.isLegal]
      exact .trunc h
    | fptoui =>
      cases s <;> cases t <;> simp_all [Emitter.isLegal, Ty.isFloat, Ty.isInteger]
      exact .fptoui
    | ptrtoint =>
      cases s <;> cases t <;> simp_all [Emitter.isLegal, Ty.isPointer, Ty.isInteger]
      exact .ptrtoint
    | inttoptr =>
      cases s <;> cases t <;> simp_all [Emitter.isLegal, Ty.isPointer, Ty.isInteger]
      exact .inttoptr
  · intro h
    cases h with
    | numbers hs ht he => simp [Emitter.isLegal, hs, ht, he]
    | _ => simp_all [Emitter.isLegal, Ty.isFloat, Ty.isInteger, Ty.isPointer]

/-- The typing rules: the type of what an instruction in block `b` results in. -/
inductive WellTyped (ctx : Context) (b : BlockId) : Operation → Ty → Prop where
  | alloca {t : Ty} : (t.allocSize? ctx.layout).isSome → WellTyped ctx b (.alloca t) (.pointer t 0)
  | load {p : ValueId} {t : Ty} {space : Nat} : ctx.typeOf p = .pointer t space → WellTyped ctx b (.load p) t
  | store {v p : ValueId} {space : Nat} : ctx.typeOf p = .pointer (ctx.typeOf v) space →
      WellTyped ctx b (.store v p) .void
  | intBinary {op : BinaryOp} {l r : ValueId} {width : Nat} : op.isFloat = false →
      ctx.typeOf l = .int width → ctx.typeOf r = .int width → WellTyped ctx b (.binary op l r) (.int width)
  | floatBinary {op : BinaryOp} {l r : ValueId} {f : FloatFormat} : op.isFloat = true →
      ctx.typeOf l = .float f → ctx.typeOf r = .float f → WellTyped ctx b (.binary op l r) (.float f)
  | icmp {p : IntPredicate} {l r : ValueId} : ((ctx.typeOf l).isInteger ∨ (ctx.typeOf l).isPointer) →
      ctx.typeOf r = ctx.typeOf l → WellTyped ctx b (.icmp p l r) (.int 1)
  | fcmp {p : FloatPredicate} {l r : ValueId} : (ctx.typeOf l).isFloat →
      ctx.typeOf r = ctx.typeOf l → WellTyped ctx b (.fcmp p l r) (.int 1)
  | cast {op : CastOp} {v : ValueId} {t : Ty} : Convertible ctx.layout op (ctx.typeOf v) t →
      (op = .bitcast → ctx.typeOf v ≠ t) → WellTyped ctx b (.cast op v) t
  | phi {incoming : List (ValueId × BlockId)} {t : Ty} : incoming ≠ [] →
      (∀ e ∈ incoming, ctx.typeOf e.1 = t) → WellTyped ctx b (.phi incoming) t
  | br {dest : BlockId} : WellTyped ctx b (.br dest) .void
  | condBr {c : ValueId} {t f : BlockId} : ctx.typeOf c = .int 1 → WellTyped ctx b (.condBr c t f) .void
  /-- Arguments beyond the parameters may have any types. -/
  | call {f : FunctionId} {args : List ValueId} (rest : List Ty) :
      args.map ctx.typeOf = (ctx.function f).params ++ rest → (rest = [] ∨ (ctx.function f).variadic) →
      WellTyped ctx b (.call f args) (ctx.function f).result
  | ret {v : ValueId} {f : FunctionId} : (ctx.block b).function = some f →
      ctx.typeOf v = (ctx.function f).result → ctx.typeOf v ≠ .void → WellTyped ctx b (.ret (some v)) .void
  | retVoid {f : FunctionId} : (ctx.block b).function = some f → (ctx.function f).result = .void →
      WellTyped ctx b (.ret none) .void

/-- The blocks that an instruction names. -/
def Operation.targets : Operation → List BlockId
  | .phi incoming => incoming.map Prod.snd
  | op => op.successors

def Operation.callee? : Operation → Option FunctionId
  | .call f _ => some f
  | _ => none

def Operation.handles (op : Operation) : Handles :=
  { values := op.operands, blocks := op.targets, functions := op.callee?.toList }

namespace WellTyped
variable {ctx ctx' : Context} {b : BlockId} {op : Operation} {t : Ty}

/-- The rules do not look at the table of types. -/
theorem retype (hw : WellTyped ctx b op t) (types : Array Ty) : WellTyped { ctx with types := types } b op t := by
  cases hw with
  | alloca hs => exact .alloca hs
  | load hp => exact .load hp
  | store hp => exact .store hp
  | intBinary ho hl hr => exact .intBinary ho hl hr
  | floatBinary ho hl hr => exact .floatBinary ho hl hr
  | icmp hl hr => exact .icmp hl hr
  | fcmp hl hr => exact .fcmp hl hr
  | cast hc hne => exact .cast hc hne
  | phi hne hs => exact .phi hne hs
  | br => exact .br
  | condBr hc => exact .condBr hc
  | @call f args rest ha hr =>
    change WellTyped { ctx with types := types } b _ (({ ctx with types := types } : Context).function f).result
    exact .call rest ha hr
  | ret ho hv hne => exact .ret ho hv hne
  | retVoid ho hv => exact .retVoid ho hv

/-- The rules only look at what does not change any more. -/
theorem mono (hw : WellTyped ctx b op t) (h : ctx.Extends ctx') (hk : ctx.Knows op.handles)
    (hb : ctx.HasBlock b) (hf : ∀ f, (ctx.block b).function = some f → ctx.HasFunction f) :
    WellTyped ctx' b op t := by
  have ty : ∀ v ∈ op.operands, ctx'.typeOf v = ctx.typeOf v := fun v hv => h.typeOf (hk.values v hv)
  have owner : ∀ f, (ctx.block b).function = some f → (ctx'.block b).function = some f := (h.block hb).function
  cases hw with
  | alloca hs => exact .alloca (by rwa [h.layout])
  | load hp => exact .load ((ty _ (by simp [Operation.operands])).trans hp)
  | @store v p space hp =>
    have hv := ty v (by simp [Operation.operands])
    refine .store (?_ : ctx'.typeOf p = .pointer (ctx'.typeOf v) space)
    rw [hv, ty p (by simp [Operation.operands]), hp]
  | intBinary ho hl hr =>
    exact .intBinary ho ((ty _ (by simp [Operation.operands])).trans hl)
      ((ty _ (by simp [Operation.operands])).trans hr)
  | floatBinary ho hl hr =>
    exact .floatBinary ho ((ty _ (by simp [Operation.operands])).trans hl)
      ((ty _ (by simp [Operation.operands])).trans hr)
  | icmp hl hr =>
    rw [← ty _ (by simp [Operation.operands])] at hl
    exact .icmp hl (by rw [ty _ (by simp [Operation.operands]), ty _ (by simp [Operation.operands]), hr])
  | fcmp hl hr =>
    rw [← ty _ (by simp [Operation.operands])] at hl
    exact .fcmp hl (by rw [ty _ (by simp [Operation.operands]), ty _ (by simp [Operation.operands]), hr])
  | cast hc hne =>
    rw [← ty _ (by simp [Operation.operands])] at hc hne
    exact .cast (by rwa [h.layout]) hne
  | phi hne hs =>
    refine .phi hne fun e he => ?_
    exact (ty _ (List.mem_map_of_mem he)).trans (hs e he)
  | br => exact .br
  | condBr hc => exact .condBr ((ty _ (by simp [Operation.operands])).trans hc)
  | @call f args rest ha hr =>
    have hf : ctx.HasFunction f := hk.functions f (by simp [Operation.handles, Operation.callee?])
    rw [← h.result hf]
    refine .call rest ?_ (by rwa [h.variadic hf])
    rw [h.params hf, ← ha]
    exact List.map_congr_left ty
  | @ret v f ho hv hne =>
    have ht := ty v (by simp [Operation.operands])
    exact .ret (owner _ ho) (by rw [ht, hv, h.result (hf _ ho)]) (by rwa [ht])
  | retVoid ho hv => exact .retVoid (owner _ ho) ((h.result (hf _ ho)).trans hv)

end WellTyped
end StackAssembler.IR
