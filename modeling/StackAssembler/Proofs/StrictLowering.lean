import StackAssembler.Proofs.Lowering
import StackAssembler.Proofs.StrictMachine

/-! Lowering statements, where each look at the context and each step of arithmetic stays within its domain. The handles
in what a statement is lowered to are known. -/
namespace StackAssembler.Script
open IR Build
open Guarded (look state)

instance : Holder Workspace where
  context w := w.machine.context
  handles w := { w.machine.builder.handles with
    modules := (w.names.modules.map Prod.snd ++ w.names.moduleOrder) ++ w.machine.builder.handles.modules }

/-! ### Widths of literals -/

/-- Whether the width of an integer takes 32 bits. -/
def OperandExpr.Narrow : OperandExpr → Prop
  | .int _ bits => bits < Nat.pow 2 32
  | _ => True

namespace Command

def operands : Command → List OperandExpr
  | load _ source => [source]
  | store value dest => [value, dest]
  | binary _ lhs rhs | compare _ lhs rhs => [lhs, rhs]
  | cast _ value _ => [value]
  | phi edges => edges.map Prod.fst
  | condBr cond _ _ => [cond]
  | call _ args => args
  | ret value => value.toList
  | push value => [value]
  | _ => []

/-- Whether the widths of all integers in a command take 32 bits. -/
def Narrow (c : Command) : Prop := ∀ e ∈ c.operands, e.Narrow

end Command

/-- The handles that a directive brings along. -/
def Directive.handles : Directive → Handles
  | .perform a => a.handles
  | .last => {}

namespace Strict

/-- A lowering that looks at entries, or has no result. -/
abbrev Lowering := Guarded ScriptError Workspace

/-- Constants take their payload under a mask, or the entry of their type. -/
def operand : OperandExpr → Lowering Operand
  | .int value bits => do
    let payload ← look fun _ => IR.Strict.truncate bits value
    let v ← liftM (Script.Lowering.change fun ctx => (ctx.intern (.int bits)).constant (.int bits) (.int payload))
    return .value v
  | .float value bits => do
    liftM (Script.Lowering.change fun ctx => ((), ctx.intern (.float (Script.Lowering.floatFormat bits))))
    let _ ← look fun w => IR.Strict.type w.machine.context (.float (Script.Lowering.floatFormat bits))
    let v ← liftM (Script.Lowering.change (·.floating (Script.Lowering.floatFormat bits) value))
    return .value v
  | e => liftM (Script.Lowering.operand e)

def operands : List OperandExpr → Lowering (List Operand)
  | [] => return []
  | e :: es => do
    let o ← operand e
    let os ← operands es
    return o :: os

def edges : List (OperandExpr × TargetExpr) → Lowering (List PhiEdge)
  | [] => return []
  | (v, b) :: es => do
    let v ← operand v
    let b ← liftM (Script.Lowering.target b)
    let es ← edges es
    return ⟨v, b⟩ :: es

def functionNamed (name : String) (span : Span) : Lowering FunctionId := do
  match (← state).machine.builder.module with
  | none => liftM (Script.Lowering.fail .noActiveModule span)
  | some module =>
    match ← look fun w => IR.Strict.findFunction? w.machine.context module name with
    | some f => return f
    | none => liftM (Script.Lowering.fail (.unknownFunction name) span)

def action? (span : Span) : Command → Lowering (Option Action)
  | .use name => do
    let f ← functionNamed name span
    return some (.useFunction f)
  | .load t source => do
    let t ← liftM (Script.Lowering.type t)
    let source ← operand source
    return some (.load t source)
  | .store value dest => do
    let value ← operand value
    let dest ← operand dest
    return some (.store value dest)
  | .binary op lhs rhs => do
    let lhs ← operand lhs
    let rhs ← operand rhs
    return some (.binary op lhs rhs)
  | .compare pred lhs rhs => do
    let lhs ← operand lhs
    let rhs ← operand rhs
    return some (.compare pred lhs rhs)
  | .cast kind value t => do
    let value ← operand value
    let t ← liftM (Script.Lowering.type t)
    return some (.cast kind value t)
  | .phi es => do
    let es ← edges es
    return some (.phi es)
  | .condBr cond onTrue onFalse => do
    let cond ← operand cond
    let onTrue ← liftM (Script.Lowering.target onTrue)
    let onFalse ← liftM (Script.Lowering.target onFalse)
    return some (.condBr cond onTrue onFalse)
  | .call callee args => do
    let args ← operands args
    return some (.call (.named callee) args)
  | .ret (some value) => do
    let value ← operand value
    return some (.ret (some value))
  | .push value => do
    let value ← operand value
    return some (.push value)
  | c => liftM (Script.Lowering.action? span c)

def lower (s : Statement) : Lowering Directive := do
  match ← action? s.span s.command with
  | some a => return .perform a
  | none => return .last

/-! ### Answers -/

section
variable {w : Workspace}

theorem fail_faithful {α : Type} {f : LoweringFault} {span : Span} {P : α → Workspace → Prop} (hw : Intact w) :
    Faithful (liftM (Script.Lowering.fail f span)) (Script.Lowering.fail f span) w P :=
  .lift (.refl hw)

theorem change_faithful {α : Type} {f : Context → α × Context} {P : α → Context → Prop} (hw : Intact w)
    (hb : w.machine.context.Becomes (f w.machine.context).2)
    (hp : P (f w.machine.context).1 (f w.machine.context).2) :
    Faithful (liftM (Script.Lowering.change f)) (Script.Lowering.change f) w fun a w' => P a w'.machine.context :=
  .lift ⟨⟨⟨hb.closed, hb.retains _ hw.known⟩, hb.retains⟩, hp⟩

theorem intern_faithful {t : Ty} (hw : Intact w) (ht : ∀ c ∈ t.components, w.machine.context.HasType c)
    (hn : ∀ width ∈ t.width?, width < Nat.pow 2 32) :
    Faithful (liftM (Script.Lowering.change fun ctx => ((), ctx.intern t)))
      (Script.Lowering.change fun ctx => ((), ctx.intern t)) w fun _ w' => w'.machine.context.HasType t :=
  have h := hw.closed.intern ht hn
  change_faithful (P := fun _ ctx => ctx.HasType t) hw h.1 h.2

theorem internPointers_faithful (n : Nat) {t : Ty} (hw : Intact w) (ht : ∀ c ∈ t.components, w.machine.context.HasType c)
    (hn : ∀ width ∈ t.width?, width < Nat.pow 2 32) :
    Faithful (liftM (Script.Lowering.internPointers n t)) (Script.Lowering.internPointers n t) w fun t w' =>
      w'.machine.context.HasType t := by
  induction n generalizing t w with
  | zero => exact (intern_faithful hw ht hn).lift_bind fun _ w' h ht => .lift ⟨.refl h.intact, ht⟩
  | succ n ih =>
    refine (intern_faithful hw ht hn).lift_bind fun _ w' h ht => ih h.intact ?_ fun _ h => nomatch h
    exact List.forall_mem_singleton.mpr ht

theorem integerWidth?_le {name : String} {bits : Nat} (h : Script.Lowering.integerWidth? name = some bits) : bits ≤ 128 := by
  unfold Script.Lowering.integerWidth? at h
  split at h
  · dsimp only at h
    split at h
    · next hbits =>
      cases h
      exact hbits.2.2.2
    · cases h
  · cases h

theorem width_baseType {name : String} {t : Ty} (h : Script.Lowering.baseType? name = some t) :
    ∀ width ∈ t.width?, width < Nat.pow 2 32 := by
  unfold Script.Lowering.baseType? at h
  split at h
  · cases h; decide
  · cases h; decide
  · cases h; decide
  · cases h; decide
  · cases h; decide
  · cases h; decide
  · obtain ⟨bits, hbits, rfl⟩ := Option.map_eq_some_iff.mp h
    rintro width ⟨⟩
    exact Nat.lt_of_le_of_lt (integerWidth?_le hbits) (by decide)

theorem type_faithful (e : TypeExpr) (hw : Intact w) :
    Faithful (liftM (Script.Lowering.type e)) (Script.Lowering.type e) w fun t w' => w'.machine.context.HasType t := by
  unfold Script.Lowering.type
  cases hb : Script.Lowering.baseType? e.base with
  | none => exact fail_faithful hw
  | some t =>
    dsimp only
    split
    · exact fail_faithful hw
    · have hnone := (Lowers.of_baseType hb).1
      exact internPointers_faithful e.pointers hw (hnone ▸ List.forall_mem_nil _) (width_baseType hb)

theorem types_faithful (es : List TypeExpr) (hw : Intact w) :
    Faithful (liftM (Script.Lowering.types es)) (Script.Lowering.types es) w fun ts w' =>
      ∀ t ∈ ts, w'.machine.context.HasType t := by
  induction es generalizing w with
  | nil => exact .lift ⟨.refl hw, List.forall_mem_nil _⟩
  | cons e es ih =>
    refine (type_faithful e hw).lift_bind fun t w₁ h₁ ht => (ih h₁.intact).lift_bind fun ts w₂ h₂ hts => ?_
    exact .lift ⟨.refl h₂.intact, List.forall_mem_cons.mpr ⟨h₂.retains.hasType ht, hts⟩⟩

theorem operand_faithful {e : OperandExpr} (he : e.Narrow) (hw : Intact w) :
    Faithful (operand e) (Script.Lowering.operand e) w fun o w' => o.Known w'.machine.context := by
  cases e with
  | stack | arg => exact .lift ⟨.refl hw, fun _ h => by cases h⟩
  | var name span =>
    refine .lift ?_
    rw [Script.Lowering.operand, get_bind, ite_run]
    split
    · exact ⟨.refl hw, fun _ h => by cases h⟩
    · exact .refl hw
  | int value bits =>
    obtain ⟨hb, ht⟩ := hw.closed.intern (t := .int bits) (List.forall_mem_nil _) (by rintro _ ⟨⟩; exact he)
    obtain ⟨hb', hv⟩ := hb.closed.constant ht (.int (Word.truncate bits value))
    refine .look (IR.Strict.truncate_eq bits value) ?_
    refine (change_faithful (P := fun v ctx => ctx.HasValue v) hw (hb.trans hb') hv).bind fun v w' h hv => ?_
    exact .pure h.intact (by rintro _ ⟨⟩; exact hv)
  | float value bits =>
    let format := Script.Lowering.floatFormat bits
    have first := intern_faithful (t := .float format) hw (List.forall_mem_nil _) fun _ h => by cases h
    refine .congr rfl (first.bind (g := fun _ => Script.Lowering.change (·.floating format value) >>= fun v =>
      Pure.pure (Operand.value v)) fun _ w₁ h₁ ht => .look (IR.Strict.type_eq ht) ?_)
    obtain ⟨hb, hv⟩ := h₁.intact.closed.constant ht (.float (if format = .single then Binary.roundToSingle value else value))
    refine (change_faithful (P := fun v ctx => ctx.HasValue v) h₁.intact hb hv).bind fun v w₂ h₂ hv => ?_
    exact .pure h₂.intact (by rintro _ ⟨⟩; exact hv)

theorem operands_faithful {es : List OperandExpr} (hes : ∀ e ∈ es, e.Narrow) (hw : Intact w) :
    Faithful (operands es) (Script.Lowering.operands es) w fun os w' => ∀ o ∈ os, o.Known w'.machine.context := by
  induction es generalizing w with
  | nil => exact .pure hw (List.forall_mem_nil _)
  | cons e es ih =>
    obtain ⟨he, hes⟩ := List.forall_mem_cons.mp hes
    refine (operand_faithful he hw).bind fun o w₁ h₁ ho => (ih hes h₁.intact).bind fun os w₂ h₂ hos => ?_
    exact .pure h₂.intact (List.forall_mem_cons.mpr ⟨Build.Strict.retained ho h₂.retains, hos⟩)

theorem knownBlock_faithful (name : String) (span : Span) (hw : Intact w) :
    Faithful (liftM (Script.Lowering.knownBlock name span)) (Script.Lowering.knownBlock name span) w fun _ _ => True := by
  refine .lift ?_
  rw [Script.Lowering.knownBlock, get_bind, ite_run]
  split
  · exact ⟨.refl hw, trivial⟩
  · exact .refl hw

/-- Targets bring no handles along. -/
theorem target_faithful (e : TargetExpr) (hw : Intact w) :
    Faithful (liftM (Script.Lowering.target e)) (Script.Lowering.target e) w fun t _ => t.block? = none := by
  cases e with
  | named name span =>
    exact (knownBlock_faithful name span hw).lift_bind fun _ w' h _ => .lift ⟨.refl h.intact, rfl⟩
  | next n => exact .lift ⟨.refl hw, rfl⟩

theorem edges_faithful {es : List (OperandExpr × TargetExpr)} (hes : ∀ e ∈ es.map Prod.fst, e.Narrow) (hw : Intact w) :
    Faithful (edges es) (Script.Lowering.edges es) w fun ps w' =>
      ∀ p ∈ ps, p.value.Known w'.machine.context ∧ p.block.block? = none := by
  induction es generalizing w with
  | nil => exact .pure hw (List.forall_mem_nil _)
  | cons e es ih =>
    obtain ⟨he, hes⟩ := List.forall_mem_cons.mp hes
    refine (operand_faithful he hw).bind fun v w₁ h₁ hv => (target_faithful e.2 h₁.intact).bind fun b w₂ h₂ hb => ?_
    refine (ih hes h₂.intact).bind fun ps w₃ h₃ hps => .pure h₃.intact ?_
    exact List.forall_mem_cons.mpr ⟨⟨Build.Strict.retained hv (h₂.trans h₃).retains, hb⟩, hps⟩

theorem functionNamed_faithful (name : String) (span : Span) (hw : Intact w) :
    Faithful (functionNamed name span) (Script.Lowering.functionNamed name span) w fun f w' =>
      w'.machine.context.HasFunction f := by
  refine .get (.look rfl ?_)
  dsimp only
  cases hk : w.machine.builder.module with
  | none => exact fail_faithful hw
  | some k =>
    have hmodule : w.machine.context.HasModule k :=
      hw.known.modules k (List.mem_append_right _ (Option.mem_toList.mpr hk))
    refine .look (IR.Strict.findFunction?_eq hw.closed hmodule name) ?_
    dsimp only
    cases hf : w.machine.context.findFunction? k name with
    | none => exact fail_faithful hw
    | some f => exact .pure hw (IR.Strict.hasFunction_of_find hw.closed hmodule hf)

/-- A module that was not mentioned before is made. -/
theorem moduleNamed_faithful (name : String) (hw : Intact w) :
    Faithful (liftM (Script.Lowering.moduleNamed name)) (Script.Lowering.moduleNamed name) w fun m w' =>
      w'.machine.context.HasModule m := by
  refine .lift ?_
  rw [Script.Lowering.moduleNamed, get_bind]
  cases hm : w.names.modules.lookup name with
  | some m =>
    obtain ⟨before, rest, hnames, _⟩ := List.lookup_eq_some_iff.mp hm
    have hin : (name, m) ∈ w.names.modules := by simp [hnames]
    have hin : m ∈ w.names.modules.map Prod.snd := List.mem_map_of_mem hin
    exact ⟨.refl hw, hw.known.modules m (List.mem_append_left _ (List.mem_append_left _ hin))⟩
  | none =>
    obtain ⟨hb, hnew⟩ := hw.closed.addModule name
    have known := hb.retains _ hw.known
    refine ⟨⟨⟨hb.closed, { known with modules := fun m hm => ?_ }⟩, hb.retains⟩, hnew⟩
    -- The new module is in the table and in the list.
    have hcases : m = (w.machine.context.addModule name).1 ∨
        m ∈ (w.names.modules.map Prod.snd ++ w.names.moduleOrder) ++ w.machine.builder.handles.modules := by
      change m ∈ ((w.machine.context.addModule name).1 :: w.names.modules.map Prod.snd ++
        (w.names.moduleOrder ++ [(w.machine.context.addModule name).1])) ++ w.machine.builder.handles.modules at hm
      simp only [List.mem_append, List.mem_cons, List.not_mem_nil, or_false] at hm ⊢
      tauto
    rcases hcases with rfl | hm
    · exact hnew
    · exact known.modules m hm

/-! ### Commands -/

/-- Actions on operands have known handles when their types and operands are known. -/
theorem knows_action {ctx : Context} {a : Action} (hf : a.functions = []) (hm : a.modules = [])
    (hts : ∀ t ∈ a.types, ctx.HasType t) (hos : ∀ o ∈ a.operands, Operand.Known ctx o)
    (hbs : ∀ t ∈ a.targets, Target.block? t = none) : ctx.Knows a.handles where
  types := hts
  values v hv := by
    obtain ⟨o, ho, hv⟩ := List.mem_filterMap.mp hv
    exact hos o ho v hv
  blocks b hb := by
    obtain ⟨t, ht, hb⟩ := List.mem_filterMap.mp hb
    rw [hbs t ht] at hb
    cases hb
  functions f h := absurd (hf ▸ h : f ∈ []) List.not_mem_nil
  modules m h := absurd (hm ▸ h : m ∈ []) List.not_mem_nil
  nodes := List.forall_mem_nil _

/-- The action of a command has known handles, if there is one. -/
abbrev Asks (x : Lowering (Option Action)) (f : Script.Lowering (Option Action)) (w : Workspace) : Prop :=
  Faithful x f w fun a? w' => ∀ a ∈ a?, w'.machine.context.Knows a.handles

theorem asks_pure {a : Action} (hw : Intact w) (h : w.machine.context.Knows a.handles) :
    Asks (pure (some a)) (pure (some a)) w :=
  .pure hw (by rintro _ ⟨⟩; exact h)

theorem asks_lift {a : Action} (hw : Intact w) (h : w.machine.context.Knows a.handles) :
    Asks (liftM (pure (some a) : Script.Lowering (Option Action))) (pure (some a)) w :=
  .lift ⟨.refl hw, by rintro _ ⟨⟩; exact h⟩

/-- Two operands, the first of which is lowered first. -/
private theorem pair_faithful {l r : OperandExpr} {g : Operand → Operand → Action} (hl : l.Narrow) (hr : r.Narrow)
    (hw : Intact w) (hk : ∀ ctx o p, Operand.Known ctx o → Operand.Known ctx p → Context.Knows ctx (g o p).handles) :
    Asks (operand l >>= fun o => operand r >>= fun p => Pure.pure (some (g o p)))
      (Script.Lowering.operand l >>= fun o => Script.Lowering.operand r >>= fun p => Pure.pure (some (g o p))) w := by
  refine (operand_faithful hl hw).bind fun o w₁ h₁ ho => (operand_faithful hr h₁.intact).bind fun p w₂ h₂ hp => ?_
  exact asks_pure h₂.intact (hk _ o p (Build.Strict.retained ho h₂.retains) hp)

theorem updateNames_faithful {f : Names → Names} (hw : Intact w) (hf : (f w.names).modules = w.names.modules)
    (ho : (f w.names).moduleOrder = w.names.moduleOrder) :
    Faithful (liftM (Script.Lowering.updateNames f)) (Script.Lowering.updateNames f) w fun _ w' =>
      w'.machine = w.machine := by
  have known := hw.known
  refine .lift ⟨⟨⟨hw.closed, { known with modules := ?_ }⟩, .refl _⟩, rfl⟩
  change ∀ m ∈ ((f w.names).modules.map Prod.snd ++ (f w.names).moduleOrder) ++ _, _
  rw [hf, ho]
  exact known.modules

theorem action?_faithful {span : Span} {c : Command} (hn : c.Narrow) (hw : Intact w) :
    Asks (action? span c) (Script.Lowering.action? span c) w := by
  have narrow {e : OperandExpr} (he : e ∈ c.operands) : e.Narrow := hn e he
  cases c with
  | «module» name =>
    refine (moduleNamed_faithful name hw).lift_bind fun m w₁ h₁ hm => asks_lift h₁.intact ?_
    exact { Context.knows_nothing with modules := List.forall_mem_singleton.mpr hm }
  | function name result params variadic =>
    refine (type_faithful result hw).lift_bind fun t w₁ h₁ ht => ?_
    refine (types_faithful params h₁.intact).lift_bind fun ts w₂ h₂ hts => asks_lift h₂.intact ?_
    have hts := List.forall_mem_cons.mpr ⟨h₂.retains.hasType ht, hts⟩
    exact knows_action rfl rfl hts (List.forall_mem_nil _) (List.forall_mem_nil _)
  | use name =>
    refine (functionNamed_faithful name span hw).bind fun f w₁ h₁ hf => asks_pure h₁.intact ?_
    exact Context.knows_function.mpr hf
  | block name => exact (updateNames_faithful hw rfl rfl).lift_bind fun _ w₁ h₁ _ => asks_lift h₁.intact Context.knows_nothing
  | setBlock name =>
    exact (knownBlock_faithful name span hw).lift_bind fun _ w₁ h₁ _ => asks_lift h₁.intact Context.knows_nothing
  | alloc t name =>
    cases name with
    | none =>
      exact (type_faithful t hw).lift_bind fun t w₁ h₁ ht => asks_lift h₁.intact (Context.knows_type.mpr ht)
    | some name =>
      refine (type_faithful t hw).lift_bind fun t w₁ h₁ ht => ?_
      refine (updateNames_faithful h₁.intact rfl rfl).lift_bind fun _ w₂ h₂ _ => ?_
      exact asks_lift h₂.intact (Context.knows_type.mpr (h₂.retains.hasType ht))
  | load t source =>
    refine (type_faithful t hw).bind fun t w₁ h₁ ht => ?_
    refine (operand_faithful (narrow (.head _)) h₁.intact).bind fun o w₂ h₂ ho => asks_pure h₂.intact ?_
    exact knows_action rfl rfl (List.forall_mem_singleton.mpr (h₂.retains.hasType ht)) (List.forall_mem_singleton.mpr ho)
      (List.forall_mem_nil _)
  | store value dest =>
    refine pair_faithful (g := .store) (narrow (.head _)) (narrow (.tail _ (.head _))) hw fun ctx o p ho hp => ?_
    exact knows_action rfl rfl (List.forall_mem_nil _) (List.forall_mem_cons.mpr ⟨ho, List.forall_mem_singleton.mpr hp⟩)
      (List.forall_mem_nil _)
  | binary op lhs rhs =>
    refine pair_faithful (g := .binary op) (narrow (.head _)) (narrow (.tail _ (.head _))) hw fun ctx o p ho hp => ?_
    exact knows_action rfl rfl (List.forall_mem_nil _) (List.forall_mem_cons.mpr ⟨ho, List.forall_mem_singleton.mpr hp⟩)
      (List.forall_mem_nil _)
  | compare pred lhs rhs =>
    refine pair_faithful (g := .compare pred) (narrow (.head _)) (narrow (.tail _ (.head _))) hw fun ctx o p ho hp => ?_
    exact knows_action rfl rfl (List.forall_mem_nil _) (List.forall_mem_cons.mpr ⟨ho, List.forall_mem_singleton.mpr hp⟩)
      (List.forall_mem_nil _)
  | cast kind value t =>
    refine (operand_faithful (narrow (.head _)) hw).bind fun o w₁ h₁ ho => ?_
    refine (type_faithful t h₁.intact).bind fun t w₂ h₂ ht => asks_pure h₂.intact ?_
    exact knows_action rfl rfl (List.forall_mem_singleton.mpr ht)
      (List.forall_mem_singleton.mpr (Build.Strict.retained ho h₂.retains)) (List.forall_mem_nil _)
  | phi es =>
    refine (edges_faithful hn hw).bind fun ps w₁ h₁ hps => asks_pure h₁.intact ?_
    exact knows_action rfl rfl (List.forall_mem_nil _) (List.forall_mem_map.mpr fun p hp => (hps p hp).1)
      (List.forall_mem_map.mpr fun p hp => (hps p hp).2)
  | condBr cond onTrue onFalse =>
    refine (operand_faithful (narrow (.head _)) hw).bind fun o w₁ h₁ ho => ?_
    refine (target_faithful onTrue h₁.intact).bind fun t w₂ h₂ ht => ?_
    refine (target_faithful onFalse h₂.intact).bind fun f w₃ h₃ hf => asks_pure h₃.intact ?_
    exact knows_action rfl rfl (List.forall_mem_nil _)
      (List.forall_mem_singleton.mpr (Build.Strict.retained ho (h₂.trans h₃).retains))
      (List.forall_mem_cons.mpr ⟨ht, List.forall_mem_singleton.mpr hf⟩)
  | br dest =>
    refine (target_faithful dest hw).lift_bind fun t w₁ h₁ ht => asks_lift h₁.intact ?_
    exact knows_action rfl rfl (List.forall_mem_nil _) (List.forall_mem_nil _) (List.forall_mem_singleton.mpr ht)
  | call callee args =>
    refine (operands_faithful hn hw).bind fun os w₁ h₁ hos => asks_pure h₁.intact ?_
    exact knows_action rfl rfl (List.forall_mem_nil _) hos (List.forall_mem_nil _)
  | ret value =>
    cases value with
    | none => exact asks_lift hw Context.knows_nothing
    | some value =>
      refine (operand_faithful (narrow (.head _)) hw).bind fun o w₁ h₁ ho => asks_pure h₁.intact ?_
      exact knows_action rfl rfl (List.forall_mem_nil _) (List.forall_mem_singleton.mpr ho) (List.forall_mem_nil _)
  | push value =>
    refine (operand_faithful (narrow (.head _)) hw).bind fun o w₁ h₁ ho => asks_pure h₁.intact ?_
    exact knows_action rfl rfl (List.forall_mem_nil _) (List.forall_mem_singleton.mpr ho) (List.forall_mem_nil _)
  | pop count => exact asks_lift hw Context.knows_nothing
  | keepStack => exact asks_lift hw Context.knows_nothing
  | inspect => exact asks_lift hw Context.knows_nothing
  | last => exact Faithful.lift ⟨.refl hw, nofun⟩

theorem lower_faithful {s : Statement} (hn : s.command.Narrow) (hw : Intact w) :
    Faithful (lower s) s.lower w fun d w' => w'.machine.context.Knows d.handles := by
  refine (action?_faithful hn hw).bind fun a? w₁ h₁ ha => ?_
  cases a? with
  | some a => exact .pure h₁.intact (ha a rfl)
  | none => exact .pure h₁.intact Context.knows_nothing

end
end Strict
end StackAssembler.Script
