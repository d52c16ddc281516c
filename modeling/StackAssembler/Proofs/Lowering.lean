import StackAssembler.Script.Directive
import StackAssembler.Proofs.Constants
import StackAssembler.Proofs.Refusal

/-! What lowering a statement does to the workspace, and what the action is that it comes to. -/
namespace StackAssembler.IR

/-- A type that a script can write, or of a value that it can name. There are no bare functions and no pointers to
void among them. -/
structure Ty.Ordinary (t : Ty) : Prop where
  data : t.isFunction = false
  pointee : t.pointee? ≠ some .void

namespace Context

/-- Values were added, all of them numbers. -/
def AddsNumbers (ctx ctx' : Context) : Prop :=
  ∃ added : List Value, ctx'.values = ctx.values ++ added.toArray ∧
    ∀ x ∈ added, (∃ c, x.kind = .constant c) ∧ (x.type.isInteger ∨ x.type.isFloat)

theorem AddsNumbers.of_eq {ctx ctx' : Context} (h : ctx'.values = ctx.values) : ctx.AddsNumbers ctx' :=
  ⟨[], by simp [h], List.forall_mem_nil _⟩

theorem AddsNumbers.trans {ctx ctx' ctx'' : Context} (h : ctx.AddsNumbers ctx') (k : ctx'.AddsNumbers ctx'') :
    ctx.AddsNumbers ctx'' := by
  obtain ⟨xs, hxs, hx⟩ := h
  obtain ⟨ys, hys, hy⟩ := k
  refine ⟨xs ++ ys, by simp [hys, hxs], ?_⟩
  rw [List.forall_mem_append]
  exact ⟨hx, hy⟩

theorem AddsNumbers.values {ctx ctx' : Context} (h : ctx.AddsNumbers ctx') :
    ctx.values.toList <+: ctx'.values.toList := by
  obtain ⟨xs, hxs, _⟩ := h
  exact ⟨xs, by simp [hxs]⟩

end Context
end StackAssembler.IR

namespace StackAssembler.Script
open IR Build

/-- Errors of a build that no script can run into. -/
def ScriptError.isPrecluded : ScriptError → Bool
  | build cause _ => cause.isPrecluded
  | _ => false

/-- Types, constants or modules may have come into the context. The names are the same, and so is the builder. -/
structure Workspace.Edited (w w' : Workspace) : Prop where
  names : w'.names = w.names
  builder : w'.machine.builder = w.machine.builder
  evolves : Evolves w.machine.context w'.machine.context
  numbers : w.machine.context.AddsNumbers w'.machine.context
  blocks : w'.machine.context.blocks = w.machine.context.blocks
  functions : w'.machine.context.functions = w.machine.context.functions

namespace Workspace.Edited
variable {w w' w'' : Workspace}

theorem refl (w : Workspace) : w.Edited w := ⟨rfl, rfl, .refl _, .of_eq rfl, rfl, rfl⟩

theorem trans (h : w.Edited w') (k : w'.Edited w'') : w.Edited w'' :=
  ⟨k.names.trans h.names, k.builder.trans h.builder, h.evolves.trans k.evolves, h.numbers.trans k.numbers,
    k.blocks.trans h.blocks, k.functions.trans h.functions⟩

end Workspace.Edited

/-! ### What fits a workspace -/

structure TypeFits (w : Workspace) (t : Ty) : Prop where
  known : w.machine.context.HasType t
  ordinary : t.Ordinary

/-- The value of an operand is a constant that is known, and the variable that it names is one of the script. -/
structure OperandFits (w : Workspace) (o : Operand) : Prop where
  known : o.Known w.machine.context
  literal : ∀ v ∈ o.value?, ∃ c, (w.machine.context.value v).kind = .constant c
  named : ∀ name ∈ o.name?, name ∈ w.names.vars

structure TargetFits (w : Workspace) (t : Target) : Prop where
  known : t.Known w.machine.context
  named : ∀ name ∈ t.name?, name ∈ w.names.blocks

/-- The handles of an action are known, what it names are names of the script, and its phi has edges. -/
structure ActionFits (w : Workspace) (a : Action) : Prop where
  types : ∀ t ∈ a.types, TypeFits w t
  operands : ∀ o ∈ a.operands, OperandFits w o
  targets : ∀ t ∈ a.targets, TargetFits w t
  functions : ∀ f ∈ a.functions, w.machine.context.HasFunction f
  modules : ∀ m ∈ a.modules, w.machine.context.HasModule m
  goto : ∀ name, a = .setBlock name → name ∈ w.names.blocks
  edges : a ≠ .phi []

/-- An action that brings along no functions and modules. -/
theorem ActionFits.simple {w : Workspace} {a : Action} (types : ∀ t ∈ a.types, TypeFits w t)
    (operands : ∀ o ∈ a.operands, OperandFits w o) (targets : ∀ t ∈ a.targets, TargetFits w t)
    (functions : a.functions = []) (modules : a.modules = []) (goto : ∀ name, a ≠ .setBlock name)
    (edges : a ≠ .phi []) : ActionFits w a :=
  ⟨types, operands, targets, by simp [functions], by simp [modules], fun name h => absurd h (goto name), edges⟩

theorem TypeFits.mono {w w' : Workspace} {t : Ty} (h : TypeFits w t) (he : w.Edited w') : TypeFits w' t :=
  ⟨he.evolves.keeps.hasType h.known, h.ordinary⟩

theorem OperandFits.mono {w w' : Workspace} {o : Operand} (h : OperandFits w o) (he : w.Edited w') :
    OperandFits w' o where
  known := h.known.mono he.evolves
  literal v hv := by
    rw [he.evolves.keeps.kind (h.known v hv)]
    exact h.literal v hv
  named := by
    rw [he.names]
    exact h.named

theorem TargetFits.mono {w w' : Workspace} {t : Target} (h : TargetFits w t) (he : w.Edited w') : TargetFits w' t :=
  ⟨h.known.mono he.evolves, by rw [he.names]; exact h.named⟩

theorem ActionFits.knows {w : Workspace} {a : Action} (h : ActionFits w a) : w.machine.context.Knows a.handles where
  types t ht := (h.types t ht).known
  values v hv := by
    obtain ⟨o, ho, hov⟩ := List.mem_filterMap.mp hv
    exact (h.operands o ho).known v hov
  blocks b hb := by
    obtain ⟨t, ht, htb⟩ := List.mem_filterMap.mp hb
    exact (h.targets t ht).known b htb
  functions := h.functions
  modules := h.modules
  nodes _ h := absurd h List.not_mem_nil

/-- A stretch of lowering that only edits the context. -/
def Lowers {α : Type} (w : Workspace) (P : α → Workspace → Prop) (r : EStateM.Result ScriptError Workspace α) :
    Prop :=
  Yields r (fun a w' => w.Edited w' ∧ P a w') fun e => e.isPrecluded = false

namespace Lowers
variable {α β : Type} {w : Workspace} {P : α → Workspace → Prop} {Q : β → Workspace → Prop}

theorem bind {x : Lowering α} {f : α → Lowering β} (h : Lowers w P (x w))
    (k : ∀ a w', w.Edited w' → P a w' → Lowers w' Q (f a w')) : Lowers w Q ((x >>= f) w) := by
  refine Yields.bind h fun a w' ⟨he, ha⟩ => ?_
  exact (k a w' he ha).mono fun b w'' ⟨he', hb⟩ => ⟨he.trans he', hb⟩

theorem pure {a : α} (h : P a w) : Lowers w P ((Pure.pure a : Lowering α) w) := ⟨.refl w, h⟩

theorem fail {f : LoweringFault} {span : Span} : Lowers w P ((Lowering.fail f span : Lowering α) w) := rfl

/-- An edit of the context alone. -/
theorem change {f : Context → α × Context} (he : Evolves w.machine.context (f w.machine.context).2)
    (hv : w.machine.context.AddsNumbers (f w.machine.context).2)
    (hb : (f w.machine.context).2.blocks = w.machine.context.blocks)
    (hf : (f w.machine.context).2.functions = w.machine.context.functions)
    (h : P (f w.machine.context).1 { w with machine.context := (f w.machine.context).2 }) :
    Lowers w P (Lowering.change f w) :=
  ⟨⟨rfl, rfl, he, hv, hb, hf⟩, h⟩

theorem intern {t : Ty} (ht : ∀ c ∈ t.components, w.machine.context.HasType c) :
    Lowers w (fun _ w' => w'.machine.context.HasType t) (Lowering.change (fun ctx => ((), ctx.intern t)) w) := by
  have he : Evolves w.machine.context (w.machine.context.intern t) := .intern ht
  refine change he ?_ ?_ ?_ ?_
  · refine .of_eq ?_
    dsimp only
    unfold Context.intern
    split <;> rfl
  · dsimp only
    unfold Context.intern
    split <;> rfl
  · dsimp only
    unfold Context.intern
    split <;> rfl
  · dsimp only
    unfold Context.intern Context.HasType
    split
    · assumption
    · simp

theorem internPointers (n : Nat) {t : Ty} (ht : ∀ c ∈ t.components, w.machine.context.HasType c) (ho : t.Ordinary)
    (hv : t = .void → n = 0) : Lowers w (fun t w' => TypeFits w' t) (Lowering.internPointers n t w) := by
  induction n generalizing t w with
  | zero => exact (intern ht).bind fun _ w' _ h => .pure ⟨h, ho⟩
  | succ n ih =>
    have hp : (Ty.pointer t 0).Ordinary := ⟨rfl, fun he => nomatch hv (Option.some.inj he)⟩
    exact (intern ht).bind fun _ w' _ h => ih (by simpa [Ty.components] using h) hp nofun

/-- The names of types stand for types that are made of no others, and for no functions. -/
theorem of_baseType {name : String} {t : Ty} (h : Lowering.baseType? name = some t) :
    t.components = [] ∧ t.Ordinary := by
  unfold Lowering.baseType? at h
  split at h
  · cases h; exact ⟨rfl, rfl, nofun⟩
  · cases h; exact ⟨rfl, rfl, nofun⟩
  · cases h; exact ⟨rfl, rfl, nofun⟩
  · cases h; exact ⟨rfl, rfl, nofun⟩
  · cases h; exact ⟨rfl, rfl, nofun⟩
  · cases h; exact ⟨rfl, rfl, nofun⟩
  · obtain ⟨bits, _, rfl⟩ := Option.map_eq_some_iff.mp h
    exact ⟨rfl, rfl, nofun⟩

theorem type (e : TypeExpr) : Lowers w (fun t w' => TypeFits w' t) (Lowering.type e w) := by
  unfold Lowering.type
  cases hb : Lowering.baseType? e.base with
  | none => exact fail
  | some t =>
    dsimp only
    split
    · exact fail
    · next hv =>
      obtain ⟨hc, ho⟩ := of_baseType hb
      refine internPointers e.pointers (by simp [hc]) ho fun hvoid => ?_
      by_contra hn
      exact hv ⟨by rw [hvoid]; rfl, hn⟩

theorem types (es : List TypeExpr) :
    Lowers w (fun ts w' => ∀ t ∈ ts, TypeFits w' t) (Lowering.types es w) := by
  induction es generalizing w with
  | nil => exact pure (List.forall_mem_nil _)
  | cons e es ih =>
    refine (type e).bind fun t w₁ _ ht => ih.bind fun ts w₂ h₂ hts => ?_
    exact pure (List.forall_mem_cons.mpr ⟨ht.mono h₂, hts⟩)

/-! ### Operands and targets -/

/-- Interning a type of numbers and making a constant of it. -/
private theorem literal {t : Ty} {c : Constant} (ht : t.isInteger ∨ t.isFloat) (hc : c.Fits t) :
    Lowers w (fun v w' => OperandFits w' (.value v))
      (Lowering.change (fun ctx => (ctx.intern t).constant t c) w) := by
  have hvalues : (w.machine.context.intern t).values = w.machine.context.values := by
    unfold Context.intern
    split <;> rfl
  have hcomponents : t.components = [] := by
    cases t <;> first | rfl | simp [Ty.isInteger, Ty.isFloat] at ht
  have hi : Evolves w.machine.context (w.machine.context.intern t) := .intern (by simp [hcomponents])
  have hk : Evolves (w.machine.context.intern t) _ ∧ _ := Evolves.constant hc
  have hconstant := (w.machine.context.intern t).hasConstant_constant t c
  refine change (hi.trans hk.1) ?_ ?_ ?_ ⟨?_, ?_, ?_⟩
  · rcases (w.machine.context.intern t).constant_cases t c with ⟨hsame, _⟩ | hnew
    · exact .of_eq (by rw [hsame, hvalues])
    · exact ⟨[⟨t, none, .constant c⟩], by simp [hnew, hvalues], List.forall_mem_singleton.mpr ⟨⟨c, rfl⟩, ht⟩⟩
  · unfold Context.constant Context.intern
    split <;> split <;> rfl
  · unfold Context.constant Context.intern
    split <;> split <;> rfl
  · intro v hv
    cases hv
    exact hconstant.there
  · intro v hv
    cases hv
    exact ⟨c, hconstant.kind⟩
  · intro name hn
    cases hn

theorem operand (e : OperandExpr) : Lowers w (fun o w' => OperandFits w' o) (Lowering.operand e w) := by
  cases e with
  | stack => exact pure ⟨nofun, nofun, nofun⟩
  | var name span =>
    rw [Lowering.operand, get_bind, ite_run]
    split
    · next hn => exact pure ⟨nofun, nofun, by simpa [Operand.name?] using hn⟩
    · exact fail
  | arg index => exact pure ⟨nofun, nofun, nofun⟩
  | int value bits =>
    exact (literal (t := .int bits) (.inl rfl) (Constant.fits_truncate bits value)).bind fun v w' _ hv => pure hv
  | float value bits =>
    exact (literal (t := .float (Lowering.floatFormat bits)) (.inr rfl) (by rfl)).bind fun v w' _ hv => pure hv

theorem operands (es : List OperandExpr) :
    Lowers w (fun os w' => ∀ o ∈ os, OperandFits w' o) (Lowering.operands es w) := by
  induction es generalizing w with
  | nil => exact pure (List.forall_mem_nil _)
  | cons e es ih =>
    refine (operand e).bind fun o w₁ _ ho => ih.bind fun os w₂ h₂ hos => ?_
    exact pure (List.forall_mem_cons.mpr ⟨ho.mono h₂, hos⟩)

theorem knownBlock (name : String) (span : Span) :
    Lowers w (fun _ w' => w' = w ∧ name ∈ w.names.blocks) (Lowering.knownBlock name span w) := by
  rw [Lowering.knownBlock, get_bind, ite_run]
  split
  · next hn => exact pure ⟨rfl, hn⟩
  · exact fail

theorem target (e : TargetExpr) : Lowers w (fun t w' => TargetFits w' t) (Lowering.target e w) := by
  cases e with
  | named name span =>
    refine (knownBlock name span).bind fun _ w' _ ⟨hw, hn⟩ => ?_
    subst hw
    exact pure ⟨nofun, by simpa [Target.name?] using hn⟩
  | next n => exact pure ⟨nofun, nofun⟩

theorem edges (es : List (OperandExpr × TargetExpr)) :
    Lowers w (fun ps w' => ps.length = es.length ∧ ∀ p ∈ ps, OperandFits w' p.value ∧ TargetFits w' p.block)
      (Lowering.edges es w) := by
  induction es generalizing w with
  | nil => exact pure ⟨rfl, List.forall_mem_nil _⟩
  | cons e es ih =>
    refine (operand e.1).bind fun v w₁ _ hv => (target e.2).bind fun b w₂ h₂ hb => ?_
    refine ih.bind fun ps w₃ h₃ ⟨hlen, hps⟩ => pure ⟨congrArg (· + 1) hlen, ?_⟩
    exact List.forall_mem_cons.mpr ⟨⟨hv.mono (h₂.trans h₃), hb.mono h₃⟩, hps⟩

theorem functionNamed (name : String) (span : Span) (hs : w.machine.Sound) :
    Lowers w (fun f w' => w'.machine.context.HasFunction f) (Lowering.functionNamed name span w) := by
  rw [Lowering.functionNamed, get_bind]
  cases w.machine.builder.module with
  | none => exact fail
  | some module =>
    dsimp only
    cases hf : w.machine.context.findFunction? module name with
    | none => exact fail
    | some f => exact pure (hs.registered.hasFunction_of_find hf)

end Lowers

/-! ### Commands -/

/-- The module that a command mentions. -/
def Command.module? : Command → Option String
  | module name => some name
  | _ => none

/-- The table of modules has the names that were mentioned, each once. In the order in which they first were, it leads
from them to the modules that are listed, each of which is listed once. Different names have different modules, each with
the name as its own. -/
structure Tabled (w : Workspace) (mentioned : List String) : Prop where
  keys : (w.names.modules.map Prod.fst).Perm mentioned.eraseDups
  listed : mentioned.eraseDups.map (w.names.modules.lookup ·) = w.names.moduleOrder.map some
  once : w.names.moduleOrder.Nodup
  named : ∀ p ∈ w.names.modules, w.machine.context.HasModule p.2 ∧ (w.machine.context.module p.2).name = p.1

namespace Tabled
variable {w w' : Workspace} {mentioned : List String} {name : String}

theorem mono (h : Tabled w mentioned) (hn : w'.names.modules = w.names.modules)
    (ho : w'.names.moduleOrder = w.names.moduleOrder)
    (he : Evolves w.machine.context w'.machine.context) : Tabled w' mentioned := by
  refine ⟨by rw [hn]; exact h.keys, by rw [hn, ho]; exact h.listed, by rw [ho]; exact h.once, fun p hp => ?_⟩
  obtain ⟨hm, hname⟩ := h.named p (hn ▸ hp)
  exact ⟨he.keeps.hasModule hm, (he.keeps.modules.getD hm default).name.trans hname⟩

/-- A command that mentions no module. -/
theorem unmentioned (h : Tabled w mentioned) {c : Command} (hm : c.module? = none) :
    Tabled w (mentioned ++ c.module?.toList) := by
  rw [hm, Option.toList_none, List.append_nil]
  exact h

/-- A name is in the table once it was mentioned. -/
theorem lookup_eq_none (h : Tabled w mentioned) : w.names.modules.lookup name = none ↔ name ∉ mentioned := by
  rw [← List.mem_eraseDups, ← h.keys.mem_iff, List.lookup_eq_none_iff, List.mem_map]
  constructor
  · rintro hl ⟨p, hp, rfl⟩
    simpa using hl p hp
  · intro hn p hp
    simpa using fun he => hn ⟨p, hp, he.symm⟩

/-- What the table leads to has the name that it was looked up by. -/
theorem named_lookup (h : Tabled w mentioned) {m : ModuleId} (hm : w.names.modules.lookup name = some m) :
    w.machine.context.HasModule m ∧ (w.machine.context.module m).name = name := by
  obtain ⟨before, rest, hmods, _⟩ := List.lookup_eq_some_iff.mp hm
  exact h.named (name, m) (by simp [hmods])

/-- Different names have different modules. -/
theorem injective (h : Tabled w mentioned) {other : String} {m : ModuleId} (hm : w.names.modules.lookup name = some m)
    (hother : w.names.modules.lookup other = some m) : name = other :=
  (h.named_lookup hm).2.symm.trans (h.named_lookup hother).2

theorem hasModule (h : Tabled w mentioned) {m : ModuleId} (hm : m ∈ w.names.moduleOrder) :
    w.machine.context.HasModule m := by
  have hin : some m ∈ mentioned.eraseDups.map (w.names.modules.lookup ·) := h.listed ▸ List.mem_map_of_mem hm
  obtain ⟨name, _, hname⟩ := List.mem_map.mp hin
  exact (h.named_lookup hname).1

/-- A name that was mentioned before. -/
theorem again (h : Tabled w mentioned) (hin : name ∈ mentioned) : Tabled w (mentioned ++ [name]) := by
  have same : (mentioned ++ [name]).eraseDups = mentioned.eraseDups := by
    rw [List.eraseDups_append]
    simp [List.removeAll, hin]
  exact ⟨by rw [same]; exact h.keys, by rw [same]; exact h.listed, h.once, h.named⟩

/-- A name that is mentioned for the first time. -/
theorem new (h : Tabled w mentioned) (hout : name ∉ mentioned)
    (hn : w'.names.modules = (name, ⟨w.machine.context.modules.size⟩) :: w.names.modules)
    (ho : w'.names.moduleOrder = w.names.moduleOrder ++ [⟨w.machine.context.modules.size⟩])
    (hc : w'.machine.context = (w.machine.context.addModule name).2) : Tabled w' (mentioned ++ [name]) := by
  have he : Evolves w.machine.context w'.machine.context := by
    rw [hc]
    exact .single .module
  have longer : (mentioned ++ [name]).eraseDups = mentioned.eraseDups ++ [name] := by
    rw [List.eraseDups_append]
    simp [List.removeAll, hout, List.eraseDups_cons]
  constructor
  · rw [hn, longer, List.map_cons]
    exact (h.keys.cons name).trans (List.perm_append_singleton name _).symm
  · -- The names that were mentioned before are looked up behind the new entry.
    have old : mentioned.eraseDups.map (w'.names.modules.lookup ·) = mentioned.eraseDups.map (w.names.modules.lookup ·) := by
      refine List.map_congr_left fun other hin => ?_
      have hne : (other == name) = false := beq_false_of_ne fun he => hout (he ▸ List.mem_eraseDups.mp hin)
      rw [hn, List.lookup_cons, hne]
    rw [longer, List.map_append, old, h.listed, ho, List.map_append, hn]
    simp
  · rw [ho, List.nodup_append]
    refine ⟨h.once, List.nodup_singleton _, fun m hm k hk heq => ?_⟩
    have hlt : m.index < w.machine.context.modules.size := h.hasModule hm
    rw [heq, List.mem_singleton.mp hk] at hlt
    exact Nat.lt_irrefl _ hlt
  · intro p hp
    rw [hn, List.mem_cons] at hp
    rcases hp with rfl | hp
    · rw [hc]
      refine ⟨by simp [Context.HasModule, Context.addModule], ?_⟩
      rw [Context.addModule, Context.module, getD_push, if_pos rfl]
    · obtain ⟨hm, hname⟩ := h.named p hp
      exact ⟨he.keeps.hasModule hm, (he.keeps.modules.getD hm default).name.trans hname⟩

end Tabled

/-- What lowering a command leaves: the names that it introduces are noted, before the action is performed. -/
structure Lowered (w : Workspace) (mentioned : List String) (c : Command) (a : Action) (w' : Workspace) :
    Prop where
  builder : w'.machine.builder = w.machine.builder
  evolves : Evolves w.machine.context w'.machine.context
  numbers : w.machine.context.AddsNumbers w'.machine.context
  blocks : w'.machine.context.blocks = w.machine.context.blocks
  functions : w'.machine.context.functions = w.machine.context.functions
  fits : ActionFits { w' with names := w.names } a
  varNames : w'.names.vars = a.newVar?.toList ++ w.names.vars
  blockNames : w'.names.blocks = a.newBlock?.toList ++ w.names.blocks
  modules : Tabled w' (mentioned ++ c.module?.toList)

/-- What a command asks for: an action, or the final value. -/
def Asks (w : Workspace) (mentioned : List String) (c : Command) (a? : Option Action) (w' : Workspace) : Prop :=
  match a? with
  | some a => Lowered w mentioned c a w'
  | none => c.module? = none ∧ w' = w

namespace Lowers
variable {w : Workspace} {mentioned : List String}

/-- An action that introduces no names. -/
private theorem asks {c : Command} {r : EStateM.Result ScriptError Workspace (Option Action)} (ht : Tabled w mentioned)
    (hm : c.module? = none)
    (h : Lowers w (fun a? w' => ∃ a, a? = some a ∧ ActionFits w' a ∧ a.newVar? = none ∧ a.newBlock? = none) r) :
    Yields r (Asks w mentioned c) fun e => e.isPrecluded = false := by
  refine Yields.mono h fun a? w' ⟨he, a, ha, hf, hv, hb⟩ => ?_
  subst ha
  refine ⟨he.builder, he.evolves, he.numbers, he.blocks, he.functions, ?_, ?_, ?_, ?_⟩
  · rw [← he.names]
    exact hf
  · rw [hv, he.names]
    rfl
  · rw [hb, he.names]
    rfl
  · exact (ht.mono (by rw [he.names]) (by rw [he.names]) he.evolves).unmentioned hm

/-- A module that is mentioned for the first time is created. -/
private theorem module (ht : Tabled w mentioned) (name : String) :
    Yields (Lowering.moduleNamed name w) (fun m w' => Lowered w mentioned (.module name) (.useModule m) w')
      fun e => e.isPrecluded = false := by
  have fits {w' : Workspace} {m : ModuleId} (hm : w'.machine.context.HasModule m) : ActionFits w' (.useModule m) :=
    { types := nofun, operands := nofun, targets := nofun, functions := nofun, goto := nofun, edges := nofun
      modules := by simpa [Action.modules] using hm }
  rw [Lowering.moduleNamed, get_bind]
  cases hl : w.names.modules.lookup name with
  | some m =>
    have hmentioned : name ∈ mentioned := by
      by_contra hn
      rw [ht.lookup_eq_none.mpr hn] at hl
      cases hl
    exact ⟨rfl, .refl _, .of_eq rfl, rfl, rfl, fits (ht.named_lookup hl).1, rfl, rfl, ht.again hmentioned⟩
  | none =>
    have hnew : (w.machine.context.addModule name).2.HasModule ⟨w.machine.context.modules.size⟩ := by
      simp [Context.HasModule, Context.addModule]
    exact ⟨rfl, .single .module, .of_eq rfl, rfl, rfl, fits hnew, rfl, rfl,
      ht.new (ht.lookup_eq_none.mp hl) rfl rfl rfl⟩

private theorem one {α : Type} {P : α → Prop} {x : α} (hx : P x) : ∀ z ∈ [x], P z := List.forall_mem_singleton.mpr hx

private theorem two {α : Type} {P : α → Prop} {x y : α} (hx : P x) (hy : P y) : ∀ z ∈ [x, y], P z :=
  List.forall_mem_cons.mpr ⟨hx, one hy⟩

/-- Lowering a command that is not a phi without edges. -/
theorem action (hs : w.machine.Sound) (ht : Tabled w mentioned) (span : Span) {c : Command} (hp : c ≠ .phi []) :
    Yields (Lowering.action? span c w) (Asks w mentioned c) fun e => e.isPrecluded = false := by
  cases c with
  | module name => exact (module ht name).bind fun m w' h => h
  | function name result params variadic =>
    refine asks ht rfl ((type result).bind fun r w₁ _ hr => (types params).bind fun ps w₂ h₂ hps => pure ?_)
    exact ⟨_, rfl, .simple (List.forall_mem_cons.mpr ⟨hr.mono h₂, hps⟩) nofun nofun rfl rfl nofun
      nofun, rfl, rfl⟩
  | use name =>
    refine asks ht rfl ((functionNamed name span hs).bind fun f w₁ _ hf => pure ⟨_, rfl, ?_, rfl, rfl⟩)
    exact ⟨nofun, nofun, nofun, by simpa [Action.functions] using hf, nofun, nofun, nofun⟩
  | block name =>
    have noted : Tabled { w with names.blocks := name :: w.names.blocks } mentioned := ht.mono rfl rfl (.refl _)
    exact ⟨rfl, .refl _, .of_eq rfl, rfl, rfl, .simple nofun nofun nofun rfl rfl nofun nofun, rfl, rfl,
      noted.unmentioned (c := .block name) rfl⟩
  | setBlock name =>
    refine asks ht rfl ((knownBlock name span).bind fun _ w₁ _ ⟨hw, hn⟩ => pure ⟨_, rfl, ?_, rfl, rfl⟩)
    refine ⟨nofun, nofun, nofun, nofun, nofun, fun other he => ?_, nofun⟩
    cases he
    rw [hw]
    exact hn
  | alloc t name =>
    cases name with
    | none =>
      refine asks ht rfl ((type t).bind fun t w₁ _ ht => pure ⟨_, rfl, ?_, rfl, rfl⟩)
      exact .simple (one ht) nofun nofun rfl rfl nofun nofun
    | some name =>
      refine Yields.bind (type t) fun t w₁ ⟨he, htype⟩ => ?_
      have hn : w₁.names = w.names := he.names
      have noted : Tabled { w₁ with names.vars := name :: w₁.names.vars } mentioned :=
        ht.mono (by rw [← hn]) (by rw [← hn]) he.evolves
      refine ⟨he.builder, he.evolves, he.numbers, he.blocks, he.functions, ?_, ?_, ?_, ?_⟩
      · exact .simple (one ⟨htype.known, htype.ordinary⟩) nofun nofun rfl rfl nofun nofun
      · change name :: w₁.names.vars = _
        rw [hn]
        rfl
      · change w₁.names.blocks = _
        rw [hn]
        rfl
      · exact noted.unmentioned (c := .alloc _ (some name)) rfl
  | load t source =>
    refine asks ht rfl ((type t).bind fun t w₁ _ ht => (operand source).bind fun p w₂ h₂ hp => pure ?_)
    exact ⟨_, rfl, .simple (one (ht.mono h₂)) (one hp) nofun rfl rfl nofun nofun, rfl, rfl⟩
  | store value dest =>
    refine asks ht rfl ((operand value).bind fun v w₁ _ hv => (operand dest).bind fun d w₂ h₂ hd => pure ?_)
    exact ⟨_, rfl, .simple nofun (two (hv.mono h₂) hd) nofun rfl rfl nofun nofun, rfl, rfl⟩
  | binary op lhs rhs =>
    refine asks ht rfl ((operand lhs).bind fun l w₁ _ hl => (operand rhs).bind fun r w₂ h₂ hr => pure ?_)
    exact ⟨_, rfl, .simple nofun (two (hl.mono h₂) hr) nofun rfl rfl nofun nofun, rfl, rfl⟩
  | compare pred lhs rhs =>
    refine asks ht rfl ((operand lhs).bind fun l w₁ _ hl => (operand rhs).bind fun r w₂ h₂ hr => pure ?_)
    exact ⟨_, rfl, .simple nofun (two (hl.mono h₂) hr) nofun rfl rfl nofun nofun, rfl, rfl⟩
  | cast kind value t =>
    refine asks ht rfl ((operand value).bind fun v w₁ _ hv => (type t).bind fun t w₂ h₂ htype => pure ?_)
    exact ⟨_, rfl, .simple (one htype) (one (hv.mono h₂)) nofun rfl rfl nofun nofun, rfl, rfl⟩
  | phi es =>
    refine asks ht rfl ((edges es).bind fun ps w₁ _ ⟨hlen, hps⟩ => pure ⟨_, rfl, ?_, rfl, rfl⟩)
    refine .simple nofun (List.forall_mem_map.mpr fun p h => (hps p h).1)
      (List.forall_mem_map.mpr fun p h => (hps p h).2) rfl rfl nofun fun he => hp ?_
    -- As many edges are lowered as there are.
    rw [Action.phi.inj he] at hlen
    rw [List.eq_nil_of_length_eq_zero hlen.symm]
  | condBr cond onTrue onFalse =>
    refine asks ht rfl ((operand cond).bind fun c w₁ _ hc => (target onTrue).bind fun t w₂ h₂ ht => ?_)
    refine (target onFalse).bind fun f w₃ h₃ hf => pure ⟨_, rfl, ?_, rfl, rfl⟩
    exact .simple nofun (one (hc.mono (h₂.trans h₃))) (two (ht.mono h₃) hf) rfl rfl nofun nofun
  | br dest =>
    refine asks ht rfl ((target dest).bind fun d w₁ _ hd => pure ⟨_, rfl, ?_, rfl, rfl⟩)
    exact .simple nofun nofun (one hd) rfl rfl nofun nofun
  | call callee args =>
    refine asks ht rfl ((operands args).bind fun os w₁ _ hos => pure ⟨_, rfl, ?_, rfl, rfl⟩)
    exact .simple nofun hos nofun rfl rfl nofun nofun
  | ret value =>
    cases value with
    | none => exact asks ht rfl (pure ⟨_, rfl, .simple nofun nofun nofun rfl rfl nofun nofun, rfl, rfl⟩)
    | some e =>
      refine asks ht rfl ((operand e).bind fun o w₁ _ ho => pure ⟨_, rfl, ?_, rfl, rfl⟩)
      exact .simple nofun (one ho) nofun rfl rfl nofun nofun
  | push value =>
    refine asks ht rfl ((operand value).bind fun o w₁ _ ho => pure ⟨_, rfl, ?_, rfl, rfl⟩)
    exact .simple nofun (one ho) nofun rfl rfl nofun nofun
  | pop | keepStack | inspect =>
    exact asks ht rfl (pure ⟨_, rfl, .simple nofun nofun nofun rfl rfl nofun nofun, rfl, rfl⟩)
  | last => exact ⟨rfl, rfl⟩

end Lowers

end StackAssembler.Script
