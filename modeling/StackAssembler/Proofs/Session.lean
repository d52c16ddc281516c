import StackAssembler.Proofs.Request
import StackAssembler.Proofs.Steps

/-! Sessions: what clients do with a context and a builder on it, in any order, with the handles that the
context gave them. -/
namespace StackAssembler.Build
open IR

/-! ### Handles -/

def Operand.value? : Operand → Option ValueId
  | .value v => some v
  | _ => none

def Target.block? : Target → Option BlockId
  | .block b => some b
  | _ => none

def Callee.function? : Callee → Option FunctionId
  | .function f => some f
  | _ => none

namespace Action

def types : Action → List Ty
  | alloc t _ | load t _ | cast _ _ t => [t]
  | createFunction spec => spec.result :: spec.params
  | _ => []

def functions : Action → List FunctionId
  | call callee _ => callee.function?.toList
  | useFunction f => [f]
  | _ => []

def modules : Action → List ModuleId
  | useModule m => [m]
  | _ => []

/-- The handles that an action brings along. -/
def handles (a : Action) : Handles where
  types := a.types
  values := a.operands.filterMap Operand.value?
  blocks := a.targets.filterMap Target.block?
  functions := a.functions
  modules := a.modules

end Action

/-- An operand that is a value is one of the context. -/
def Operand.Known (ctx : Context) (o : Operand) : Prop := ∀ v ∈ o.value?, ctx.HasValue v

/-- A target that is a block is one of the context. -/
def Target.Known (ctx : Context) (t : Target) : Prop := ∀ b ∈ t.block?, ctx.HasBlock b

theorem Operand.Known.mono {ctx ctx' : Context} {o : Operand} (h : o.Known ctx) (he : Evolves ctx ctx') :
    o.Known ctx' :=
  fun v hv => he.keeps.hasValue (h v hv)

theorem Target.Known.mono {ctx ctx' : Context} {t : Target} (h : t.Known ctx) (he : Evolves ctx ctx') :
    t.Known ctx' :=
  fun b hb => he.keeps.hasBlock (h b hb)

theorem Action.known_operand {ctx : Context} {a : Action} (h : ctx.Knows a.handles) {o : Operand}
    (ho : o ∈ a.operands) : o.Known ctx :=
  fun v hv => h.values v (List.mem_filterMap.mpr ⟨o, ho, hv⟩)

theorem Action.known_target {ctx : Context} {a : Action} (h : ctx.Knows a.handles) {t : Target}
    (ht : t ∈ a.targets) : t.Known ctx :=
  fun b hb => h.blocks b (List.mem_filterMap.mpr ⟨t, ht, hb⟩)

/-- The handles that a builder remembers. -/
def Builder.handles (b : Builder) : Handles where
  values := b.vars.map Prod.snd ++ b.stack
  blocks := b.position.toList ++ (b.blocks.pairs.map Prod.snd ++ b.blockOrder)
  functions := b.functions
  modules := b.module.toList

namespace Builder
variable {ctx : Context} {b : Builder}

/-- The blocks of the table are known. -/
theorem hasBlock_pair (h : ctx.Knows b.handles) : ∀ p ∈ b.blocks.pairs, ctx.HasBlock p.2 := fun _ hp =>
  h.blocks _ (List.mem_append_right _ (List.mem_append_left _ (List.mem_map_of_mem hp)))

/-- The blocks of the order are known. -/
theorem hasBlock_order (h : ctx.Knows b.handles) : ∀ c ∈ b.blockOrder, ctx.HasBlock c := fun c hc =>
  h.blocks c (List.mem_append_right _ (List.mem_append_right _ hc))

end Builder

/-- What a client may do next. -/
inductive Command where
  | request (r : Request)
  | emit (at? : Option BlockId) (e : Emission)
  | perform (a : Action)
  | last
  /-- Go on with a new builder. -/
  | restart

namespace Command

def run (m : Machine) : Command → Machine
  | request r => { m with context := r.run m.context }
  | emit at? e => { m with context := after (e.run at?) m.context }
  | perform a => after a.execute m
  | last => after Step.pop m
  | restart => { m with builder := {} }

def handles : Command → Handles
  | request r => r.handles
  | emit at? e => { e.handles with blocks := at?.toList ++ e.handles.blocks }
  | perform a => a.handles
  | last | restart => {}

end Command

/-- The machines that commands with known handles lead to, whether or not the commands fail. -/
inductive Session (m : Machine) : Machine → Prop where
  | done : Session m m
  | step {m' : Machine} (c : Command) : Session m m' → m'.context.Knows c.handles → Session m (c.run m')

/-- The machines that come of an empty context. -/
def Reachable (m : Machine) : Prop := ∃ layout : DataLayout, Session ⟨{ layout := layout }, {}⟩ m

/-! ### Lists of commands -/

def Machine.runAll (m : Machine) (cs : List Command) : Machine := cs.foldl Command.run m

/-- Whether each command of a list only has handles that the context knows when its turn comes. -/
def Machine.Permits : Machine → List Command → Prop
  | _, [] => True
  | m, c :: cs => m.context.Knows c.handles ∧ (c.run m).Permits cs

instance Machine.decidablePermits : (m : Machine) → (cs : List Command) → Decidable (m.Permits cs)
  | _, [] => isTrue trivial
  | m, c :: cs =>
    have := decidablePermits (c.run m) cs
    inferInstanceAs (Decidable (m.context.Knows c.handles ∧ (c.run m).Permits cs))

theorem Session.trans {m m' m'' : Machine} (h : Session m m') (k : Session m' m'') : Session m m'' := by
  induction k with
  | done => exact h
  | step c _ hk ih => exact ih.step c hk

theorem Session.of_permits {m : Machine} (cs : List Command) (h : m.Permits cs) : Session m (m.runAll cs) := by
  induction cs generalizing m with
  | nil => exact .done
  | cons c cs ih => exact (Session.step c .done h.1).trans (ih h.2)

end StackAssembler.Build
