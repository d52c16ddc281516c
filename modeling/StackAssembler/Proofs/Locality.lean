import StackAssembler.Proofs.Coherence
import StackAssembler.Proofs.Footprint
import StackAssembler.Proofs.Reachability

/-! What an action leaves of the texts of functions and modules. Only the function that it works on gets another text. -/
namespace StackAssembler.IR

/-- A function has the blocks that it had, and these have the same instructions. -/
structure Spares (c d : Context) (f : FunctionId) : Prop where
  function : d.function f = c.function f
  lists : ∀ b ∈ (c.function f).blocks, (d.block b).instructions = (c.block b).instructions

namespace Within
variable {p : Footprint} {c d : Context} (h : Within p c d) (he : c.Extends d) (hc : Coherent c)
include h he hc

/-! ### Instructions -/

theorem nameText (s : Spelling) {v : ValueId} (hv : c.HasValue v) : d.nameText s v = c.nameText s v := by
  simp only [Context.nameText, h.value hv]
  split
  · rfl
  · next f hk =>
    have hf : c.HasFunction f := hc.owned v f (Or.inl hk)
    rw [(he.function hf).rest]
  · rfl
  · rfl

theorem operandText (s : Spelling) {v : ValueId} (hv : c.HasValue v) : d.operandText s v = c.operandText s v := by
  rw [Context.operandText, Context.operandText, he.typeOf hv, h.nameText he hc s hv]

omit h hc in
theorem labelText (s : Spelling) {b : BlockId} (hb : c.HasBlock b) : d.labelText s b = c.labelText s b := by
  simp only [Context.labelText, Context.blockLabel, (he.block hb).name]

theorem operationText (s : Spelling) (t : Ty) {op : Operation} (hop : c.Knows op.handles) :
    d.operationText s t op = c.operationText s t op := by
  have operand : ∀ v ∈ op.operands, d.operandText s v = c.operandText s v := fun v hv =>
    h.operandText he hc s (hop.values v hv)
  have name : ∀ v ∈ op.operands, d.nameText s v = c.nameText s v := fun v hv => h.nameText he hc s (hop.values v hv)
  have label : ∀ b ∈ op.targets, d.labelText s b = c.labelText s b := fun b hb => labelText he s (hop.blocks b hb)
  cases op with
  | alloca => rfl
  | load p => simp only [Context.operationText, operand p (.head _)]
  | store v p => simp only [Context.operationText, operand v (.head _), operand p (.tail _ (.head _))]
  | binary _ l r | icmp _ l r | fcmp _ l r =>
    simp only [Context.operationText, operand l (.head _), name r (.tail _ (.head _))]
  | cast _ v => simp only [Context.operationText, operand v (.head _)]
  | phi incoming =>
    have edges : ∀ edge ∈ incoming, "[ " ++ d.nameText s edge.1 ++ ", " ++ d.labelText s edge.2 ++ " ]" =
        "[ " ++ c.nameText s edge.1 ++ ", " ++ c.labelText s edge.2 ++ " ]" := fun edge hedge => by
      rw [name edge.1 (List.mem_map_of_mem hedge), label edge.2 (List.mem_map_of_mem hedge)]
    simp only [Context.operationText, List.map_congr_left edges]
  | br dest => simp only [Context.operationText, label dest (.head _)]
  | condBr v t f =>
    simp only [Context.operationText, operand v (.head _), label t (.head _), label f (.tail _ (.head _))]
  | call f args =>
    have hf : c.HasFunction f := hop.functions f (by simp [Operation.handles, Operation.callee?])
    have callee : (d.function f).name = (c.function f).name := by rw [(he.function hf).rest]
    have list : args.map (d.operandText s) = args.map (c.operandText s) := List.map_congr_left operand
    rw [Context.operationText, Context.operationText, callee, list]
  | ret v =>
    cases v with
    | none => rfl
    | some v => simp only [Context.operationText, operand v (.head _)]

/-- The line of an instruction that a block lists. -/
theorem instructionText (s : Spelling) {b : BlockId} {v : ValueId} (hv : v ∈ (c.block b).instructions) :
    d.instructionText s v = c.instructionText s v := by
  obtain ⟨hknown, op, hk, hop⟩ := hc.listed hv
  simp only [Context.instructionText, he.typeOf hknown, h.value hknown, Value.operation?, hk,
    h.operationText he hc s _ hop, h.nameText he hc s hknown]

omit he hc in
theorem attachmentText (order : List NodeId) (v : ValueId) : d.attachmentText order v = c.attachmentText order v := by
  rw [Context.attachmentText, Context.attachmentText, Context.attachmentsOf, Context.attachmentsOf, h.attachments]

/-! ### Functions -/

theorem blockSites {b : BlockId} (hb : c.HasBlock b) (hl : (d.block b).instructions = (c.block b).instructions) :
    d.blockSites b = c.blockSites b := by
  have known : ∀ v ∈ (c.block b).instructions.toList, c.HasValue v := fun v hv =>
    (hc.listed (Array.mem_toList_iff.mp hv)).1
  rw [Context.blockSites, Context.blockSites, (he.block hb).name, hl,
    List.filter_congr fun v hv => by rw [he.typeOf (known v hv)]]
  refine congrArg _ (List.map_congr_left fun v hv => ?_)
  rw [h.value (known v (List.mem_of_mem_filter hv))]

theorem spelling {f : FunctionId} (hf : c.HasFunction f) (hs : Spares c d f) : d.spelling f = c.spelling f := by
  have args : ∀ v ∈ (c.function f).args, (Site.value v, (d.value v).name) = (Site.value v, (c.value v).name) :=
    fun v hv => by rw [h.value (hc.hasValue_arg hf hv)]
  have blocks : ∀ b ∈ (c.function f).blocks.toList, d.blockSites b = c.blockSites b := fun b hb => by
    have hb := Array.mem_toList_iff.mp hb
    exact h.blockSites he hc (hc.hasBlock hb) (hs.lists b hb)
  rw [Context.spelling, Context.spelling, Context.sites, Context.sites, hs.function, List.map_congr_left args,
    List.flatMap_congr blocks]

theorem blockText (s : Spelling) (order : List NodeId) {b : BlockId}
    (hl : (d.block b).instructions = (c.block b).instructions) : d.blockText s order b = c.blockText s order b := by
  have line : ∀ v ∈ (c.block b).instructions.toList,
      "  " ++ d.instructionText s v ++ d.attachmentText order v ++ "\n" =
        "  " ++ c.instructionText s v ++ c.attachmentText order v ++ "\n" := fun v hv => by
    rw [h.instructionText he hc s (Array.mem_toList_iff.mp hv), h.attachmentText]
  rw [Context.blockText, Context.blockText, hl, List.map_congr_left line]

theorem headingText (s : Spelling) (order : List NodeId) {f : FunctionId} (hf : c.HasFunction f) :
    d.headingText s order (c.function f) = c.headingText s order (c.function f) := by
  have args : ∀ v ∈ (c.function f).args, d.operandText s v = c.operandText s v := fun v hv =>
    h.operandText he hc s (hc.hasValue_arg hf hv)
  rw [Context.headingText, Context.headingText, Context.parameterText, Context.parameterText,
    List.map_congr_left args, h.attachmentText]

theorem functionText (order : List NodeId) {f : FunctionId} (hf : c.HasFunction f) (hs : Spares c d f) :
    d.functionText order f = c.functionText order f := by
  have blocks : ∀ b ∈ (c.function f).blocks.toList,
      d.blockText (c.spelling f) order b = c.blockText (c.spelling f) order b := fun b hb =>
    h.blockText he hc _ order (hs.lists b (Array.mem_toList_iff.mp hb))
  simp only [Context.functionText, hs.function, h.spelling he hc hf hs, h.headingText he hc _ order hf,
    List.map_congr_left blocks]

/-! ### Metadata -/

omit he hc in
theorem attachedNodes {f : FunctionId} (hs : Spares c d f) : d.attachedNodes f = c.attachedNodes f := by
  have lists : ∀ b ∈ (c.function f).blocks.toList, (d.block b).instructions.toList = (c.block b).instructions.toList :=
    fun b hb => by rw [hs.lists b (Array.mem_toList_iff.mp hb)]
  rw [Context.attachedNodes, Context.attachedNodes, Context.carriers, Context.carriers, hs.function,
    List.flatMap_congr lists]
  simp only [Context.attachmentsOf, h.attachments]

omit he hc in
theorem followReferences (fuel i : Nat) (order : List NodeId) :
    d.followReferences fuel i order = c.followReferences fuel i order := by
  induction fuel generalizing i order with
  | zero => rfl
  | succ fuel ih => simp only [Context.followReferences, Context.nodeReferences, Context.node, h.nodes, ih]

omit he hc in
theorem nodeOrder {fs : List FunctionId} (hs : ∀ f ∈ fs, Spares c d f) : d.nodeOrder fs = c.nodeOrder fs := by
  rw [Context.nodeOrder, Context.nodeOrder, h.nodes, List.flatMap_congr fun f hf => h.attachedNodes (hs f hf),
    h.followReferences]

theorem nodeTable (s : Spelling) (order : List NodeId) : d.nodeTable s order = c.nodeTable s order := by
  have operand : ∀ k, ∀ o ∈ c.node k, d.nodeOperandText s order o = c.nodeOperandText s order o := fun k o ho => by
    cases o with
    | value v => exact h.operandText he hc s ((hc.attached.operands k _ ho).values v (.head _))
    | _ => rfl
  have text : ∀ k, d.nodeText s order k = c.nodeText s order k := fun k => by
    rw [Context.nodeText, Context.nodeText, Context.node, h.nodes, ← Context.node, List.map_congr_left (operand k)]
  unfold Context.nodeTable
  rw [funext text]

/-! ### Whole texts -/

/-- A function that is spared has the same text. -/
theorem printFunction {f : FunctionId} (hf : c.HasFunction f) (hs : Spares c d f) :
    d.printFunction f = c.printFunction f := by
  have order : d.nodeOrder [f] = c.nodeOrder [f] := h.nodeOrder fun g hg => List.mem_singleton.mp hg ▸ hs
  simp only [Context.printFunction, order, h.functionText he hc _ hf hs, h.spelling he hc hf hs, h.nodeTable he hc]

theorem finalSpelling {fs : List FunctionId} (hs : ∀ f ∈ fs, c.HasFunction f ∧ Spares c d f) :
    d.finalSpelling fs = c.finalSpelling fs := by
  unfold Context.finalSpelling
  cases hl : fs.getLast? with
  | none => rfl
  | some f =>
    obtain ⟨hf, hs⟩ := hs f (List.mem_of_getLast? hl)
    exact h.spelling he hc hf hs

/-- A module whose functions are all spared, and that gets no more, has the same text. -/
theorem printModule {k : ModuleId} (hk : d.module k = c.module k)
    (hs : ∀ f ∈ (c.module k).functions, Spares c d f) : d.printModule k = c.printModule k := by
  have spared : ∀ f ∈ (c.module k).functions.toList, c.HasFunction f ∧ Spares c d f := fun f hf => by
    have hf := Array.mem_toList_iff.mp hf
    exact ⟨((hc.registered.listed k f).mp hf).1, hs f hf⟩
  have order : d.nodeOrder (c.module k).functions.toList = c.nodeOrder (c.module k).functions.toList :=
    h.nodeOrder fun f hf => (spared f hf).2
  have text : ∀ f ∈ (c.module k).functions.toList,
      "\n" ++ d.functionText (c.nodeOrder (c.module k).functions.toList) f =
        "\n" ++ c.functionText (c.nodeOrder (c.module k).functions.toList) f := fun f hf => by
    rw [h.functionText he hc _ (spared f hf).1 (spared f hf).2]
  unfold Context.printModule
  dsimp only
  rw [hk, order, List.map_congr_left text, h.finalSpelling he hc spared, h.nodeTable he hc]

end Within
end StackAssembler.IR

namespace StackAssembler.Build
open IR

/-- Whether an action works on a function: instructions come to a block of the function at which the builder stands,
or the function is active and a block is to be created. -/
def Machine.Alters (m : Machine) (a : Action) (f : FunctionId) : Prop :=
  (a.emits ∧ ∃ b, m.builder.position = some b ∧ (m.context.block b).function = some f ∧
    ((after a.execute m).context.block b).instructions ≠ (m.context.block b).instructions) ∨
  (∃ name, a = .createBlock name) ∧ m.builder.activeFunction? = some f

namespace Machine
variable {m : Machine} {a : Action}

theorem block_footprint {b : BlockId} (h : (m.footprint a).block = some b) : a.emits ∧ m.builder.position = some b := by
  cases a with
  | createBlock | createFunction | setBlock | useFunction | useModule | push | pop | keepStack | inspect => cases h
  | _ => exact ⟨rfl, h⟩

theorem function_footprint {f : FunctionId} (h : (m.footprint a).function = some f) :
    (∃ name, a = .createBlock name) ∧ m.builder.activeFunction? = some f := by
  cases a with
  | createBlock name => exact ⟨⟨name, rfl⟩, h⟩
  | _ => cases h

theorem module_footprint {k : ModuleId} (h : (m.footprint a).module = some k) :
    (∃ spec, a = .createFunction spec) ∧ m.builder.module = some k := by
  cases a with
  | createFunction spec => exact ⟨⟨spec, rfl⟩, h⟩
  | _ => cases h

/-- A function that an action does not work on keeps its blocks and their instructions. -/
theorem Sound.spares (hs : m.Sound) (ha : Adopted m.context) (hk : m.context.Knows a.handles) {f : FunctionId}
    (hf : m.context.HasFunction f) (hn : ¬ m.Alters a f) : Spares m.context (after a.execute m).context f := by
  have within := hs.within hk
  constructor
  · exact within.functions f hf fun hp => hn (Or.inr (function_footprint hp))
  · intro b hb
    by_cases hp : (m.footprint a).block = some b
    · obtain ⟨he, hb'⟩ := block_footprint hp
      by_contra hne
      exact hn (Or.inl ⟨he, b, hb', (ha.listed f b).mp hb, hne⟩)
    · exact within.instructions b hp

end Machine

/-- An action changes the text of no function but the one that it works on, whether or not it fails. An action that
neither emits nor creates a block changes the text of none that is there. The text of a module stays the same unless
one of its functions is worked on, or it gets a new one. -/
theorem Reachable.execute_local {m : Machine} {a : Action} (hm : Reachable m) (hk : m.context.Knows a.handles) :
    (∀ f, m.context.HasFunction f → ¬ m.Alters a f →
      (after a.execute m).context.printFunction f = m.context.printFunction f) ∧
    (a.emits = false → (∀ name, a ≠ .createBlock name) → ∀ f, m.context.HasFunction f →
      (after a.execute m).context.printFunction f = m.context.printFunction f) ∧
    ∀ k, (∀ f, m.Alters a f → (m.context.function f).module ≠ k) →
      (∀ spec, a = .createFunction spec → m.builder.module ≠ some k) →
      (after a.execute m).context.printModule k = m.context.printModule k := by
  obtain ⟨layout, hl⟩ := hm.leads
  have coherent := (Coherent.empty layout).evolve hl.evolves
  have within := hl.sound.within hk
  have keeps : m.context.Extends (after a.execute m).context := (hl.sound.command (c := .perform a) hk).evolves.keeps
  have text : ∀ f, m.context.HasFunction f → ¬ m.Alters a f →
      (after a.execute m).context.printFunction f = m.context.printFunction f := fun f hf hn =>
    within.printFunction keeps coherent hf (hl.sound.spares coherent.adopted hk hf hn)
  refine ⟨text, fun he hc f hf => text f hf ?_, fun k hn hnew => ?_⟩
  · rintro (⟨he', _⟩ | ⟨⟨name, ha⟩, _⟩)
    · rw [he] at he'
      cases he'
    · exact hc name ha
  · have same : (after a.execute m).context.module k = m.context.module k := within.modules k fun hp => by
      obtain ⟨⟨spec, ha⟩, hmod⟩ := Machine.module_footprint hp
      exact hnew spec ha hmod
    refine within.printModule keeps coherent same fun f hf => ?_
    obtain ⟨hf, hmod⟩ := (coherent.registered.listed k f).mp hf
    exact hl.sound.spares coherent.adopted hk hf fun ha => hn f ha hmod

/-- A module with a function, and a second one for which there is only a block yet. -/
def Command.annex : List Command :=
  Command.double ++ [.request (.addModule "n"), .restart, .perform (.useModule ⟨1⟩), .perform (.createBlock "head")]

def Machine.annex : Machine := Machine.runAll {} Command.annex

/-- A function in the second module takes up the block, and the texts of the first module and its function stay. -/
theorem Reachable.execute_local_annex :
    let a : Action := .createFunction ⟨"late", .int 32, [], false⟩
    (Machine.annex.context.block ⟨1⟩).function = none ∧
      ((after a.execute Machine.annex).context.block ⟨1⟩).function = some ⟨1⟩ ∧
      (after a.execute Machine.annex).context.printFunction ⟨0⟩ = Machine.annex.context.printFunction ⟨0⟩ ∧
      (after a.execute Machine.annex).context.printModule ⟨0⟩ = Machine.annex.context.printModule ⟨0⟩ := by
  intro a
  have hm : Reachable Machine.annex := ⟨{}, .of_permits Command.annex (by decide +kernel)⟩
  obtain ⟨_, text, module⟩ := hm.execute_local (a := a) (by decide +kernel)
  have hc : ∀ name, a ≠ .createBlock name := nofun
  refine ⟨by decide +kernel, by decide +kernel, text rfl hc ⟨0⟩ (by decide +kernel), module ⟨0⟩ ?_ ?_⟩
  · rintro f (⟨he, _⟩ | ⟨⟨name, he⟩, _⟩)
    · cases he
    · exact absurd he (hc name)
  · intro spec _
    decide +kernel

end StackAssembler.Build
