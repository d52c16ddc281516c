import Mathlib.Logic.Relation
import StackAssembler.Proofs.FunctionNames
import StackAssembler.Proofs.StrictPrinter

/-! The numbering of metadata nodes, and the table that defines them. Writing a line of the table may refer to further
nodes, which get lines of their own behind those that are known by then. -/
namespace StackAssembler.IR

/-- The nodes that are attached are there. -/
def Anchored (ctx : Context) : Prop := ∀ a ∈ ctx.attachments, ctx.HasNode a.node

namespace Anchored
variable {ctx ctx' : Context}

theorem empty (layout : DataLayout) : Anchored { layout := layout } := fun _ h => absurd h (Array.not_mem_empty _)

theorem step (ha : Anchored ctx) (h : Change ctx ctx') : Anchored ctx' := by
  have keeps := h.keeps
  cases h with
  | attachment _ hn =>
    intro a hin
    rcases Array.mem_push.mp hin with hin | rfl
    · exact ha a hin
    · exact hn
  | @reattachment i n hn =>
    intro a hin
    rcases Context.mem_modify (f := fun a : Attachment => { a with node := n }) hin with hin | ⟨_, _, rfl⟩
    · exact ha a hin
    · exact hn
  | _ => exact fun a hin => keeps.hasNode (ha a hin)

theorem evolve (ha : Anchored ctx) (h : Evolves ctx ctx') : Anchored ctx' := h.preserves step ha

end Anchored

namespace Context
variable {ctx : Context} {s : Spelling} {order final : List NodeId} {i : Nat} {n : NodeId}

/-! ### Numbers -/

/-- The nodes in the order in which they are first referred to. -/
theorem refer_eraseDups (refs : List NodeId) (n : NodeId) : refer refs.eraseDups n = (refs ++ [n]).eraseDups := by
  rw [refer, List.eraseDups_append]
  by_cases hn : n ∈ refs <;> simp [List.removeAll, hn, List.eraseDups_cons]

theorem foldl_refer_eraseDups (refs ns : List NodeId) : ns.foldl refer refs.eraseDups = (refs ++ ns).eraseDups := by
  induction ns generalizing refs with
  | nil => rw [List.foldl_nil, List.append_nil]
  | cons n ns ih => rw [List.foldl_cons, refer_eraseDups, ih, List.append_assoc, List.singleton_append]

theorem prefix_refer (order : List NodeId) (n : NodeId) : order <+: refer order n := by
  unfold refer
  split
  · exact List.prefix_rfl
  · exact List.prefix_append _ _

theorem prefix_foldl_refer (order ns : List NodeId) : order <+: ns.foldl refer order := by
  induction ns generalizing order with
  | nil => exact List.prefix_rfl
  | cons n ns ih => exact (prefix_refer order n).trans (ih _)

theorem mem_refer {m : NodeId} : m ∈ refer order n ↔ m ∈ order ∨ m = n := by
  unfold refer
  split
  · next hn => exact ⟨.inl, fun h => h.elim id (· ▸ hn)⟩
  · rw [List.mem_append, List.mem_singleton]

theorem mem_foldl_refer {ns : List NodeId} {m : NodeId} : m ∈ ns.foldl refer order ↔ m ∈ order ∨ m ∈ ns := by
  induction ns generalizing order with
  | nil => simp
  | cons n ns ih => rw [List.foldl_cons, ih, mem_refer, List.mem_cons, or_assoc]

/-- A number stands when more nodes are entered. -/
theorem nodeNumber_grows (h : order <+: final) (hn : n ∈ order) : nodeNumber final n = nodeNumber order n := by
  obtain ⟨more, rfl⟩ := h
  rw [nodeNumber, nodeNumber, List.idxOf_append_of_mem hn]

theorem nodeNumber_of_getElem? (hn : order.Nodup) (h : order[i]? = some n) :
    nodeNumber order n = "!" ++ toString i := by
  obtain ⟨hi, rfl⟩ := List.getElem?_eq_some_iff.mp h
  rw [nodeNumber, hn.idxOf_getElem i hi]

theorem mem_nodeReferences {m : NodeId} : m ∈ ctx.nodeReferences n ↔ .node m ∈ ctx.node n := by
  rw [nodeReferences, List.mem_filterMap]
  constructor
  · rintro ⟨o, ho, hom⟩
    cases o with
    | node k =>
      cases hom
      exact ho
    | string | value => cases hom
  · intro h
    exact ⟨_, h, rfl⟩

/-! ### Writing -/

/-- The texts of functions one after the other. The nodes that a function refers to are entered before it is written. -/
def writeFunctions (ctx : Context) : List NodeId → List FunctionId → List String × List NodeId
  | order, [] => ([], order)
  | order, f :: fs =>
    let entered := (ctx.attachedNodes f).foldl refer order
    let rest := ctx.writeFunctions entered fs
    (ctx.functionText entered f :: rest.1, rest.2)

/-- The line of a node behind a number. -/
def tableLine (ctx : Context) (s : Spelling) (order : List NodeId) (i : Nat) (n : NodeId) : String :=
  "!" ++ toString i ++ " = !\x7b" ++ Ty.commas ((ctx.node n).map (ctx.nodeOperandText s order)) ++ "\x7d\n"

/-- Writing the lines of the nodes from a position on, as long as there are any. What a line refers to is entered, and
so gets a line later on. -/
inductive Tabulates (ctx : Context) (s : Spelling) : Nat → List NodeId → List String → List NodeId → Prop where
  | done {i : Nat} {order : List NodeId} : order.length ≤ i → Tabulates ctx s i order [] order
  | line {i : Nat} {order final : List NodeId} {n : NodeId} {lines : List String} : order[i]? = some n →
      Tabulates ctx s (i + 1) ((ctx.nodeReferences n).foldl refer order) lines final →
      Tabulates ctx s i order (ctx.tableLine s ((ctx.nodeReferences n).foldl refer order) i n :: lines) final

theorem hasNode_of_mem_nodeReferences (ha : Attached ctx) {m : NodeId} (h : m ∈ ctx.nodeReferences n) :
    ctx.HasNode m := by
  rw [mem_nodeReferences] at h
  exact (ha.operands n _ h).nodes m (.head _)

theorem tableLine_grows (h : order <+: final) (hn : ∀ m ∈ ctx.nodeReferences n, m ∈ order) :
    ctx.tableLine s order i n = ctx.tableLine s final i n := by
  have operands : (ctx.node n).map (ctx.nodeOperandText s order) = (ctx.node n).map (ctx.nodeOperandText s final) := by
    refine List.map_congr_left fun o ho => ?_
    cases o with
    | node m => exact (nodeNumber_grows h (hn m (mem_nodeReferences.mpr ho))).symm
    | string | value => rfl
  rw [tableLine, operands, tableLine]

namespace Tabulates
variable {lines : List String}

theorem grows (h : ctx.Tabulates s i order lines final) : order <+: final := by
  induction h with
  | done _ => exact List.prefix_rfl
  | line _ _ ih => exact (prefix_foldl_refer _ _).trans ih

/-- A position that has a node has it for good. -/
theorem drop_eq (h : ctx.Tabulates s i order lines final) (hi : order[i]? = some n) :
    final.drop i = n :: final.drop (i + 1) := by
  obtain ⟨hlt, rfl⟩ := List.getElem?_eq_some_iff.mp hi
  have hle := h.grows.length_le
  rw [List.drop_eq_getElem_cons (Nat.lt_of_lt_of_le hlt hle), h.grows.getElem hlt]

/-- There is nothing in a table but what is referred to, in the order of the references. -/
theorem order_eq {refs : List NodeId} (h : ctx.Tabulates s i order lines final) (ho : order = refs.eraseDups) :
    final = (refs ++ (final.drop i).flatMap ctx.nodeReferences).eraseDups := by
  induction h generalizing refs with
  | done hi => rw [ho, List.drop_eq_nil_of_le (ho ▸ hi), List.flatMap_nil, List.append_nil]
  | line hn h ih =>
    -- The line at this position refers to the nodes that are entered next.
    rw [(Tabulates.line hn h).drop_eq hn, List.flatMap_cons, ← List.append_assoc]
    exact ih (by rw [ho, foldl_refer_eraseDups])

theorem listed (h : ctx.Tabulates s i order lines final) (ha : Attached ctx) (hl : Strict.Listed ctx order) :
    Strict.Listed ctx final := by
  induction h with
  | done _ => exact hl
  | line _ _ ih => exact ih (hl.refer_all fun m hm => hasNode_of_mem_nodeReferences ha hm)

/-- The lines are those of all nodes from the position on, with the numbers that stand in the end. -/
theorem lines_eq (h : ctx.Tabulates s i order lines final) :
    lines = ((final.drop i).zipIdx i).map fun entry => ctx.tableLine s final entry.2 entry.1 := by
  induction h with
  | done hi => rw [List.drop_eq_nil_of_le hi, List.zipIdx_nil, List.map_nil]
  | @line i order final n lines hn h ih =>
    have hline : ctx.tableLine s ((ctx.nodeReferences n).foldl refer order) i n = ctx.tableLine s final i n :=
      tableLine_grows h.grows fun m hm => mem_foldl_refer.mpr (.inr hm)
    rw [(Tabulates.line hn h).drop_eq hn, List.zipIdx_cons, List.map_cons, ← ih, hline]

/-- What holds of the nodes that are known when the table begins, and of all that such a node refers to, holds of all
nodes in it. -/
theorem forall_mem {P : NodeId → Prop} (step : ∀ n m, P n → m ∈ ctx.nodeReferences n → P m)
    (h : ctx.Tabulates s i order lines final) (ho : ∀ n ∈ order, P n) : ∀ n ∈ final, P n := by
  induction h with
  | done _ => exact ho
  | line hn _ ih =>
    refine ih fun m hm => ?_
    rcases mem_foldl_refer.mp hm with hm | hm
    · exact ho m hm
    · exact step _ m (ho _ (List.mem_of_getElem? hn)) hm

/-- There is one way to write a table. -/
theorem unique (h : ctx.Tabulates s i order lines final) {lines' : List String} {final' : List NodeId}
    (h' : ctx.Tabulates s i order lines' final') : lines' = lines ∧ final' = final := by
  induction h generalizing lines' final' with
  | done hi =>
    cases h' with
    | done => exact ⟨rfl, rfl⟩
    | line hn => exact absurd (List.getElem?_eq_some_iff.mp hn).1 (Nat.not_lt_of_le hi)
  | line hn _ ih =>
    cases h' with
    | done hi => exact absurd (List.getElem?_eq_some_iff.mp hn).1 (Nat.not_lt_of_le hi)
    | line hn' h' =>
      obtain rfl := Option.some.inj (hn.symm.trans hn')
      obtain ⟨rfl, rfl⟩ := ih h'
      exact ⟨rfl, rfl⟩

end Tabulates

/-- The table comes to an end: there are no more lines to write than nodes that have none. -/
theorem tabulates_followReferences (ha : Attached ctx) {fuel : Nat} (hi : i + fuel = ctx.nodes.size)
    (hl : Strict.Listed ctx order) : ∃ lines, ctx.Tabulates s i order lines (ctx.followReferences fuel i order) := by
  induction fuel generalizing i order with
  | zero => exact ⟨[], .done (Nat.le_trans hl.length_le (Nat.le_of_eq hi.symm))⟩
  | succ fuel ih =>
    rw [followReferences]
    cases hn : order[i]? with
    | none => exact ⟨[], .done (List.getElem?_eq_none_iff.mp hn)⟩
    | some n =>
      have hnext : i + 1 + fuel = ctx.nodes.size := by omega
      obtain ⟨lines, h⟩ := ih hnext (hl.refer_all fun m hm => hasNode_of_mem_nodeReferences ha hm)
      exact ⟨_, .line hn h⟩

/-! ### Functions -/

theorem mem_attachedNodes {f : FunctionId} : n ∈ ctx.attachedNodes f ↔
    ∃ a ∈ ctx.attachments, a.node = n ∧ (a.target = (ctx.function f).value ∨
      ∃ b ∈ (ctx.function f).blocks, a.target ∈ (ctx.block b).instructions) := by
  simp only [attachedNodes, carriers, attachmentsOf, List.mem_flatMap, List.mem_map, List.mem_cons, List.mem_filter,
    decide_eq_true_eq, Array.mem_toList_iff]
  constructor
  · rintro ⟨_, hv, a, ⟨ha, rfl⟩, rfl⟩
    exact ⟨a, ha, rfl, hv⟩
  · rintro ⟨a, ha, rfl, hv⟩
    exact ⟨a.target, hv, a, ⟨ha, rfl⟩, rfl⟩

theorem attachmentText_grows {f : FunctionId} (h : order <+: final) (hf : ∀ n ∈ ctx.attachedNodes f, n ∈ order)
    {v : ValueId} (hv : v ∈ ctx.carriers f) : ctx.attachmentText order v = ctx.attachmentText final v := by
  have hnumber : ∀ a ∈ ctx.attachmentsOf v, nodeNumber order a.node = nodeNumber final a.node := fun a ha =>
    (nodeNumber_grows h (hf _ (List.mem_flatMap.mpr ⟨v, hv, List.mem_map_of_mem ha⟩))).symm
  rw [attachmentText, attachmentText, List.map_congr_left fun a ha => by rw [hnumber a ha]]

/-- The text of a function shows no nodes but those that are known when it is written. -/
theorem functionText_grows {f : FunctionId} (h : order <+: final) (hf : ∀ n ∈ ctx.attachedNodes f, n ∈ order) :
    ctx.functionText order f = ctx.functionText final f := by
  have text : ∀ v ∈ ctx.carriers f, ctx.attachmentText order v = ctx.attachmentText final v := fun v hv =>
    attachmentText_grows h hf hv
  have heading : ctx.headingText (ctx.spelling f) order (ctx.function f) =
      ctx.headingText (ctx.spelling f) final (ctx.function f) := by
    rw [headingText, text _ (.head _), headingText]
  have block : ∀ b ∈ (ctx.function f).blocks.toList,
      ctx.blockText (ctx.spelling f) order b = ctx.blockText (ctx.spelling f) final b := by
    intro b hb
    have line : ∀ v ∈ (ctx.block b).instructions.toList,
        "  " ++ ctx.instructionText (ctx.spelling f) v ++ ctx.attachmentText order v ++ "\n" =
          "  " ++ ctx.instructionText (ctx.spelling f) v ++ ctx.attachmentText final v ++ "\n" := fun v hv => by
      rw [text v (.tail _ (List.mem_flatMap.mpr ⟨b, hb, hv⟩))]
    rw [blockText, List.map_congr_left line, blockText]
  simp only [functionText, heading, List.map_congr_left block]

theorem writeFunctions_snd (order : List NodeId) (fs : List FunctionId) :
    (ctx.writeFunctions order fs).2 = (fs.flatMap ctx.attachedNodes).foldl refer order := by
  induction fs generalizing order with
  | nil => rfl
  | cons f fs ih => rw [writeFunctions, ih, List.flatMap_cons, List.foldl_append]

theorem writeFunctions_fst {fs : List FunctionId} (h : (ctx.writeFunctions order fs).2 <+: final) :
    (ctx.writeFunctions order fs).1 = fs.map (ctx.functionText final) := by
  induction fs generalizing order with
  | nil => rfl
  | cons f fs ih =>
    have hentered : (ctx.attachedNodes f).foldl refer order <+: final := by
      refine List.IsPrefix.trans ?_ h
      rw [writeFunctions, writeFunctions_snd]
      exact prefix_foldl_refer _ _
    have hrest : (ctx.writeFunctions ((ctx.attachedNodes f).foldl refer order) fs).2 <+: final := h
    rw [writeFunctions, ih hrest, functionText_grows hentered fun n hn => mem_foldl_refer.mpr (.inr hn), List.map_cons]

/-! ### Modules -/

/-- The lines of a table, after an empty line if there are any. -/
def tableText : List String → String
  | [] => ""
  | lines => "\n" ++ String.join lines

/-- The text of a module refers to a node: one of its functions, or of the instructions in them, carries it, or it is an
operand of another such node. -/
def Refers (ctx : Context) (k : ModuleId) (n : NodeId) : Prop :=
  ∃ f ∈ (ctx.module k).functions, ∃ a ∈ ctx.attachments,
    (a.target = (ctx.function f).value ∨ ∃ b ∈ (ctx.function f).blocks, a.target ∈ (ctx.block b).instructions) ∧
    Relation.ReflTransGen (fun n m => NodeOperand.node m ∈ ctx.node n) a.node n

/-- The text of a module numbers these nodes, and has these lines as its table. -/
structure Tabled (ctx : Context) (k : ModuleId) (order : List NodeId) (lines : List String) : Prop where
  /-- The lines are written behind the functions, until no node is without a line. -/
  written : ∀ lines' final, ctx.Tabulates (ctx.finalSpelling (ctx.module k).functions.toList) 0
    (ctx.writeFunctions [] (ctx.module k).functions.toList).2 lines' final ↔ lines' = lines ∧ final = order
  text : ctx.printModule k = "; ModuleID = '" ++ (ctx.module k).name ++ "'\n" ++
    String.join ((ctx.writeFunctions [] (ctx.module k).functions.toList).1.map ("\n" ++ ·)) ++ tableText lines
  /-- The numbers that stand when a function is written are the ones that stand in the end. -/
  functions : (ctx.writeFunctions [] (ctx.module k).functions.toList).1 =
    (ctx.module k).functions.toList.map (ctx.functionText order)
  lines : lines = order.zipIdx.map fun entry =>
    ctx.tableLine (ctx.finalSpelling (ctx.module k).functions.toList) order entry.2 entry.1
  once : order.Nodup
  complete : ∀ n, n ∈ order ↔ ctx.Refers k n
  /-- The nodes stand in the order in which they are first referred to, in the functions and then in the table. -/
  sorted : order = ((ctx.module k).functions.toList.flatMap ctx.attachedNodes ++
    order.flatMap ctx.nodeReferences).eraseDups
  /-- What the text writes for a node is the number of its line. -/
  defined : ∀ n, ctx.Refers k n → ∃! i : Nat, nodeNumber order n = "!" ++ toString i ∧ order[i]? = some n

theorem nodeTable_eq_tableText (hn : order.Nodup) (s : Spelling) :
    ctx.nodeTable s order = tableText (order.zipIdx.map fun entry => ctx.tableLine s order entry.2 entry.1) := by
  have line : ∀ entry ∈ order.zipIdx, ctx.nodeText s order entry.1 = ctx.tableLine s order entry.2 entry.1 := by
    intro entry hentry
    rw [nodeText, nodeNumber_of_getElem? hn (List.mem_zipIdx_iff_getElem?.mp hentry), tableLine]
  have texts : order.map (ctx.nodeText s order) =
      order.zipIdx.map fun entry => ctx.tableLine s order entry.2 entry.1 := by
    calc order.map (ctx.nodeText s order)
      _ = (order.zipIdx.map Prod.fst).map (ctx.nodeText s order) := by rw [List.zipIdx_map_fst]
      _ = order.zipIdx.map fun entry => ctx.nodeText s order entry.1 := List.map_map
      _ = _ := List.map_congr_left line
  cases order with
  | nil => rfl
  | cons n ns =>
    change "\n" ++ String.join ((n :: ns).map (ctx.nodeText s (n :: ns))) = _
    rw [texts]
    rfl

theorem Refers.reference {k : ModuleId} {m : NodeId} (h : ctx.Refers k n) (hm : m ∈ ctx.nodeReferences n) :
    ctx.Refers k m := by
  obtain ⟨f, hf, a, ha, ht, hn⟩ := h
  exact ⟨f, hf, a, ha, ht, hn.tail (mem_nodeReferences.mp hm)⟩

theorem mem_flatMap_attachedNodes {k : ModuleId} : n ∈ (ctx.module k).functions.toList.flatMap ctx.attachedNodes ↔
    ∃ f ∈ (ctx.module k).functions, ∃ a ∈ ctx.attachments, a.node = n ∧ (a.target = (ctx.function f).value ∨
      ∃ b ∈ (ctx.function f).blocks, a.target ∈ (ctx.block b).instructions) := by
  simp only [List.mem_flatMap, mem_attachedNodes, Array.mem_toList_iff]

/-- Nodes that are closed under references, and among which are those that are attached, are all nodes that a text
refers to. -/
theorem Refers.mem {k : ModuleId} (h : ctx.Refers k n)
    (hroots : ∀ m ∈ (ctx.module k).functions.toList.flatMap ctx.attachedNodes, m ∈ order)
    (hclosed : ∀ m ∈ order, ∀ l ∈ ctx.nodeReferences m, l ∈ order) : n ∈ order := by
  obtain ⟨f, hf, a, ha, ht, hn⟩ := h
  induction hn with
  | refl => exact hroots _ (mem_flatMap_attachedNodes.mpr ⟨f, hf, a, ha, rfl, ht⟩)
  | tail _ hm ih => exact hclosed _ ih _ (mem_nodeReferences.mpr hm)

section
variable (hc : Coherent ctx) (ha : Anchored ctx) (k : ModuleId)
include hc ha

theorem exists_tabled : ∃ lines, ctx.Tabled k (ctx.nodeOrder (ctx.module k).functions.toList) lines := by
  have hstart : (ctx.writeFunctions [] (ctx.module k).functions.toList).2 =
      ((ctx.module k).functions.toList.flatMap ctx.attachedNodes).eraseDups := by
    rw [writeFunctions_snd]
    exact foldl_refer_eraseDups [] _
  have hlisted : Strict.Listed ctx (ctx.writeFunctions [] (ctx.module k).functions.toList).2 := by
    rw [writeFunctions_snd]
    refine Strict.Listed.refer_all ⟨List.nodup_nil, List.forall_mem_nil _⟩ fun n hn => ?_
    obtain ⟨f, _, a, hin, rfl, _⟩ := mem_flatMap_attachedNodes.mp hn
    exact ha a hin
  obtain ⟨lines, hw⟩ := tabulates_followReferences hc.attached (s := ctx.finalSpelling (ctx.module k).functions.toList)
    (Nat.zero_add _) hlisted
  have horder : ctx.followReferences ctx.nodes.size 0 (ctx.writeFunctions [] (ctx.module k).functions.toList).2 =
      ctx.nodeOrder (ctx.module k).functions.toList := by
    rw [writeFunctions_snd, nodeOrder]
  rw [horder] at hw
  have once : (ctx.nodeOrder (ctx.module k).functions.toList).Nodup := (hw.listed hc.attached hlisted).nodup
  have functions := writeFunctions_fst hw.grows
  have lines_eq := hw.lines_eq
  have sorted := hw.order_eq hstart
  rw [List.drop_zero] at lines_eq sorted
  have complete : ∀ n, n ∈ ctx.nodeOrder (ctx.module k).functions.toList ↔ ctx.Refers k n := by
    refine fun n => ⟨fun hn => ?_, fun hn => hn.mem (fun m hm => ?_) fun m hm l hl => ?_⟩
    · refine hw.forall_mem (fun _ _ h hm => h.reference hm) (fun m hm => ?_) n hn
      rw [hstart, List.mem_eraseDups] at hm
      obtain ⟨f, hf, a, hin, rfl, ht⟩ := mem_flatMap_attachedNodes.mp hm
      exact ⟨f, hf, a, hin, ht, .refl⟩
    · rw [sorted, List.mem_eraseDups]
      exact List.mem_append_left _ hm
    · rw [sorted, List.mem_eraseDups]
      exact List.mem_append_right _ (List.mem_flatMap.mpr ⟨m, hm, hl⟩)
  refine ⟨lines, fun lines' final => ⟨hw.unique, ?_⟩, ?_, functions, lines_eq, once, complete, sorted, fun n hn => ?_⟩
  · rintro ⟨rfl, rfl⟩
    exact hw
  · rw [functions, List.map_map, lines_eq, ← nodeTable_eq_tableText once]
    rfl
  · obtain ⟨i, hi⟩ := List.mem_iff_getElem?.mp ((complete n).mpr hn)
    refine ⟨i, ⟨nodeNumber_of_getElem? once hi, hi⟩, fun j hj => ?_⟩
    exact (List.getElem?_inj (List.getElem?_eq_some_iff.mp hj.2).1 once).mp (hj.2.trans hi.symm)

end

end Context
end StackAssembler.IR

namespace StackAssembler.Build
open IR

theorem Reachable.anchored {m : Machine} (h : Reachable m) : Anchored m.context := by
  obtain ⟨layout, hl⟩ := h.leads
  exact (Anchored.empty layout).evolve hl.evolves

/-- The table of a module comes to an end, even where nodes refer to one another in circles, and it has one line for
each node that the text refers to. -/
theorem Reachable.tabled {m : Machine} (h : Reachable m) (k : ModuleId) :
    ∃ lines, m.context.Tabled k (m.context.nodeOrder (m.context.module k).functions.toList) lines :=
  Context.exists_tabled h.coherent h.anchored k

/-- Two nodes that refer to each other, one of them also to itself, and a node that nothing refers to. -/
def Command.circle : List Command :=
  [.request (.addModule "m"), .request (.intern .void), .perform (.useModule ⟨0⟩),
    .perform (.createFunction ⟨"f", .void, [], false⟩), .request (.addNode [.string "a", .string "b"]),
    .request (.addNode [.node ⟨0⟩]), .request (.addNode [.string "c"]),
    .request (.replaceNodeOperand ⟨0⟩ 0 (.node ⟨1⟩)), .request (.replaceNodeOperand ⟨0⟩ 1 (.node ⟨0⟩)),
    .request (.attach ⟨0⟩ "note" ⟨1⟩)]

def Machine.circle : Machine := Machine.runAll {} Command.circle

theorem Reachable.circle : Reachable Machine.circle := ⟨{}, .of_permits Command.circle (by decide +kernel)⟩

theorem Reachable.tabled_circle :
    Machine.circle.context.Tabled ⟨0⟩ [⟨1⟩, ⟨0⟩] ["!0 = !\x7b!1\x7d\n", "!1 = !\x7b!0, !1\x7d\n"] := by
  have horder : Machine.circle.context.nodeOrder (Machine.circle.context.module ⟨0⟩).functions.toList = [⟨1⟩, ⟨0⟩] := by
    decide +kernel
  obtain ⟨lines, h⟩ := Reachable.tabled .circle ⟨0⟩
  rw [horder] at h
  have hlines : lines = ["!0 = !\x7b!1\x7d\n", "!1 = !\x7b!0, !1\x7d\n"] := h.lines.trans (by decide +kernel)
  exact hlines ▸ h

end StackAssembler.Build
