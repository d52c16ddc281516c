import StackAssembler.IR.StringMetadata
import StackAssembler.Proofs.Coherence
import StackAssembler.Proofs.Request

/-! How strings get into the nodes of a context, and nodes onto values. -/
namespace StackAssembler.IR

/-! ### Arguments -/

/-- An argument is listed by its function at its position. -/
def Seated (ctx : Context) : Prop :=
  ∀ v f i, (ctx.value v).kind = .argument f i → (ctx.function f).args[i]? = some v

namespace Seated
variable {ctx ctx' : Context}

theorem empty (layout : DataLayout) : Seated { layout := layout } := nofun

theorem hasFunction (hs : Seated ctx) {v : ValueId} {f : FunctionId} {i : Nat}
    (h : (ctx.value v).kind = .argument f i) : ctx.HasFunction f := by
  by_contra hf
  have hi := hs v f i h
  rw [Context.function, getD_of_size_le (Nat.le_of_not_lt hf)] at hi
  cases hi

/-- Arguments that were there are listed where they were. -/
private theorem keep (hs : Seated ctx) (h : ctx.Extends ctx') {v : ValueId} {f : FunctionId} {i : Nat}
    (hk : (ctx.value v).kind = .argument f i) : (ctx'.function f).args[i]? = some v := by
  rw [(h.function (hs.hasFunction hk)).rest]
  exact hs v f i hk

theorem step (hs : Seated ctx) (h : Change ctx ctx') : Seated ctx' := by
  have keeps := h.keeps
  intro v f i hv
  cases h with
  | @constant t k =>
    have hvalues : (ctx.addValue ⟨t, none, .constant k⟩).2.values = _ := Array.push_eq_append
    rcases Context.kind_of_append hvalues v with hk | ⟨x, hx, hk⟩
    · exact hs.keep keeps (hk.symm.trans hv)
    · rw [hk, List.mem_singleton.mp hx] at hv
      cases hv
  | @instruction b op t name =>
    rw [Context.value_addInstruction] at hv
    split at hv
    · cases hv
    · exact hs.keep keeps hv
  | name => exact hs.keep keeps ((Context.kind_rename _ _ _).symm.trans hv)
  | @function m name result params variadic linkage =>
    have hvalue : (ctx.declare m name result params variadic linkage).value v =
        ({ ctx with values := ctx.values ++
          (⟨.pointer (.function result params variadic) 0, some name, .function ⟨ctx.functions.size⟩⟩ ::
            Context.argumentValues ⟨ctx.functions.size⟩ params 0).toArray } : Context).value v := by
      rw [Context.value, Context.value, Context.declare_values]
    rw [hvalue, Context.value_append] at hv
    split at hv
    · exact hs.keep keeps hv
    · next hle =>
      obtain ⟨j, hj⟩ := Nat.exists_eq_add_of_le (Nat.le_of_not_lt hle)
      rw [hj, Nat.add_sub_cancel_left] at hv
      cases j with
      | zero => cases hv
      | succ j =>
        rw [List.getD_cons_succ, List.getD_eq_getElem?_getD, Context.argumentValues, List.getElem?_map,
          List.getElem?_zipIdx] at hv
        cases ht : params[j]? with
        | none => rw [ht] at hv; cases hv
        | some t =>
          -- The new function lists its arguments in the order in which their values are added.
          have hlt : j < params.length := (List.getElem?_eq_some_iff.mp ht).1
          have hkind : ValueKind.argument ⟨ctx.functions.size⟩ (0 + j) = .argument f i := by simpa [ht] using hv
          obtain ⟨rfl, rfl⟩ := ValueKind.argument.inj hkind
          have hindex : ctx.values.size + 1 + j = v.index := by omega
          have hv : (⟨ctx.values.size + 1 + j⟩ : ValueId) = v := congrArg ValueId.mk hindex
          rw [Context.function_declare, if_pos rfl, List.getElem?_map, List.getElem?_range' (by simpa using hlt)]
          simpa using hv
  | _ => exact hs.keep keeps hv

theorem evolve (hs : Seated ctx) (h : Evolves ctx ctx') : Seated ctx' := h.preserves step hs

end Seated

/-! ### Nodes -/

namespace Context
variable {ctx ctx' ctx'' : Context}

/-- Nodes are added, and nothing else happens. -/
structure AddsNodes (ctx ctx' : Context) : Prop where
  nodes : ctx.nodes.toList <+: ctx'.nodes.toList
  rest : ctx' = { ctx with nodes := ctx'.nodes }
  evolves : Evolves ctx ctx'

theorem node_eq_getElem (ctx : Context) (n : NodeId) : ctx.node n = ctx.nodes.toList[n.index]?.getD [] := by
  rw [node, Array.getD_eq_getD_getElem?, Array.getElem?_toList]
  rfl

namespace AddsNodes

theorem refl (ctx : Context) : ctx.AddsNodes ctx := ⟨List.prefix_rfl, rfl, Relation.ReflTransGen.refl⟩

theorem trans (h : ctx.AddsNodes ctx') (k : ctx'.AddsNodes ctx'') : ctx.AddsNodes ctx'' :=
  ⟨h.nodes.trans k.nodes, by rw [k.rest, h.rest], h.evolves.trans k.evolves⟩

theorem values (h : ctx.AddsNodes ctx') : ctx'.values = ctx.values := by rw [h.rest]

theorem functions (h : ctx.AddsNodes ctx') : ctx'.functions = ctx.functions := by rw [h.rest]

theorem attachments (h : ctx.AddsNodes ctx') : ctx'.attachments = ctx.attachments := by rw [h.rest]

theorem node (h : ctx.AddsNodes ctx') {n : NodeId} (hn : ctx.HasNode n) : ctx'.node n = ctx.node n := by
  obtain ⟨added, hadded⟩ := h.nodes
  rw [node_eq_getElem, node_eq_getElem, ← hadded, List.getElem?_append_left hn]

end AddsNodes

/-- A node is there if there is something in it. -/
theorem hasNode_of_mem {n : NodeId} {o : NodeOperand} (h : o ∈ ctx.node n) : ctx.HasNode n := by
  by_contra hn
  rw [node, getD_of_size_le (Nat.le_of_not_lt hn)] at h
  cases h

theorem node_addNode (ctx : Context) (operands : Node) :
    (ctx.addNode operands).2.node (ctx.addNode operands).1 = operands := by
  rw [addNode, node, getD_push, if_pos rfl]

theorem addsNodes_addNode {operands : Node} (h : ∀ o ∈ operands, ctx.Knows o.handles) :
    ctx.AddsNodes (ctx.addNode operands).2 :=
  ⟨by simp [addNode], rfl, .single (.node h)⟩

/-- A node with nothing but a string. -/
def HoldsText (ctx : Context) (n : NodeId) (s : String) : Prop := ctx.node n = [.string s]

theorem HoldsText.hasNode {n : NodeId} {s : String} (h : ctx.HoldsText n s) : ctx.HasNode n :=
  hasNode_of_mem (o := .string s) (by rw [h]; exact .head _)

/-- A node that refers to a node for each string. -/
structure HoldsTexts (ctx : Context) (n : NodeId) (ss : List String) : Prop where
  length : (ctx.node n).length = ss.length
  text : ∀ (i : Nat) (s : String), ss[i]? = some s → ∃ m, (ctx.node n)[i]? = some (NodeOperand.node m) ∧ ctx.HoldsText m s

theorem addsNodes_addString (ctx : Context) (s : String) : ctx.AddsNodes (ctx.addString s).2 :=
  addsNodes_addNode (by simp [NodeOperand.handles, knows_nothing])

theorem addStrings_spec (ctx : Context) (ss : List String) :
    ctx.AddsNodes (ctx.addStrings ss).2 ∧ (ctx.addStrings ss).1.length = ss.length ∧
      ∀ (i : Nat) (s : String), ss[i]? = some s →
        ∃ n, (ctx.addStrings ss).1[i]? = some n ∧ (ctx.addStrings ss).2.HoldsText n s := by
  induction ss generalizing ctx with
  | nil => exact ⟨.refl ctx, rfl, nofun⟩
  | cons s ss ih =>
    obtain ⟨hadds, hlength, htexts⟩ := ih (ctx.addString s).2
    have hs : (ctx.addString s).2.HoldsText (ctx.addString s).1 s := node_addNode ctx [.string s]
    refine ⟨(ctx.addsNodes_addString s).trans hadds, congrArg (· + 1) hlength, fun i u hi => ?_⟩
    cases i with
    | zero =>
      obtain rfl := Option.some.inj hi
      exact ⟨_, rfl, (hadds.node hs.hasNode).trans hs⟩
    | succ i => exact htexts i u hi

/-- Strings are put into new nodes that a new node refers to. -/
theorem addStringTuple_spec (ctx : Context) (ss : List String) :
    ctx.AddsNodes (ctx.addStringTuple ss).2 ∧ (ctx.addStringTuple ss).2.HoldsTexts (ctx.addStringTuple ss).1 ss ∧
      ¬ ctx.HasNode (ctx.addStringTuple ss).1 ∧ (ctx.addStringTuple ss).2.HasNode (ctx.addStringTuple ss).1 := by
  obtain ⟨hadds, hlength, htexts⟩ := ctx.addStrings_spec ss
  have hknown : ∀ n ∈ (ctx.addStrings ss).1, (ctx.addStrings ss).2.HasNode n := by
    intro n hn
    obtain ⟨i, hi⟩ := List.mem_iff_getElem?.mp hn
    have hlt : i < ss.length := hlength ▸ (List.getElem?_eq_some_iff.mp hi).1
    obtain ⟨m, hm, htext⟩ := htexts i _ (List.getElem?_eq_getElem hlt)
    obtain rfl : n = m := Option.some.inj (hi.symm.trans hm)
    exact htext.hasNode
  have htuple : (ctx.addStrings ss).2.AddsNodes (ctx.addStringTuple ss).2 :=
    addsNodes_addNode (List.forall_mem_map.mpr fun n hn => by simpa [NodeOperand.handles, knows_iff] using hknown n hn)
  have hnode : (ctx.addStringTuple ss).2.node (ctx.addStringTuple ss).1 = (ctx.addStrings ss).1.map .node :=
    node_addNode _ _
  have hle : ctx.nodes.size ≤ (ctx.addStrings ss).2.nodes.size := hadds.nodes.length_le
  refine ⟨hadds.trans htuple, ⟨?_, fun i s hi => ?_⟩, Nat.not_lt_of_le hle, ?_⟩
  · rw [hnode, List.length_map, hlength]
  · obtain ⟨m, hm, htext⟩ := htexts i s hi
    exact ⟨m, by rw [hnode, List.getElem?_map, hm, Option.map_some], (htuple.node htext.hasNode).trans htext⟩
  · simp [HasNode, addStringTuple, addTuple, addNode]

namespace HoldsTexts
variable {n : NodeId} {ss : List String}

theorem keep (h : ctx.HoldsTexts n ss) (hn : ctx'.node n = ctx.node n)
    (hm : ∀ m, .node m ∈ ctx.node n → ctx'.node m = ctx.node m) : ctx'.HoldsTexts n ss := by
  refine ⟨hn ▸ h.length, fun i s hi => ?_⟩
  obtain ⟨m, hget, htext⟩ := h.text i s hi
  exact ⟨m, hn ▸ hget, (hm m (List.mem_of_getElem? hget)).trans htext⟩

/-- The node itself is not one with just a string, unless it is empty. -/
theorem ne_of_text (h : ctx.HoldsTexts n ss) {i : Nat} (hi : i < ss.length) {m : NodeId} {s : String}
    (hm : ctx.HoldsText m s) : m ≠ n := by
  rintro rfl
  obtain ⟨k, hk, _⟩ := h.text i _ (List.getElem?_eq_getElem hi)
  rw [hm] at hk
  cases i <;> cases hk

end HoldsTexts

/-- Let a node refer to another one at a position. -/
def redirect (ctx : Context) (n : NodeId) (i : Nat) (m : NodeId) : Context :=
  { ctx with nodes := ctx.nodes.modify n.index fun node => node.set i (.node m) }

theorem node_redirect (ctx : Context) (n : NodeId) (i : Nat) (m : NodeId) :
    (ctx.redirect n i m).node n = (ctx.node n).set i (.node m) := by
  rw [redirect, node, getD_modify, node]
  by_cases hn : n.index < ctx.nodes.size
  · rw [if_pos ⟨rfl, hn⟩]
  · rw [if_neg fun h => hn h.2, getD_of_size_le (Nat.le_of_not_lt hn)]
    rfl

theorem node_redirect_of_ne {n k : NodeId} (h : k ≠ n) (i : Nat) (m : NodeId) :
    (ctx.redirect n i m).node k = ctx.node k := by
  have hi : n.index ≠ k.index := fun he => h (congrArg NodeId.mk he.symm)
  rw [redirect, node, getD_modify, if_neg fun h => hi h.1, node]

namespace HoldsTexts
variable {n : NodeId} {ss : List String} {i : Nat} {s : String}

theorem redirect (h : ctx.HoldsTexts n ss) (hi : i < ss.length) {m : NodeId} (hm : ctx.HoldsText m s) :
    (ctx.redirect n i m).HoldsTexts n (ss.set i s) := by
  have htext {k : NodeId} {u : String} (hk : ctx.HoldsText k u) : (ctx.redirect n i m).HoldsText k u :=
    (node_redirect_of_ne (h.ne_of_text hi hk) i m).trans hk
  refine ⟨by rw [node_redirect, List.length_set, List.length_set, h.length], fun j u hj => ?_⟩
  rw [node_redirect]
  by_cases hij : i = j
  · subst hij
    rw [List.getElem?_set_self hi] at hj
    obtain rfl := Option.some.inj hj
    exact ⟨m, List.getElem?_set_self (h.length ▸ hi), htext hm⟩
  · rw [List.getElem?_set_ne hij] at hj
    obtain ⟨k, hget, hk⟩ := h.text j u hj
    exact ⟨k, by rw [List.getElem?_set_ne hij, hget], htext hk⟩

/-- Other nodes refer to what they did. -/
theorem redirect_of_ne (h : ctx.HoldsTexts n ss) (hi : i < ss.length) (m : NodeId) {k : NodeId} {us : List String}
    (hk : k ≠ n) (hus : ctx.HoldsTexts k us) : (ctx.redirect n i m).HoldsTexts k us := by
  refine ⟨by rw [node_redirect_of_ne hk, hus.length], fun j u hj => ?_⟩
  obtain ⟨l, hget, hl⟩ := hus.text j u hj
  exact ⟨l, by rw [node_redirect_of_ne hk, hget], (node_redirect_of_ne (h.ne_of_text hi hl) i m).trans hl⟩

end HoldsTexts

end Context

theorem Evolves.redirect {ctx : Context} (n : NodeId) (i : Nat) {m : NodeId} (hm : ctx.HasNode m) :
    Evolves ctx (ctx.redirect n i m) :=
  .single (.nodeOperand (by simpa [NodeOperand.handles, Context.knows_iff] using hm))

/-! ### Attachments -/

/-- Whether nodes can be attached to a value. -/
def ValueKind.carries : ValueKind → Bool
  | .instruction .. | .function _ => true
  | _ => false

theorem find?_modify_self {α : Type} {p : α → Bool} {f : α → α} (hf : ∀ x, p (f x) = p x) {xs : List α} {i : Nat}
    (h : xs.findIdx? p = some i) : (xs.modify i f).find? p = (xs.find? p).map f := by
  induction xs generalizing i with
  | nil => cases h
  | cons x xs ih =>
    rw [List.findIdx?_cons] at h
    cases hx : p x with
    | true =>
      rw [if_pos hx] at h
      obtain rfl := Option.some.inj h
      rw [List.modify_zero_cons, List.find?_cons_of_pos ((hf x).trans hx), List.find?_cons_of_pos hx, Option.map_some]
    | false =>
      rw [if_neg (by simp [hx])] at h
      obtain ⟨j, hj, rfl⟩ := Option.map_eq_some_iff.mp h
      rw [List.modify_succ_cons, List.find?_cons_of_neg (by simp [hx]), List.find?_cons_of_neg (by simp [hx]), ih hj]

theorem find?_modify_of_ne {α : Type} {p q : α → Bool} {f : α → α} (hf : ∀ x, q (f x) = q x)
    (hpq : ∀ x, p x → q x = false) {xs : List α} {i : Nat} (h : xs.findIdx? p = some i) :
    (xs.modify i f).find? q = xs.find? q := by
  induction xs generalizing i with
  | nil => cases h
  | cons x xs ih =>
    rw [List.findIdx?_cons] at h
    cases hx : p x with
    | true =>
      have hq := hpq x hx
      rw [if_pos hx] at h
      obtain rfl := Option.some.inj h
      rw [List.modify_zero_cons, List.find?_cons_of_neg (by simp [hf, hq]), List.find?_cons_of_neg (by simp [hq])]
    | false =>
      rw [if_neg (by simp [hx])] at h
      obtain ⟨j, hj, rfl⟩ := Option.map_eq_some_iff.mp h
      rw [List.modify_succ_cons, List.find?_cons, List.find?_cons, ih hj]

/-- A node is attached to a value, and nothing else happens. -/
structure Context.Attaches (ctx : Context) (v : ValueId) (kind : String) (n : NodeId) (ctx' : Context) : Prop where
  rest : ctx' = { ctx with attachments := ctx'.attachments }
  only : ∀ a ∈ ctx'.attachments, a = ⟨v, kind, n⟩ ∨ a ∈ ctx.attachments
  attached? : ∀ w k, ctx'.attached? w k = if w = v ∧ k = kind then some n else ctx.attached? w k

namespace Context
variable {ctx ctx' : Context} {v : ValueId} {kind : String}

namespace Attaches
variable {n : NodeId}

theorem values (h : ctx.Attaches v kind n ctx') : ctx'.values = ctx.values := by rw [h.rest]

theorem functions (h : ctx.Attaches v kind n ctx') : ctx'.functions = ctx.functions := by rw [h.rest]

theorem nodes (h : ctx.Attaches v kind n ctx') : ctx'.nodes = ctx.nodes := by rw [h.rest]

end Attaches

theorem mem_of_attached? {n : NodeId} (h : ctx.attached? v kind = some n) : ⟨v, kind, n⟩ ∈ ctx.attachments := by
  obtain ⟨a, ha, rfl⟩ := Option.map_eq_some_iff.mp h
  have hkey : a.target = v ∧ a.kind = kind := by simpa using List.find?_some ha
  obtain ⟨rfl, rfl⟩ := hkey
  exact Array.mem_toList_iff.mp (List.mem_of_find?_eq_some ha)

theorem attaches_push (h : ∀ a ∈ ctx.attachments.toList, ¬ (a.target = v ∧ a.kind = kind)) (n : NodeId) :
    ctx.Attaches v kind n { ctx with attachments := ctx.attachments.push ⟨v, kind, n⟩ } := by
  refine ⟨rfl, fun a ha => (Array.mem_push.mp ha).symm, fun w k => ?_⟩
  rw [attached?, Array.toList_push, List.find?_append]
  split
  · next hw =>
    obtain ⟨rfl, rfl⟩ := hw
    rw [List.find?_eq_none.mpr (by simpa using h), Option.none_or, List.find?_cons_of_pos (by simp), Option.map_some]
  · next hw =>
    have hlast : [(⟨v, kind, n⟩ : Attachment)].find? (fun a => a.target = w ∧ a.kind = k) = none := by
      simpa using fun hv hk => hw ⟨hv.symm, hk.symm⟩
    rw [hlast, Option.or_none, attached?]

theorem attaches_modify {i : Nat} (h : ctx.attachments.toList.findIdx? (fun a => a.target = v ∧ a.kind = kind) = some i)
    (n : NodeId) :
    ctx.Attaches v kind n { ctx with attachments := ctx.attachments.modify i fun a => { a with node := n } } := by
  obtain ⟨hi, hat, _⟩ := List.findIdx?_eq_some_iff_getElem.mp h
  have hat : ctx.attachments.toList[i].target = v ∧ ctx.attachments.toList[i].kind = kind := by simpa using hat
  refine ⟨rfl, fun a ha => ?_, fun w k => ?_⟩
  · obtain ⟨j, hj⟩ := List.mem_iff_getElem?.mp (Array.mem_toList_iff.mpr ha)
    rw [Array.toList_modify, List.getElem?_modify] at hj
    obtain ⟨b, hb, rfl⟩ := Option.map_eq_some_iff.mp hj
    by_cases hij : i = j
    · subst hij
      obtain rfl : ctx.attachments.toList[i] = b := Option.some.inj ((List.getElem?_eq_getElem hi).symm.trans hb)
      exact Or.inl (by rw [if_pos rfl, hat.1, hat.2])
    · rw [if_neg hij]
      exact Or.inr (Array.mem_toList_iff.mp (List.mem_of_getElem? hb))
  · rw [attached?, Array.toList_modify]
    split
    · next hw =>
      obtain ⟨rfl, rfl⟩ := hw
      have hsome : (ctx.attachments.toList.find? fun a => a.target = w ∧ a.kind = k).isSome :=
        List.find?_isSome.mpr ⟨_, List.getElem_mem hi, by simpa using hat⟩
      obtain ⟨a, ha⟩ := Option.isSome_iff_exists.mp hsome
      rw [find?_modify_self (f := fun a : Attachment => { a with node := n }) (fun _ => rfl) h, ha]
      rfl
    · next hw =>
      have hother (a : Attachment) (ha : decide (a.target = v ∧ a.kind = kind) = true) :
          decide (a.target = w ∧ a.kind = k) = false := by
        obtain ⟨rfl, rfl⟩ := of_decide_eq_true ha
        exact decide_eq_false fun hw' => hw ⟨hw'.1.symm, hw'.2.symm⟩
      rw [find?_modify_of_ne (f := fun a : Attachment => { a with node := n }) (fun _ => rfl) hother h, attached?]

end Context

namespace Edit
variable {ctx : Context} {v : ValueId}

theorem attach_ok (hv : (ctx.value v).kind.carries) (kind : String) (n : NodeId) :
    ∃ ctx', attach v kind n ctx = .ok () ctx' ∧ ctx.Attaches v kind n ctx' := by
  have hrun : attach v kind n ctx =
      .ok () ((ctx.attachments.toList.findIdx? fun a => a.target = v ∧ a.kind = kind).elim
        { ctx with attachments := ctx.attachments.push ⟨v, kind, n⟩ }
        fun i => { ctx with attachments := ctx.attachments.modify i fun a => { a with node := n } }) := by
    unfold attach
    cases hk : (ctx.value v).kind with
    | constant | argument => rw [hk] at hv; cases hv
    | instruction | function =>
      dsimp only
      cases ctx.attachments.toList.findIdx? fun a => a.target = v ∧ a.kind = kind <;> rfl
  rw [hrun]
  cases h : ctx.attachments.toList.findIdx? fun a => a.target = v ∧ a.kind = kind with
  | none => exact ⟨_, rfl, Context.attaches_push (by simpa using List.findIdx?_eq_none_iff.mp h) n⟩
  | some i => exact ⟨_, rfl, Context.attaches_modify h n⟩

theorem attach_error (hv : ¬ (ctx.value v).kind.carries) (kind : String) (n : NodeId) :
    attach v kind n ctx = .error .metadataTarget ctx := by
  unfold attach
  cases hk : (ctx.value v).kind with
  | constant | argument => rfl
  | instruction | function => rw [hk] at hv; exact absurd rfl hv

end Edit
end StackAssembler.IR
