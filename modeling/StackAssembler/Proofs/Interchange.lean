import Mathlib.Data.List.GetD
import StackAssembler.Proofs.Relocation
import StackAssembler.Proofs.Typing

/-! Two blocks that get instructions, one after the other. Whichever is first, the instructions are the same up to
where they stand in the table of values. -/
namespace StackAssembler.IR

/-- The handles of values that stand one after another from a position on. -/
def places (start count : Nat) : List ValueId := (List.range count).map fun i => ⟨start + i⟩

theorem places_add (start j k : Nat) : places start (j + k) = places start j ++ places (start + j) k := by
  simp [places, List.range_add, Nat.add_assoc]

theorem map_places {ρ : ValueId → ValueId} {s t k : Nat} (h : ∀ i < k, ρ ⟨s + i⟩ = ⟨t + i⟩) :
    (places s k).map ρ = places t k := by
  rw [places, places, List.map_map]
  exact List.map_congr_left fun i hi => h i (List.mem_range.mp hi)

theorem mem_places {v : ValueId} {s k : Nat} : v ∈ places s k ↔ ∃ i < k, ⟨s + i⟩ = v := by
  simp [places]

/-- Instructions come to the end of a block. Values that no block lists may come after them. -/
structure Appends (b : BlockId) (es extra : List Value) (c c' : Context) : Prop where
  values : c'.values.toList = c.values.toList ++ (es ++ extra)
  block : c'.block b = { c.block b with
    instructions := (c.block b).instructions ++ (places c.values.size es.length).toArray }
  others : ∀ k, k ≠ b → c'.block k = c.block k
  rest : c' = { c with types := c'.types, values := c'.values, blocks := c'.blocks }

namespace Appends
variable {b : BlockId} {es es' extra : List Value} {c c' c'' : Context}

theorem size (h : Appends b es extra c c') : c'.values.size = c.values.size + es.length + extra.length := by
  rw [← Array.length_toList, h.values]
  simp [Nat.add_assoc]

theorem functions (h : Appends b es extra c c') : c'.functions = c.functions := by rw [h.rest]

theorem modules (h : Appends b es extra c c') : c'.modules = c.modules := by rw [h.rest]

theorem nodes (h : Appends b es extra c c') : c'.nodes = c.nodes := by rw [h.rest]

theorem attachments (h : Appends b es extra c c') : c'.attachments = c.attachments := by rw [h.rest]

theorem name (h : Appends b es extra c c') (k : BlockId) : (c'.block k).name = (c.block k).name := by
  by_cases hk : k = b
  · rw [hk, h.block]
  · rw [h.others k hk]

theorem value (h : Appends b es extra c c') (v : ValueId) :
    c'.value v = (c.values.toList ++ (es ++ extra)).getD v.index default := by
  rw [← h.values, Context.value, Array.getD_eq_getD_getElem?, List.getD_eq_getElem?_getD, Array.getElem?_toList]

/-- What was there reads as before. -/
theorem value_old (h : Appends b es extra c c') {v : ValueId} (hv : v.index < c.values.size) :
    c'.value v = c.value v := by
  have hl : v.index < c.values.toList.length := hv
  rw [h.value, List.getD_append _ _ _ _ hl, Context.value, Array.getD_eq_getD_getElem?, List.getD_eq_getElem?_getD,
    Array.getElem?_toList]

theorem value_new (h : Appends b es extra c c') {i : Nat} {e : Value} (he : es[i]? = some e) :
    c'.value ⟨c.values.size + i⟩ = e := by
  have hi : i < es.length := (List.getElem?_eq_some_iff.mp he).1
  have hl : c.values.toList.length ≤ c.values.size + i := by simp
  rw [h.value, List.getD_append_right _ _ _ _ hl, Array.length_toList, Nat.add_sub_cancel_left,
    List.getD_append _ _ _ _ hi, List.getD_eq_getElem?_getD, he]
  rfl

theorem trans (h : Appends b es [] c c') (k : Appends b es' extra c' c'') : Appends b (es ++ es') extra c c'' := by
  constructor
  · rw [k.values, h.values]
    simp
  · rw [k.block, h.block, h.size, List.length_append, places_add]
    simp
  · intro d hd
    rw [k.others d hd, h.others d hd]
  · rw [k.rest, h.rest]

theorem nothing (b : BlockId) (c : Context) : Appends b [] [] c c :=
  ⟨by simp, by simp [places], fun _ _ => rfl, rfl⟩

theorem constant (b : BlockId) (c : Context) (t : Ty) (k : Constant) :
    ∃ extra, Appends b [] extra c (c.constant t k).2 := by
  unfold Context.constant
  split
  · exact ⟨[], nothing b c⟩
  · exact ⟨[⟨t, none, .constant k⟩], by simp [Context.addValue], by simp [places]; rfl, fun _ _ => rfl, rfl⟩

theorem instruction (hb : c.HasBlock b) (op : Operation) (t : Ty) (name : Option String) :
    Appends b [⟨t, name, .instruction op b⟩] [] c (c.addInstruction b op t name).2 := by
  constructor
  · simp [Context.addInstruction, Context.addValue]
  · rw [Context.block_addInstruction hb, if_pos rfl]
    simp [places]
  · intro k hk
    rw [Context.block_addInstruction hb, if_neg hk]
  · rfl

end Appends

/-! ### What contexts refer to besides their instructions -/

/-- The values that metadata hangs on or holds are there. -/
structure Attached (ctx : Context) : Prop where
  targets : ∀ a ∈ ctx.attachments, ctx.HasValue a.target
  operands : ∀ k, ∀ o ∈ ctx.node k, ctx.Knows o.handles

namespace Attached
variable {ctx ctx' : Context}

theorem empty (layout : DataLayout) : Attached { layout := layout } where
  targets _ h := absurd h (Array.not_mem_empty _)
  operands _ _ h := absurd h List.not_mem_nil

/-- Only a change of the metadata matters. -/
private theorem keep (ha : Attached ctx) (h : ctx.Extends ctx') (hat : ctx'.attachments = ctx.attachments)
    (hn : ctx'.nodes = ctx.nodes) : Attached ctx' := by
  constructor
  · intro a hin
    exact h.hasValue (ha.targets a (hat ▸ hin))
  · intro k o ho
    rw [Context.node, hn] at ho
    exact h.knows (ha.operands k o ho)

theorem step (ha : Attached ctx) (h : Change ctx ctx') : Attached ctx' := by
  have keeps := h.keeps
  cases h with
  | @node operands hk =>
    refine ⟨ha.targets, fun k o ho => ?_⟩
    rw [Context.node, Context.addNode, getD_push] at ho
    split at ho
    · exact keeps.knows (hk o ho)
    · exact keeps.knows (ha.operands k o ho)
  | @nodeOperand n index operand hk =>
    refine ⟨ha.targets, fun k o ho => ?_⟩
    rw [Context.node, getD_modify] at ho
    split at ho
    · rcases List.mem_or_eq_of_mem_set ho with ho | rfl
      · exact keeps.knows (ha.operands k o ho)
      · exact keeps.knows hk
    · exact keeps.knows (ha.operands k o ho)
  | attachment hv =>
    refine ⟨fun a hin => ?_, fun k o ho => keeps.knows (ha.operands k o ho)⟩
    rcases Array.mem_push.mp hin with hin | rfl
    · exact ha.targets a hin
    · exact hv
  | @reattachment i n =>
    refine ⟨fun a hin => ?_, fun k o ho => keeps.knows (ha.operands k o ho)⟩
    obtain ⟨j, hj⟩ := Array.mem_iff_getElem?.mp hin
    rw [Array.getElem?_modify] at hj
    split at hj
    · obtain ⟨old, hold, rfl⟩ := Option.map_eq_some_iff.mp hj
      exact ha.targets old (Array.mem_of_getElem? hold)
    · exact ha.targets a (Array.mem_of_getElem? hj)
  | _ => exact ha.keep keeps rfl rfl

theorem evolve (ha : Attached ctx) (h : Evolves ctx ctx') : Attached ctx' := h.preserves step ha

end Attached

theorem Registered.grounded {ctx : Context} (hr : Registered ctx) (ha : Attached ctx) :
    Grounded ctx.values.size ctx where
  functions m f hf := by
    have hk := ((hr.listed m f).mp hf).1
    refine ⟨hr.hasValue hk, fun v hv => ?_⟩
    obtain ⟨i, hi⟩ := List.mem_iff_getElem?.mp hv
    exact hr.hasValue_arg hk hi
  attachments := ha.targets
  nodes k v hv := (ha.operands k _ hv).values v (.head _)

theorem Grounded.appended {n : Nat} {b : BlockId} {es extra : List Value} {c c' : Context} (hg : Grounded n c)
    (h : Appends b es extra c c') : Grounded n c' := by
  constructor
  · intro m f hf
    rw [Context.module, h.modules] at hf
    rw [Context.function, h.functions]
    exact hg.functions m f hf
  · rw [h.attachments]
    exact hg.attachments
  · intro k v hv
    rw [Context.node, h.nodes] at hv
    exact hg.nodes k v hv

/-! ### Growth at the end of a block -/

/-- On top of the instructions that a block had in a context, it has others, which stand one after another from a
position on. -/
structure Stacked (c : Context) (b : BlockId) (es : List Value) (start : Nat) (d : Context) : Prop where
  list : (d.block b).instructions.toList = (c.block b).instructions.toList ++ places start es.length
  value : ∀ i e, es[i]? = some e → d.value ⟨start + i⟩ = e

namespace Stacked
variable {b k : BlockId} {es fs extra : List Value} {start : Nat} {c d d' : Context}

theorem of_appends (h : Appends b es extra d d') (hb : d.block b = c.block b) :
    Stacked c b es d.values.size d' := by
  constructor
  · rw [h.block, hb]
    simp
  · intro i e he
    exact h.value_new he

theorem of_nothing (h : d.block b = c.block b) (start : Nat) : Stacked c b [] start d := by
  constructor
  · rw [h]
    simp [places]
  · intro i e he
    cases he

/-- What another block gets is no concern of this one. -/
theorem later (h : Stacked c b es start d) (ha : Appends k fs extra d d') (hk : b ≠ k)
    (hs : start + es.length ≤ d.values.size) : Stacked c b es start d' := by
  constructor
  · rw [ha.others b hk, h.list]
  · intro i e he
    have hi : i < es.length := (List.getElem?_eq_some_iff.mp he).1
    have hlt : start + i < d.values.size := by omega
    rw [ha.value_old hlt, h.value i e he]

end Stacked

/-- Instructions for a block whose operands are old, or results among them. -/
def Confined (n start : Nat) (b : BlockId) (es : List Value) : Prop :=
  ∀ e ∈ es, ∃ op, e.kind = .instruction op b ∧ ∀ u ∈ op.operands,
    u.index < n ∨ ∃ i r, es[i]? = some r ∧ u = ⟨start + i⟩ ∧ r.type.isVoid = false

/-- Where a value goes when those that are not old start at another position. -/
def shift (n s t : Nat) (v : ValueId) : ValueId := if v.index < n then v else ⟨v.index - s + t⟩

theorem shift_old {n : Nat} (s t : Nat) {v : ValueId} (hv : v.index < n) : shift n s t v = v := if_pos hv

theorem shift_new {n s : Nat} (t i : Nat) (hn : n ≤ s) : shift n s t ⟨s + i⟩ = ⟨t + i⟩ := by
  have hge : ¬ s + i < n := by omega
  rw [shift, if_neg hge, Nat.add_sub_cancel_left, Nat.add_comm]

/-- Two contexts grow alike at the end of a block. -/
def Parallel (n : Nat) (b : BlockId) (c c' d d' : Context) : Prop :=
  ∃ es x y, Appends b es x c c' ∧
    Appends b (es.map (Value.map (shift n c.values.size d.values.size))) y d d' ∧ Confined n c.values.size b es

namespace Relocation
variable {ρ : ValueId → ValueId} {b : BlockId} {es : List Value} {s t : Nat} {c p q : Context}

/-- An instruction on old values is the same whatever the others are called. -/
theorem map_old {v : Value} {op : Operation} {n : Nat} (hρ : ∀ v, v.index < n → ρ v = v)
    (hk : v.kind = .instruction op b) (hop : ∀ u ∈ op.operands, u.index < n) : v.map ρ = v := by
  have hm : op.map ρ = op := by
    rw [Operation.map_congr fun u hu => hρ u (hop u hu)]
    exact op.map_id
  obtain ⟨type, name, kind⟩ := v
  cases hk
  simp only [Value.map, hm]

/-- An old instruction has old operands. -/
theorem operands_old (ht : Typed c) (hp : Placed c) {v : ValueId} (hv : v ∈ (c.block b).instructions) :
    v.index < c.values.size ∧ ∃ op, (c.value v).kind = .instruction op b ∧
      ∀ u ∈ op.operands, u.index < c.values.size := by
  obtain ⟨op, hk⟩ := (hp.listed v b).mp hv
  exact ⟨Context.hasValue_of_instruction hk, op, hk, (ht v op b hk).1.values⟩

variable (hρ : ∀ v, v.index < c.values.size → ρ v = v) (hst : ∀ i < es.length, ρ ⟨s + i⟩ = ⟨t + i⟩)
  (ht : Typed c) (hp : Placed c) (hP : Stacked c b es s p)
  (hQ : Stacked c b (es.map (Value.map (shift c.values.size s t))) t q)

include hρ hst ht hp hP hQ in
theorem lists_of_stacked : (q.block b).instructions.toList = (p.block b).instructions.toList.map ρ := by
  have old : (c.block b).instructions.toList.map ρ = (c.block b).instructions.toList := by
    rw [List.map_congr_left fun v hv => hρ v (operands_old ht hp (Array.mem_toList_iff.mp hv)).1]
    exact List.map_id _
  rw [hP.list, hQ.list, List.map_append, old, map_places hst, List.length_map]

include hP in
/-- An instruction of the block is an old one, or one of those on top. -/
theorem mem_of_stacked {v : ValueId} (hv : v ∈ (p.block b).instructions) :
    v ∈ (c.block b).instructions ∨ ∃ i e, es[i]? = some e ∧ v = ⟨s + i⟩ := by
  rw [← Array.mem_toList_iff, hP.list, List.mem_append, mem_places] at hv
  rcases hv with hv | ⟨i, hi, rfl⟩
  · exact Or.inl (Array.mem_toList_iff.mp hv)
  · exact Or.inr ⟨i, es[i], List.getElem?_eq_getElem hi, rfl⟩

include hρ hst ht hp hP hQ in
theorem listed_of_stacked (hpo : ∀ v, v.index < c.values.size → p.value v = c.value v)
    (hqo : ∀ v, v.index < c.values.size → q.value v = c.value v) (hn : c.values.size ≤ s)
    (hc : Confined c.values.size s b es) {v : ValueId} (hv : v ∈ (p.block b).instructions) :
    q.value (ρ v) = (p.value v).map ρ := by
  rcases mem_of_stacked hP hv with hv | ⟨i, e, he, rfl⟩
  · obtain ⟨hlt, op, hk, hop⟩ := operands_old ht hp hv
    rw [hρ v hlt, hpo v hlt, hqo v hlt, map_old hρ hk hop]
  · have hi : i < es.length := (List.getElem?_eq_some_iff.mp he).1
    have hq : (es.map (Value.map (shift c.values.size s t)))[i]? = some (e.map (shift c.values.size s t)) := by
      rw [List.getElem?_map, he]
      rfl
    rw [hst i hi, hQ.value i _ hq, hP.value i e he]
    obtain ⟨op, hk, hop⟩ := hc e (List.mem_of_getElem? he)
    -- On the operands of the new instructions, both renamings agree.
    have hm : op.map (shift c.values.size s t) = op.map ρ := by
      refine Operation.map_congr fun u hu => ?_
      rcases hop u hu with hlt | ⟨j, r, hr, rfl, _⟩
      · rw [shift_old _ _ hlt, hρ u hlt]
      · rw [hst j (List.getElem?_eq_some_iff.mp hr).1, shift_new _ _ hn]
    obtain ⟨type, name, kind⟩ := e
    cases hk
    simp only [Value.map, hm]

include ht hp hP in
theorem closed_of_stacked (hpo : ∀ v, v.index < c.values.size → p.value v = c.value v)
    (hc : Confined c.values.size s b es) {v : ValueId} (hv : v ∈ (p.block b).instructions) :
    ∃ op e, (p.value v).kind = .instruction op e ∧ ∀ u ∈ op.operands,
      u.index < c.values.size ∨ u ∈ (p.block b).instructions ∧ (p.typeOf u).isVoid = false := by
  rcases mem_of_stacked hP hv with hv | ⟨i, e, he, rfl⟩
  · obtain ⟨hlt, op, hk, hop⟩ := operands_old ht hp hv
    exact ⟨op, b, by rw [hpo v hlt, hk], fun u hu => Or.inl (hop u hu)⟩
  · obtain ⟨op, hk, hop⟩ := hc e (List.mem_of_getElem? he)
    refine ⟨op, b, by rw [hP.value i e he, hk], fun u hu => ?_⟩
    rcases hop u hu with hlt | ⟨j, r, hr, rfl, hvoid⟩
    · exact Or.inl hlt
    · refine Or.inr ⟨?_, ?_⟩
      · rw [← Array.mem_toList_iff, hP.list]
        exact List.mem_append_right _ (mem_places.mpr ⟨j, (List.getElem?_eq_some_iff.mp hr).1, rfl⟩)
      · rw [Context.typeOf, hP.value j r hr, hvoid]

end Relocation

/-- Exchange the `a` values from a position on with the `b` values behind them. -/
def rotate (n a b : Nat) (v : ValueId) : ValueId :=
  if v.index < n then v
  else if v.index < n + a then ⟨v.index + b⟩
  else if v.index < n + a + b then ⟨v.index - a⟩
  else v

theorem rotate_injective (n a b : Nat) : Function.Injective (rotate n a b) := by
  intro ⟨i⟩ ⟨j⟩ h
  have hi : (rotate n a b ⟨i⟩).index = (rotate n a b ⟨j⟩).index := congrArg ValueId.index h
  unfold rotate at hi
  split_ifs at hi <;> simp only at * <;> congr 1 <;> omega

/-- Two blocks grow, in either order. What comes of it is the same up to where the new instructions stand. -/
theorem Parallel.interchange {x y : BlockId} {c cx cxy cy cyx : Context} (hxy : x ≠ y) (ht : Typed c) (hp : Placed c)
    (hx : Parallel c.values.size x c cx cy cyx) (hy : Parallel c.values.size y cx cxy c cy) :
    ∃ ρ, Relocation ρ c.values.size cxy cyx := by
  obtain ⟨es, x₁, x₂, hx₁, hx₂, hes⟩ := hx
  obtain ⟨fs, y₁, y₂, hy₁, hy₂, hfs⟩ := hy
  have sizex := hx₁.size
  have sizey := hy₂.size
  rw [List.length_map] at sizey
  let ρ := rotate c.values.size (es.length + x₁.length) (fs.length + y₂.length)
  have fixed : ∀ v, v.index < c.values.size → ρ v = v := fun v hv => if_pos hv
  have movex : ∀ i < es.length, ρ ⟨c.values.size + i⟩ = ⟨cy.values.size + i⟩ := by
    intro i hi
    simp only [ρ, rotate]
    split_ifs <;> simp <;> omega
  have movey : ∀ i < fs.length, ρ ⟨cx.values.size + i⟩ = ⟨c.values.size + i⟩ := by
    intro i hi
    simp only [ρ, rotate]
    split_ifs <;> simp <;> omega
  have oldp : ∀ v, v.index < c.values.size → cxy.value v = c.value v := fun v hv => by
    rw [hy₁.value_old (by omega), hx₁.value_old hv]
  have oldq : ∀ v, v.index < c.values.size → cyx.value v = c.value v := fun v hv => by
    rw [hx₂.value_old (by omega), hy₂.value_old hv]
  -- Every block has got the instructions of the one growth, of the other one, or none.
  have grown : ∀ b, ∃ gs s t, Stacked c b gs s cxy ∧
      Stacked c b (gs.map (Value.map (shift c.values.size s t))) t cyx ∧ Confined c.values.size s b gs ∧
      c.values.size ≤ s ∧ ∀ i < gs.length, ρ ⟨s + i⟩ = ⟨t + i⟩ := by
    intro b
    by_cases hbx : b = x
    · subst hbx
      refine ⟨es, c.values.size, cy.values.size, ?_, ?_, hes, Nat.le_refl _, movex⟩
      · exact (Stacked.of_appends hx₁ rfl).later hy₁ hxy (by omega)
      · exact Stacked.of_appends hx₂ (hy₂.others b hxy)
    · by_cases hby : b = y
      · subst hby
        refine ⟨fs, cx.values.size, c.values.size, ?_, ?_, hfs, by omega, movey⟩
        · exact Stacked.of_appends hy₁ (hx₁.others b hbx)
        · refine (Stacked.of_appends hy₂ rfl).later hx₂ hbx ?_
          rw [List.length_map]
          omega
      · refine ⟨[], c.values.size, c.values.size, ?_, ?_, nofun, Nat.le_refl _, nofun⟩
        · exact .of_nothing (by rw [hy₁.others b hby, hx₁.others b hbx]) _
        · exact .of_nothing (by rw [hx₂.others b hbx, hy₂.others b hby]) _
  refine ⟨ρ, ⟨rotate_injective _ _ _, fixed, fun v hv => by rw [oldp v hv, oldq v hv], ?_, ?_, ?_, ?_, ?_, ?_, ?_, ?_⟩⟩
  · rw [hx₂.functions, hy₂.functions, hy₁.functions, hx₁.functions]
  · rw [hx₂.modules, hy₂.modules, hy₁.modules, hx₁.modules]
  · rw [hx₂.nodes, hy₂.nodes, hy₁.nodes, hx₁.nodes]
  · rw [hx₂.attachments, hy₂.attachments, hy₁.attachments, hx₁.attachments]
  · intro b
    rw [hx₂.name, hy₂.name, hy₁.name, hx₁.name]
  · intro b
    obtain ⟨gs, s, t, hs, ht', _, _, hmove⟩ := grown b
    exact Relocation.lists_of_stacked fixed hmove ht hp hs ht'
  · intro b v hv
    obtain ⟨gs, s, t, hs, ht', hc, hn, hmove⟩ := grown b
    exact Relocation.listed_of_stacked fixed hmove ht hp hs ht' oldp oldq hn hc hv
  · intro b v hv
    obtain ⟨gs, s, t, hs, _, hc, _, _⟩ := grown b
    exact Relocation.closed_of_stacked ht hp hs oldp hc hv

end StackAssembler.IR
