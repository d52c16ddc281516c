import StackAssembler.Proofs.Interchange
import StackAssembler.Proofs.Refusal

/-! Calls of the emitter at a block of two contexts that are alike as far as the calls can see. What succeeds in the
one succeeds in the other, and the two contexts grow alike. -/
namespace StackAssembler.IR

/-- What calls at a block read, of values before a position, is the same in two contexts. -/
structure Alike (n : Nat) (b : BlockId) (c d : Context) : Prop where
  values : n ≤ c.values.size ∧ n ≤ d.values.size
  block : c.HasBlock b ∧ d.HasBlock b
  layout : d.layout = c.layout
  functions : d.functions = c.functions
  value : ∀ v, v.index < n → d.value v = c.value v
  name : (d.block b).name = (c.block b).name
  function : (d.block b).function = (c.block b).function
  ended : (d.terminator? b).isSome = (c.terminator? b).isSome

namespace Alike
variable {n : Nat} {b : BlockId} {c d : Context}

theorem symm (h : Alike n b c d) : Alike n b d c where
  values := h.values.symm
  block := h.block.symm
  layout := h.layout.symm
  functions := h.functions.symm
  value v hv := (h.value v hv).symm
  name := h.name.symm
  function := h.function.symm
  ended := h.ended.symm

theorem typeOf (h : Alike n b c d) {v : ValueId} (hv : v.index < n) : d.typeOf v = c.typeOf v := by
  rw [Context.typeOf, h.value v hv, Context.typeOf]

theorem payload? (h : Alike n b c d) {v : ValueId} (hv : v.index < n) : d.payload? v = c.payload? v := by
  rw [Context.payload?, h.value v hv, Context.payload?]

theorem functionOf (h : Alike n b c d) (f : FunctionId) : d.function f = c.function f := by
  rw [Context.function, h.functions, Context.function]

/-! ### Verdicts -/

theorem inOpen (h : Alike n b c d) (next : BlockId → Verdict) :
    Verdict.inOpen d (some b) next = Verdict.inOpen c (some b) next := by
  simp only [Verdict.inOpen, h.ended, Context.blockLabel, h.name]

theorem write (h : Alike n b c d) (op : Operation) (t : Ty) (name : Option String) :
    Verdict.write d (some b) op t name = Verdict.write c (some b) op t name :=
  h.inOpen _

theorem inFunction (h : Alike n b c d) {next next' : Function → Verdict} (hn : ∀ f, next' f = next f) :
    Verdict.inFunction d (some b) next' = Verdict.inFunction c (some b) next := by
  rw [Verdict.inFunction, Verdict.inFunction, h.inOpen, funext hn]
  simp only [Verdict.inOpen, h.function, h.functionOf, Context.blockLabel, h.name]

theorem require (h : Alike n b c d) {v : ValueId} (hv : v.index < n) (t : Ty) (next : Verdict) :
    Verdict.require d v t next = Verdict.require c v t next := by
  rw [Verdict.require, Verdict.require, h.typeOf hv]

theorem requireEach (h : Alike n b c d) {vs : List ValueId} (hv : ∀ v ∈ vs, v.index < n) (ts : List Ty)
    (next : Verdict) : Verdict.requireEach d vs ts next = Verdict.requireEach c vs ts next := by
  induction vs generalizing ts with
  | nil => rfl
  | cons v vs ih =>
    cases ts with
    | nil => rfl
    | cons t ts =>
      obtain ⟨hv, hvs⟩ := List.forall_mem_cons.mp hv
      rw [Verdict.requireEach, Verdict.requireEach, ih hvs, h.require hv]

theorem icmp (h : Alike n b c d) {l r : ValueId} (hl : l.index < n) (hr : r.index < n) (pred : Predicate) :
    Verdict.icmp d (some b) pred l r = Verdict.icmp c (some b) pred l r := by
  simp only [Verdict.icmp, Emitter.foldCompare?, h.typeOf hl, h.require hr, h.payload? hl, h.payload? hr, h.write]

theorem fcmp (h : Alike n b c d) {l r : ValueId} (hl : l.index < n) (hr : r.index < n) (pred : Predicate) :
    Verdict.fcmp d (some b) pred l r = Verdict.fcmp c (some b) pred l r := by
  simp only [Verdict.fcmp, h.typeOf hl, h.require hr, h.write]

theorem cast (h : Alike n b c d) {v : ValueId} (hv : v.index < n) (op : CastOp) (t : Ty) :
    Verdict.cast d (some b) op v t = Verdict.cast c (some b) op v t := by
  simp only [Verdict.cast, Emitter.foldCast?, h.layout, h.typeOf hv, h.payload? hv, h.write]

/-- Both contexts come to the same verdict. -/
theorem verdict (h : Alike n b c d) {e : Emission} (he : ∀ v ∈ e.handles.values, v.index < n) :
    e.verdict d (some b) = e.verdict c (some b) := by
  cases e with
  | alloca t name => simp only [Emission.verdict, h.layout, h.write]
  | load t p =>
    have hp := he p (.head _)
    simp only [Emission.verdict, h.typeOf hp, h.write]
  | store v p =>
    have hv := he v (.head _)
    have hp := he p (.tail _ (.head _))
    simp only [Emission.verdict, h.typeOf hp, h.require hv, h.write]
  | binary op l r =>
    have hl := he l (.head _)
    have hr := he r (.tail _ (.head _))
    simp only [Emission.verdict, Emitter.foldBinary?, h.typeOf hl, h.require hr, h.payload? hl, h.payload? hr, h.write]
  | icmp pred l r => exact h.icmp (he l (.head _)) (he r (.tail _ (.head _))) pred
  | fcmp pred l r => exact h.fcmp (he l (.head _)) (he r (.tail _ (.head _))) pred
  | compare pred l r =>
    have hl := he l (.head _)
    have hr := he r (.tail _ (.head _))
    simp only [Emission.verdict, h.icmp hl hr, h.fcmp hl hr]
  | cast op v t => exact h.cast (he v (.head _)) op t
  | zextOrTrunc v t =>
    have hv := he v (.head _)
    simp only [Emission.verdict, Verdict.zextOrTrunc, h.typeOf hv, h.cast hv]
  | fptoui v t =>
    have hv := he v (.head _)
    simp only [Emission.verdict, h.typeOf hv, h.cast hv]
  | phi incoming =>
    cases incoming with
    | nil => rfl
    | cons first rest =>
      have hf : first.1.index < n := he first.1 (.head _)
      have hvs : ∀ v ∈ (first :: rest).map Prod.fst, v.index < n := he
      simp only [Emission.verdict, Verdict.phi, h.typeOf hf, h.requireEach hvs, h.write]
  | br dest => exact h.write _ _ _
  | condBr v t f =>
    have hv := he v (.head _)
    simp only [Emission.verdict, h.require hv, h.write]
  | call f args =>
    have hargs : ∀ v ∈ args, v.index < n := he
    simp only [Emission.verdict, h.functionOf, h.requireEach hargs, h.write]
  | ret v =>
    have hv := he v (.head _)
    rw [Emission.verdict, Emission.verdict]
    exact h.inFunction fun f => by rw [h.typeOf hv, h.write]
  | retVoid =>
    rw [Emission.verdict, Emission.verdict]
    exact h.inFunction fun f => by rw [h.write]

end Alike

/-! ### Single calls -/

theorem Appends.interned {b : BlockId} {es extra : List Value} {c c' : Context} {ts : List Ty}
    (h : Appends b es extra (c.internAll ts) c') : Appends b es extra c c' := by
  rw [Context.internAll_eq] at h
  exact ⟨h.values, h.block, h.others, h.rest⟩

/-- Nothing that a block lists comes of a call in either context. -/
theorem Parallel.nothing {n : Nat} {b : BlockId} {c c' d d' : Context} {x y : List Value} (h : Appends b [] x c c')
    (k : Appends b [] y d d') : Parallel n b c c' d d' :=
  ⟨[], x, y, h, k, nofun⟩

/-- A call on old values that succeeds in one context succeeds in another one that is alike. -/
theorem Emission.follows {n : Nat} {b : BlockId} {c c' d : Context} {e : Emission} {v : ValueId} (h : Alike n b c d)
    (he : ∀ v ∈ e.handles.values, v.index < n) (hr : e.run (some b) c = .ok v c') :
    ∃ w d', e.run (some b) d = .ok w d' ∧ Parallel n b c c' d d' := by
  obtain ⟨ts, _, hc⟩ := e.run_settles (some b) c
  obtain ⟨us, _, hd⟩ := e.run_settles (some b) d
  have hp := e.verdict_plain c (some b)
  rw [hr] at hc
  rw [h.verdict he] at hd
  cases hv : e.verdict c (some b) with
  | refused err =>
    rw [hv] at hc
    cases hc
  | operand u =>
    rw [hv] at hc hd
    cases hc
    exact ⟨v, _, hd, .nothing (Appends.nothing b _).interned (Appends.nothing b _).interned⟩
  | folded width k =>
    rw [hv] at hc hd
    cases hc
    obtain ⟨x, hx⟩ := Appends.constant b (c.internAll ts) (.int width) (.int (Word.truncate width k))
    obtain ⟨y, hy⟩ := Appends.constant b (d.internAll us) (.int width) (.int (Word.truncate width k))
    exact ⟨_, _, hd, .nothing hx.interned hy.interned⟩
  | written op t name =>
    rw [hv] at hc hd hp
    cases hc
    have old : ∀ u ∈ op.operands, u.index < n := fun u hu => he u (hp.operands ▸ hu)
    have hb : (c.internAll ts).HasBlock b := by
      rw [Context.internAll_eq]
      exact h.block.1
    have hb' : (d.internAll us).HasBlock b := by
      rw [Context.internAll_eq]
      exact h.block.2
    have same : [Value.mk t name (.instruction op b)].map (Value.map (shift n c.values.size d.values.size)) =
        [Value.mk t name (.instruction op b)] := by
      rw [List.map_singleton, Relocation.map_old (fun v => shift_old _ _) rfl old]
    refine ⟨_, _, hd, [⟨t, name, .instruction op b⟩], [], [], ?_, ?_, ?_⟩
    · exact (Appends.instruction hb op t name).interned
    · rw [same]
      exact (Appends.instruction hb' op t name).interned
    · intro e hin
      rw [List.mem_singleton] at hin
      exact ⟨op, by rw [hin], fun u hu => Or.inl (old u hu)⟩

/-! ### Calls of functions -/

namespace Context
variable {ctx : Context}

theorem terminator?_addInstruction {b : BlockId} (hb : ctx.HasBlock b) (op : Operation) (t : Ty)
    (name : Option String) : ((ctx.addInstruction b op t name).2.terminator? b).isSome = op.isTerminator := by
  simp only [terminator?, block_addInstruction hb, value_addInstruction, Value.operation?]
  cases hop : op.isTerminator <;> simp [hop]

end Context

/-- The same instruction, up to its operands, is written in both contexts. -/
theorem Alike.instruction {n : Nat} {b : BlockId} {c d : Context} (h : Alike n b c d) (op : Operation) (t : Ty)
    (name : Option String) : Alike n b (c.addInstruction b op t name).2 (d.addInstruction b op t name).2 := by
  have sizes := h.values
  constructor
  · simp only [Context.addInstruction, Context.addValue, Array.size_push]
    omega
  · simpa [Context.HasBlock, Context.addInstruction, Context.addValue] using h.block
  · exact h.layout
  · exact h.functions
  · intro v hv
    rw [Context.value_addInstruction, Context.value_addInstruction, if_neg (by omega), if_neg (by omega), h.value v hv]
  · rw [Context.block_addInstruction h.block.1, Context.block_addInstruction h.block.2, if_pos rfl, if_pos rfl, h.name]
  · rw [Context.block_addInstruction h.block.1, Context.block_addInstruction h.block.2, if_pos rfl, if_pos rfl,
      h.function]
  · rw [Context.terminator?_addInstruction h.block.1, Context.terminator?_addInstruction h.block.2]

/-! ### Calls of functions -/

namespace Emitter
variable {ctx : Context}

theorem expectEach_ok {vs : List ValueId} {ts : List Ty} (h : ∀ p ∈ vs.zip ts, ctx.typeOf p.1 = p.2) :
    expectEach vs ts ctx = .ok () ctx := by
  induction vs generalizing ts with
  | nil => rfl
  | cons v vs ih =>
    cases ts with
    | nil => rfl
    | cons t ts =>
      rw [List.zip_cons_cons, List.forall_mem_cons] at h
      rw [expectEach, expect_bind, if_pos h.1]
      exact ih h.2

/-- What a call that succeeds found, and what it wrote. -/
theorem call_ok {at? : Option BlockId} {f : FunctionId} {vs : List ValueId} {v : ValueId} {ctx' : Context}
    (h : call at? f vs ctx = .ok v ctx') :
    accepts (ctx.function f) vs.length ∧ (∀ p ∈ vs.zip (ctx.function f).params, ctx.typeOf p.1 = p.2) ∧
      ∃ b, at? = some b ∧ ctx.terminator? b = none ∧ v = ⟨ctx.values.size⟩ ∧
        ctx' = (ctx.addInstruction b (.call f vs) (ctx.function f).result none).2 := by
  rw [call, get_bind, ite_run] at h
  split at h
  · next ha =>
    rcases expectEach_run vs (ctx.function f).params ctx with ⟨hr, hts⟩ | ⟨err, hr⟩
    · rw [bind_of_ok hr] at h
      exact ⟨ha, hts, append_ok h⟩
    · rw [bind_of_error hr] at h
      cases h
  · cases h

theorem call_open {f : FunctionId} {vs : List ValueId} {b : BlockId} (ha : accepts (ctx.function f) vs.length)
    (hts : ∀ p ∈ vs.zip (ctx.function f).params, ctx.typeOf p.1 = p.2) (ho : (ctx.terminator? b).isSome = false) :
    call (some b) f vs ctx =
      .ok ⟨ctx.values.size⟩ (ctx.addInstruction b (.call f vs) (ctx.function f).result none).2 := by
  rw [call, get_bind, if_pos ha, bind_of_ok (expectEach_ok hts)]
  exact append_open ho

/-- A cast never goes to the type of nothing. -/
theorem isVoid_of_isLegal {layout : DataLayout} {s t : Ty} (h : isLegal layout .bitcast s t) : t.isVoid = false := by
  cases t <;> simp_all [isLegal, Ty.isPointer, Ty.isInteger, Ty.isFloat, Ty.isVoid]

end Emitter
end StackAssembler.IR

namespace StackAssembler.Build
open IR

/-- Casts of old values come to the end of a block of two contexts. The values that are asked for are old, or they
are among the casts. -/
structure Coerces (n : Nat) (b : BlockId) (ws : List ValueId) (es : List Value) (c c' d d' : Context) : Prop where
  left : Appends b es [] c c'
  right : Appends b es [] d d'
  alike : Alike n b c' d'
  casts : ∀ e ∈ es, ∃ op, e.kind = .instruction op b ∧ (∀ u ∈ op.operands, u.index < n) ∧ e.type.isVoid = false
  values : ∀ w ∈ ws, w.index < n ∨ ∃ i e, es[i]? = some e ∧ w = ⟨c.values.size + i⟩

theorem Coerces.nothing {n : Nat} {b : BlockId} {ws : List ValueId} {c d : Context} (h : Alike n b c d)
    (hws : ∀ w ∈ ws, w.index < n) : Coerces n b ws [] c c d d :=
  ⟨.nothing b c, .nothing b d, h, nofun, fun w hw => Or.inl (hws w hw)⟩

/-- Old values and those behind one more value in both contexts move as far as before. -/
private theorem map_shift_succ {n s t : Nat} {ws : List ValueId} (hs : n ≤ s)
    (hws : ∀ w ∈ ws, w.index < n ∨ ∃ i, w = ⟨s + 1 + i⟩) :
    ws.map (shift n (s + 1) (t + 1)) = ws.map (shift n s t) := by
  refine List.map_congr_left fun w hw => ?_
  rcases hws w hw with hlt | ⟨i, rfl⟩
  · rw [shift_old _ _ hlt, shift_old _ _ hlt]
  · rw [shift_new _ _ (by omega), Nat.add_assoc s, shift_new _ _ hs, Nat.add_assoc]

/-- A cast of an old value may stand in front of other casts. -/
theorem Coerces.cast {n : Nat} {b : BlockId} {c c' d d' : Context} {ws : List ValueId} {es : List Value} {v : ValueId}
    {t : Ty} (h : Alike n b c d) (hv : v.index < n) (ht : t.isVoid = false)
    (hc : Coerces n b ws es (c.addInstruction b (.cast .bitcast v) t none).2 c'
      (d.addInstruction b (.cast .bitcast v) t none).2 d') :
    Coerces n b (⟨c.values.size⟩ :: ws) (⟨t, none, .instruction (.cast .bitcast v) b⟩ :: es) c c' d d' where
  left := (Appends.instruction h.block.1 _ _ _).trans hc.left
  right := (Appends.instruction h.block.2 _ _ _).trans hc.right
  alike := hc.alike
  casts := List.forall_mem_cons.mpr ⟨⟨_, rfl, by simpa [Operation.operands] using hv, ht⟩, hc.casts⟩
  values := by
    refine List.forall_mem_cons.mpr ⟨Or.inr ⟨0, _, rfl, rfl⟩, fun w hw => ?_⟩
    rcases hc.values w hw with hlt | ⟨i, e, he, rfl⟩
    · exact Or.inl hlt
    · exact Or.inr ⟨i + 1, e, he, by rw [Context.size_addInstruction, Nat.add_assoc, Nat.add_comm 1 i]⟩

/-- Arguments that are cast to parameters in one context are cast to them in another one that is alike. -/
theorem coerceEach_follows {n : Nat} {b : BlockId} {c c' d : Context} {vs ws : List ValueId} {ts : List Ty}
    (h : Alike n b c d) (hvs : ∀ v ∈ vs, v.index < n) (hr : Step.coerceEach (some b) vs ts c = .ok ws c') :
    ∃ es d', Step.coerceEach (some b) vs ts d = .ok (ws.map (shift n c.values.size d.values.size)) d' ∧
      Coerces n b ws es c c' d d' := by
  induction vs generalizing ts ws c d with
  | nil =>
    cases hr
    exact ⟨[], d, rfl, .nothing h nofun⟩
  | cons v vs ih =>
    cases ts with
    | nil =>
      cases hr
      have same : (v :: vs).map (shift n c'.values.size d.values.size) = v :: vs := by
        rw [List.map_congr_left fun w hw => shift_old _ _ (hvs w hw), List.map_id']
      exact ⟨[], d, by rw [same]; rfl, .nothing h hvs⟩
    | cons t ts =>
      obtain ⟨hv, hvs⟩ := List.forall_mem_cons.mp hvs
      rw [Step.coerceEach_cons] at hr
      obtain ⟨w, c₁, hw, hr⟩ := bind_ok hr
      obtain ⟨ws, c₂, hws, hr⟩ := bind_ok hr
      cases hr
      unfold Step.coerce at hw
      by_cases ht : c.typeOf v = t
      · rw [if_pos ht] at hw
        cases hw
        obtain ⟨es, d', hd, hc⟩ := ih h hvs hws
        have hw' : Step.coerce (some b) v t d = .ok v d := by
          rw [Step.coerce, h.typeOf hv, if_pos ht]
        refine ⟨es, d', ?_, { hc with values := List.forall_mem_cons.mpr ⟨Or.inl hv, hc.values⟩ }⟩
        rw [Step.coerceEach_cons, bind_of_ok hw', bind_of_ok hd, List.map_cons, shift_old _ _ hv]
        rfl
      · rw [if_neg ht] at hw
        obtain ⟨hl, _, hb, ho, rfl, rfl⟩ := Emitter.bitcast_ok ht hw
        cases hb
        have next := h.instruction (.cast .bitcast v) t none
        obtain ⟨es, d', hd, hc⟩ := ih next hvs hws
        have hw' : Step.coerce (some b) v t d =
            .ok ⟨d.values.size⟩ (d.addInstruction b (.cast .bitcast v) t none).2 := by
          rw [Step.coerce, h.typeOf hv, if_neg ht]
          apply Emitter.bitcast_open
          · rwa [h.typeOf hv]
          · rwa [h.typeOf hv, h.layout]
          · rw [h.ended, ho]
            rfl
        refine ⟨_, d', ?_, hc.cast h hv (Emitter.isVoid_of_isLegal hl)⟩
        have first : shift n c.values.size d.values.size ⟨c.values.size⟩ = ⟨d.values.size⟩ :=
          shift_new d.values.size 0 h.values.1
        have placed : ∀ w ∈ ws, w.index < n ∨ ∃ i, w = ⟨c.values.size + 1 + i⟩ := by
          intro w hw
          rcases hc.values w hw with hlt | ⟨i, _, _, hi⟩
          · exact Or.inl hlt
          · exact Or.inr ⟨i, by rw [hi, Context.size_addInstruction]⟩
        have rest := map_shift_succ (t := d.values.size) h.values.1 placed
        rw [Context.size_addInstruction, Context.size_addInstruction, rest] at hd
        rw [Step.coerceEach_cons, bind_of_ok hw', bind_of_ok hd, List.map_cons, first]
        rfl

/-- A call of a function with old arguments that succeeds in one context succeeds in another one that is alike. -/
theorem call_follows {n : Nat} {b : BlockId} {c c' d : Context} {f : FunctionId} {vs : List ValueId} {v : ValueId}
    (h : Alike n b c d) (hvs : ∀ v ∈ vs, v.index < n)
    (hr : (Step.coerceEach (some b) vs (c.function f).params >>= Emitter.call (some b) f) c = .ok v c') :
    ∃ w d', (Step.coerceEach (some b) vs (c.function f).params >>= Emitter.call (some b) f) d = .ok w d' ∧
      Parallel n b c c' d d' := by
  obtain ⟨ws, c₁, hws, hr⟩ := bind_ok hr
  obtain ⟨es, d₁, hd, hc⟩ := coerceEach_follows h hvs hws
  obtain ⟨ha, hts, _, hb, ho, rfl, rfl⟩ := Emitter.call_ok hr
  cases hb
  have type : ∀ w ∈ ws, d₁.typeOf (shift n c.values.size d.values.size w) = c₁.typeOf w := by
    intro w hw
    rcases hc.values w hw with hlt | ⟨i, e, he, rfl⟩
    · rw [shift_old _ _ hlt, hc.alike.typeOf hlt]
    · rw [shift_new _ _ h.values.1, Context.typeOf, hc.right.value_new he, Context.typeOf, hc.left.value_new he]
  have hcall : Emitter.call (some b) f (ws.map (shift n c.values.size d.values.size)) d₁ =
      .ok ⟨d₁.values.size⟩ (d₁.addInstruction b (.call f (ws.map (shift n c.values.size d.values.size)))
        (d₁.function f).result none).2 := by
    apply Emitter.call_open
    · rwa [hc.alike.functionOf, List.length_map]
    · rw [hc.alike.functionOf, List.zip_map_left]
      intro p hp
      obtain ⟨q, hq, rfl⟩ := List.mem_map.mp hp
      rw [Prod.map_fst, type q.1 (List.of_mem_zip hq).1]
      exact hts q hq
    · rw [hc.alike.ended, ho]
      rfl
  refine ⟨_, _, by rw [bind_of_ok hd, hcall], es ++ [⟨(c₁.function f).result, none, .instruction (.call f ws) b⟩],
    [], [], ?_, ?_, ?_⟩
  · exact hc.left.trans (Appends.instruction hc.alike.block.1 _ _ _)
  · have casts : es.map (Value.map (shift n c.values.size d.values.size)) = es := by
      have same : ∀ e ∈ es, e.map (shift n c.values.size d.values.size) = e := fun e he => by
        obtain ⟨op, hk, hop, _⟩ := hc.casts e he
        exact Relocation.map_old (fun v => shift_old _ _) hk hop
      rw [List.map_congr_left same, List.map_id']
    rw [List.map_append, casts, List.map_singleton, ← hc.alike.functionOf]
    exact hc.right.trans (Appends.instruction hc.alike.block.2 _ _ _)
  · intro e he
    rcases List.mem_append.mp he with he | he
    · obtain ⟨op, hk, hop, _⟩ := hc.casts e he
      exact ⟨op, hk, fun u hu => Or.inl (hop u hu)⟩
    · rw [List.mem_singleton] at he
      subst he
      refine ⟨_, rfl, fun u hu => ?_⟩
      rcases hc.values u hu with hlt | ⟨i, r, hr, rfl⟩
      · exact Or.inl hlt
      · obtain ⟨_, _, _, hvoid⟩ := hc.casts r (List.mem_of_getElem? hr)
        refine Or.inr ⟨i, r, ?_, rfl, hvoid⟩
        rw [List.getElem?_append_left (List.getElem?_eq_some_iff.mp hr).1, hr]

end StackAssembler.Build
