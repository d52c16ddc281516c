import Mathlib.Data.Nat.ModEq
import StackAssembler.Proofs.ConstantTable
import StackAssembler.Proofs.Reachability

/-! Constants are canonical: there is one of each type and content, and it stays the one. -/
namespace StackAssembler.IR

namespace Context
variable {ctx ctx' : Context}

/-- A value is the constant of a type and content. -/
structure HasConstant (ctx : Context) (v : ValueId) (t : Ty) (c : Constant) : Prop where
  there : ctx.HasValue v
  type : ctx.typeOf v = t
  kind : (ctx.value v).kind = .constant c

theorem HasConstant.later {v : ValueId} {t : Ty} {c : Constant} (h : ctx.HasConstant v t c) (he : ctx.Extends ctx') :
    ctx'.HasConstant v t c :=
  ⟨he.hasValue h.there, (he.typeOf h.there).trans h.type, (he.kind h.there).trans h.kind⟩

theorem HasConstant.earlier {v : ValueId} {t : Ty} {c : Constant} (h : ctx'.HasConstant v t c) (he : ctx.Extends ctx')
    (hv : ctx.HasValue v) : ctx.HasConstant v t c :=
  ⟨hv, (he.typeOf hv).symm.trans h.type, (he.kind hv).symm.trans h.kind⟩

/-- A constant is one of the values. -/
theorem HasConstant.mem_values {v : ValueId} {t : Ty} {c : Constant} (h : ctx.HasConstant v t c) :
    ctx.value v ∈ ctx.values ∧ isConstant t c (ctx.value v) := by
  have hlt : v.index < ctx.values.size := h.there
  have ht : (ctx.value v).type = t := h.type
  exact ⟨by simp [value, Array.getD, hlt], by simp [isConstant, h.kind, ht]⟩

/-- Asking for a constant finds it or adds it. -/
theorem constant_cases (ctx : Context) (t : Ty) (c : Constant) :
    (ctx.constant t c).2 = ctx ∧ ctx.HasConstant (ctx.constant t c).1 t c ∨
      ctx.constant t c = (⟨ctx.values.size⟩, { ctx with values := ctx.values.push ⟨t, none, .constant c⟩ }) := by
  unfold constant
  cases hf : ctx.values.toList.findIdx? (isConstant t c) with
  | some i =>
    obtain ⟨hi, hfound, _⟩ := List.findIdx?_eq_some_iff_getElem.mp hf
    have hv : ctx.value ⟨i⟩ = ctx.values.toList[i] := by
      have hi' : i < ctx.values.size := hi
      simp [value, Array.getD, hi']
    have hfound : ctx.values.toList[i].kind = .constant c ∧ ctx.values.toList[i].type = t := by
      simpa [isConstant] using hfound
    exact Or.inl ⟨rfl, hi, by rw [typeOf, hv, hfound.2], by rw [hv, hfound.1]⟩
  | none => exact Or.inr rfl

theorem hasConstant_constant (ctx : Context) (t : Ty) (c : Constant) :
    (ctx.constant t c).2.HasConstant (ctx.constant t c).1 t c := by
  rcases ctx.constant_cases t c with ⟨hctx, h⟩ | h
  · rwa [hctx]
  · have hv : ({ ctx with values := ctx.values.push ⟨t, none, .constant c⟩ } : Context).value ⟨ctx.values.size⟩ =
        ⟨t, none, .constant c⟩ := by
      rw [value, getD_push, if_pos rfl]
    rw [h]
    exact ⟨by simp [HasValue], by rw [typeOf, hv], by rw [hv]⟩

theorem hasConstant_integer (ctx : Context) (width : Nat) (n : Int) :
    (ctx.integer width n).2.HasConstant (ctx.integer width n).1 (.int width) (.int (Word.truncate width n)) :=
  hasConstant_constant _ _ _

theorem values_intern (ctx : Context) (t : Ty) : (ctx.intern t).values = ctx.values := by
  unfold intern
  split <;> rfl

/-- Asking for an integer constant adds that constant or no value. -/
theorem values_integer (ctx : Context) (width : Nat) (n : Int) :
    (ctx.integer width n).2.values = ctx.values ∨
      (ctx.integer width n).2.values = ctx.values.push ⟨.int width, none, .constant (.int (Word.truncate width n))⟩ := by
  have hi := ctx.values_intern (.int width)
  rcases (ctx.intern (.int width)).constant_cases (.int width) (.int (Word.truncate width n)) with ⟨hctx, _⟩ | h
  · exact Or.inl (by rw [integer, hctx, hi])
  · exact Or.inr (by rw [integer, h, hi])

/-- A value of a longer table was there, or is one of those added. -/
theorem hasValue_of_append {xs : List Value} (h : ctx'.values = ctx.values ++ xs.toArray) {v : ValueId}
    (hv : ctx'.HasValue v) : ctx.HasValue v ∨ ∃ x ∈ xs, ctx'.value v = x := by
  by_cases hold : ctx.HasValue v
  · exact Or.inl hold
  · have hle : ctx.values.size ≤ v.index := Nat.le_of_not_lt hold
    have hlt : v.index - ctx.values.size < xs.length := by
      have hsize : v.index < ctx.values.size + xs.length := by
        rwa [HasValue, h, Array.size_append, List.size_toArray] at hv
      omega
    refine Or.inr ⟨xs[v.index - ctx.values.size], List.getElem_mem hlt, ?_⟩
    rw [value, h, Array.getD_eq_getD_getElem?, Array.getElem?_append_right hle, List.getElem?_toArray,
      List.getElem?_eq_getElem hlt, Option.getD_some]

end Context

/-- A change makes a constant that was not there, or all constants were there. -/
theorem Change.constants {ctx ctx' : Context} (h : Change ctx ctx') :
    (∃ t c, c.Fits t ∧ (∀ v, ¬ ctx.HasConstant v t c) ∧ ctx' = (ctx.addValue ⟨t, none, .constant c⟩).2) ∨
      ∀ v t c, ctx'.HasConstant v t c → ctx.HasValue v := by
  cases h with
  | @constant t c hfits hnew =>
    exact Or.inl ⟨t, c, hfits, fun v hv => hnew _ hv.mem_values.1 hv.mem_values.2, rfl⟩
  | @instruction b op t name =>
    have happend : (ctx.addInstruction b op t name).2.values = _ := Array.push_eq_append
    refine Or.inr fun v u c hv => (Context.hasValue_of_append happend hv.there).resolve_right ?_
    rintro ⟨x, hx, hvx⟩
    have hkind := hv.kind
    rw [hvx, List.mem_singleton.mp hx] at hkind
    cases hkind
  | name => exact Or.inr fun v u c hv => by simpa [Context.HasValue, Context.rename] using hv.there
  | @function m name result params variadic linkage =>
    have happend := ctx.declare_values m name result params variadic linkage
    refine Or.inr fun v u c hv => (Context.hasValue_of_append happend hv.there).resolve_right ?_
    rintro ⟨x, hx, hvx⟩
    have hkind := hv.kind
    rw [hvx] at hkind
    rcases List.mem_cons.mp hx with rfl | hx
    · cases hkind
    · obtain ⟨i, hi⟩ := Context.kind_argumentValues hx
      rw [hi] at hkind
      cases hkind
  | _ => exact Or.inr fun v u c hv => hv.there

/-- Constants of the same type and content are the same value, and each has the content that its type calls for. -/
structure Canonical (ctx : Context) : Prop where
  unique : ∀ v w t c, ctx.HasConstant v t c → ctx.HasConstant w t c → v = w
  fits : ∀ v t c, ctx.HasConstant v t c → c.Fits t

namespace Canonical
variable {ctx ctx' : Context}

theorem empty (layout : DataLayout) : Canonical { layout := layout } :=
  ⟨fun _ _ _ _ h => absurd h.there (Nat.not_lt_zero _), fun _ _ _ h => absurd h.there (Nat.not_lt_zero _)⟩

theorem step (hc : Canonical ctx) (h : Change ctx ctx') : Canonical ctx' := by
  have he := h.keeps
  rcases h.constants with ⟨t, c, hfits, hnew, rfl⟩ | hold
  · -- A constant is an old one, or it is the new one.
    have hcases {v : ValueId} {u : Ty} {d : Constant} (hv : (ctx.addValue ⟨t, none, .constant c⟩).2.HasConstant v u d) :
        ctx.HasConstant v u d ∨ v = ⟨ctx.values.size⟩ ∧ u = t ∧ d = c := by
      by_cases hv' : ctx.HasValue v
      · exact Or.inl (hv.earlier he hv')
      · have hlt : v.index < ctx.values.size + 1 := by simpa [Context.HasValue, Context.addValue] using hv.there
        obtain rfl : v = ⟨ctx.values.size⟩ := congrArg ValueId.mk (Nat.le_antisymm (Nat.le_of_lt_succ hlt) (Nat.le_of_not_lt hv'))
        have hnewv : (ctx.addValue ⟨t, none, .constant c⟩).2.value ⟨ctx.values.size⟩ = ⟨t, none, .constant c⟩ := by
          rw [Context.value, Context.addValue, getD_push, if_pos rfl]
        have htype := hv.type
        have hkind := hv.kind
        rw [Context.typeOf, hnewv] at htype
        rw [hnewv] at hkind
        exact Or.inr ⟨rfl, htype.symm, (ValueKind.constant.inj hkind).symm⟩
    constructor
    · intro v w u d hv hw
      rcases hcases hv with hv | ⟨rfl, rfl, rfl⟩ <;> rcases hcases hw with hw | ⟨rfl, hu, hd⟩
      · exact hc.unique v w u d hv hw
      · exact absurd (hd ▸ hu ▸ hv) (hnew v)
      · exact absurd hw (hnew w)
      · rfl
    · intro v u d hv
      rcases hcases hv with hv | ⟨_, rfl, rfl⟩
      · exact hc.fits v u d hv
      · exact hfits
  · constructor
    · intro v w t c hv hw
      exact hc.unique v w t c (hv.earlier he (hold v t c hv)) (hw.earlier he (hold w t c hw))
    · intro v t c hv
      exact hc.fits v t c (hv.earlier he (hold v t c hv))

theorem evolve (hc : Canonical ctx) (h : Evolves ctx ctx') : Canonical ctx' := h.preserves step hc

theorem eq_iff (hc : Canonical ctx) {v w : ValueId} {t u : Ty} {c d : Constant} (hv : ctx.HasConstant v t c)
    (hw : ctx.HasConstant w u d) : v = w ↔ t = u ∧ c = d := by
  constructor
  · rintro rfl
    exact ⟨hv.type.symm.trans hw.type, ValueKind.constant.inj (hv.kind.symm.trans hw.kind)⟩
  · rintro ⟨rfl, rfl⟩
    exact hc.unique v w t c hv hw

theorem payload_lt (hc : Canonical ctx) {v : ValueId} {width payload : Nat}
    (hv : ctx.HasConstant v (.int width) (.int payload)) : payload < 2 ^ width ∧ payload < 2 ^ 128 := by
  obtain ⟨_, hwidth, hlt⟩ := hc.fits v _ _ hv
  obtain rfl := Ty.int.inj hwidth
  exact ⟨hlt.trans_le (Nat.pow_le_pow_right (by decide) (Nat.min_le_left _ _)),
    hlt.trans_le (Nat.pow_le_pow_right (by decide) (Nat.min_le_right _ _))⟩

end Canonical

/-- Asking for a constant that is there finds it. -/
theorem Context.constant_of_hasConstant {ctx : Context} (hc : Canonical ctx) {v : ValueId} {t : Ty} {c : Constant}
    (hv : ctx.HasConstant v t c) : ctx.constant t c = (v, ctx) := by
  rcases ctx.constant_cases t c with ⟨hctx, hfound⟩ | hadded
  · exact Prod.ext (hc.unique _ _ t c hfound hv) hctx
  · have hevolves : Evolves ctx (ctx.constant t c).2 := (Evolves.constant (hc.fits v t c hv)).1
    have hsame := (hc.evolve hevolves).unique _ _ t c (ctx.hasConstant_constant t c) (hv.later hevolves.keeps)
    rw [hadded] at hsame
    exact absurd hv.there (by rw [← hsame]; exact Nat.lt_irrefl _)

/-! ### The index -/

/-- The values of a context with the index of the constants among them. -/
def Context.constantTable (ctx : Context) : ConstantTable := .ofValues ctx.values.toList

namespace Context
variable {ctx ctx' : Context}

theorem key?_constantTable {v : ValueId} {t : Ty} {c : Constant} :
    ctx.constantTable.key? v = some (t, c) ↔ ctx.HasConstant v t c := by
  by_cases hv : ctx.HasValue v
  · have hget : ctx.values.toList[v.index]? = some (ctx.value v) := by
      have hi : v.index < ctx.values.size := hv
      rw [value, Array.getD_eq_getD_getElem?, Array.getElem?_eq_getElem hi, Option.getD_some]
      exact Array.getElem?_toList.trans (Array.getElem?_eq_getElem hi)
    rw [ConstantTable.key?, constantTable, ConstantTable.ofValues, hget, Option.bind_some, Value.key?_eq_some]
    exact ⟨fun h => ⟨hv, h.1, h.2⟩, fun h => ⟨h.type, h.kind⟩⟩
  · have hget : ctx.values.toList[v.index]? = none := List.getElem?_eq_none (Nat.le_of_not_lt hv)
    rw [ConstantTable.key?, constantTable, ConstantTable.ofValues, hget, Option.bind_none]
    exact iff_of_false (Option.some_ne_none _).symm fun h => hv h.there

/-- Asking the context for a constant is asking its table. -/
theorem constant_constantTable (hc : Canonical ctx) (hs : ctx.constantTable.InStep) (t : Ty) (c : Constant) :
    ctx.constantTable.constant t c = ((ctx.constant t c).1, (ctx.constant t c).2.constantTable) := by
  cases hl : ctx.constantTable.index.lookup (t, c) with
  | some v =>
    have hv : ctx.HasConstant v t c := key?_constantTable.mp ((hs _ v).mp hl)
    rw [ConstantTable.constant_of_some hl, constant_of_hasConstant hc hv]
  | none =>
    rcases ctx.constant_cases t c with ⟨_, hv⟩ | hadded
    · exact absurd (key?_constantTable.mpr hv) (hs.key?_ne hl _)
    · rw [hadded, constantTable, constantTable, ConstantTable.ofValues_constant hl, Array.toList_push]
      rfl

end Context

/-- What changes a context is a run of its table. -/
theorem Change.runs {ctx ctx' : Context} (h : Change ctx ctx') (hs : ctx.constantTable.InStep) :
    ctx.constantTable.Runs ctx'.constantTable := by
  have added {xs : List Value} (hxs : ∀ x ∈ xs, x.key? = none) (happ : ctx'.values = ctx.values ++ xs.toArray) :
      ctx.constantTable.Runs ctx'.constantTable := by
    have hlist : ctx'.values.toList = ctx.values.toList ++ xs := by rw [happ, Array.toList_append]
    rw [Context.constantTable, Context.constantTable, hlist]
    exact ConstantTable.runs_ofValues_append hxs
  have he := h.keeps
  cases h with
  | @constant t c hfits hnew =>
    have hl : ctx.constantTable.index.lookup (t, c) = none := by
      refine Option.eq_none_iff_forall_ne_some.mpr fun v hv => ?_
      have hv := Context.key?_constantTable.mp ((hs _ v).mp hv)
      exact hnew _ hv.mem_values.1 hv.mem_values.2
    have hstep : ConstantTable.Step ctx.constantTable (ctx.constantTable.constant t c).2 := .constant t c
    rw [Context.constantTable, ConstantTable.ofValues_constant hl, ← Array.toList_push] at hstep
    exact .single hstep
  | instruction => exact added (List.forall_mem_singleton.mpr rfl) Array.push_eq_append
  | @name v name =>
    have hsize : (ctx.rename v name).values.size = ctx.values.size := Array.size_modify
    exact ConstantTable.runs_ofValues_kept (he.values.forall₂ hsize)
  | @function m name result params variadic linkage =>
    refine added (fun x hx => ?_) (ctx.declare_values m name result params variadic linkage)
    rcases List.mem_cons.mp hx with rfl | hx
    · rfl
    · obtain ⟨i, hi⟩ := Context.kind_argumentValues hx
      rw [Value.key?, hi]
  | _ => exact .refl

theorem Evolves.runs {ctx ctx' : Context} (h : Evolves ctx ctx') (hs : ctx.constantTable.InStep) :
    ctx.constantTable.Runs ctx'.constantTable := by
  induction h with
  | refl => exact .refl
  | tail _ hc ih => exact ih.trans (hc.runs (ih.inStep hs))

theorem Word.truncate_eq_emod {width : Nat} (hle : width ≤ 128) (n : Int) :
    Word.truncate width n = (n % 2 ^ width).toNat := by
  rw [Word.truncate, capacity, Nat.min_eq_left hle, Nat.pow_eq]
  push_cast
  rfl

/-- A number that a payload can hold is cut off to its remainder. It is the remainder already where the width is more
than a payload has. -/
theorem Word.truncate_natCast {width n : Nat} (hn : n < 2 ^ 128) : Word.truncate width n = n % 2 ^ width := by
  have hcut : Word.truncate width n = n % 2 ^ min width 128 := by
    rw [Word.truncate, Nat.pow_eq, ← Int.natCast_mod, Int.toNat_natCast]
    rfl
  rw [hcut]
  rcases Nat.le_total width 128 with h | h
  · rw [Nat.min_eq_left h]
  · rw [Nat.min_eq_right h, Nat.mod_eq_of_lt hn, Nat.mod_eq_of_lt (hn.trans_le (Nat.pow_le_pow_right (by decide) h))]

/-- Numbers that a payload can hold are cut off to the same payload if they agree in the low bits. -/
theorem Word.truncate_eq_iff {width n k : Nat} (hn : n < 2 ^ 128) (hk : k < 2 ^ 128) :
    Word.truncate width n = Word.truncate width k ↔ n ≡ k [MOD 2 ^ width] := by
  rw [Word.truncate_natCast hn, Word.truncate_natCast hk, Nat.ModEq]

end StackAssembler.IR

namespace StackAssembler.Build
open IR

theorem Reachable.canonical {m : Machine} (h : Reachable m) : Canonical m.context := by
  obtain ⟨layout, hl⟩ := h.leads
  exact (Canonical.empty layout).evolve hl.evolves

theorem Reachable.runs {m : Machine} (h : Reachable m) : ConstantTable.Runs {} m.context.constantTable := by
  obtain ⟨layout, hl⟩ := h.leads
  have hempty : ({ layout := layout } : Context).constantTable.InStep := .empty
  exact hl.evolves.runs hempty

theorem Reachable.inStep {m : Machine} (h : Reachable m) : m.context.constantTable.InStep := h.runs.inStep .empty

theorem Session.integer (m : Machine) (width : Nat) (n : Int) :
    Session m { m with context := (m.context.integer width n).2 } :=
  .step (.request (.integer width n)) .done Context.knows_nothing

/-- Constants are the same value if and only if they are of the same type and content. The payload of an integer
constant fits its width. Asking for integer constants at any two moments gives the same value if and only if the widths
are the same and the numbers agree up to the width; each time at most one value is added. And constants stay what they
are. The values and the index of the constants among them come about step by step from an empty table, and stay in step:
the index has all constants and nothing else, and it is what a constant is found by. -/
theorem Reachable.canonical_constants {m : Machine} (h : Reachable m) :
    (∀ v w t u c d, m.context.HasConstant v t c → m.context.HasConstant w u d → (v = w ↔ t = u ∧ c = d)) ∧
    (∀ v t payload, m.context.HasConstant v t (.int payload) → ∃ width, t = .int width ∧ payload < 2 ^ width) ∧
    (∀ m' (width₁ width₂ n k : Nat), Session { m with context := (m.context.integer width₁ n).2 } m' →
      n < 2 ^ 128 → k < 2 ^ 128 →
      ((m.context.integer width₁ n).1 = (m'.context.integer width₂ k).1 ↔ width₁ = width₂ ∧ n ≡ k [MOD 2 ^ width₁])) ∧
    (∀ width n, (m.context.integer width n).2.values = m.context.values ∨
      ∃ v, (m.context.integer width n).2.values = m.context.values.push v) ∧
    (∀ m' v t c, Session m m' → m.context.HasConstant v t c → m'.context.HasConstant v t c) ∧
    ConstantTable.Runs {} m.context.constantTable ∧
    (∀ v t c, m.context.constantTable.index.lookup (t, c) = some v ↔ m.context.HasConstant v t c) ∧
    (∀ t c, m.context.constantTable.constant t c =
      ((m.context.constant t c).1, (m.context.constant t c).2.constantTable)) ∧
    ∀ m', Session m m' → m.context.constantTable.Runs m'.context.constantTable := by
  refine ⟨fun v w t u c d => h.canonical.eq_iff, fun v t payload hv => ?_, fun m' width₁ width₂ n k later hn hk => ?_,
    fun width n => (m.context.values_integer width n).imp_right fun h => ⟨_, h⟩,
    fun m' v t c later hv => hv.later (h.keeps later), h.runs,
    fun v t c => (h.inStep (t, c) v).trans Context.key?_constantTable,
    m.context.constant_constantTable h.canonical h.inStep, fun m' later => (h.evolves later).runs h.inStep⟩
  · obtain ⟨width, rfl, hlt⟩ := h.canonical.fits v t _ hv
    exact ⟨width, rfl, hlt.trans_le (Nat.pow_le_pow_right (by decide) (Nat.min_le_left _ _))⟩
  · have h₁ := h.later (.integer m width₁ n)
    have h₂ := (h₁.later later).later (.integer m' width₂ k)
    have first := (Context.hasConstant_integer m.context width₁ n).later (h₁.keeps (later.trans (.integer m' width₂ k)))
    rw [h₂.canonical.eq_iff first (Context.hasConstant_integer m'.context width₂ k), Ty.int.injEq, Constant.int.injEq]
    refine and_congr_right ?_
    rintro rfl
    exact Word.truncate_eq_iff hn hk

/-- Another constant, and a sum that is folded to one that is there. -/
def Command.folding : List Command := [.request (.integer 8 22), .emit none (.binary .add ⟨8⟩ ⟨8⟩)]

/-- The machine that was asked for a byte. -/
def Machine.byte : Machine := { Machine.double with context := (Machine.double.context.integer 8 300).2 }

/-- The byte is found again, the constant of another width is another one, and the index has entered two constants on
the way. -/
theorem Reachable.canonical_constants_double :
    (Machine.double.context.integer 8 300).1 = ((Machine.byte.runAll Command.folding).context.integer 8 44).1 ∧
      (Machine.double.context.integer 8 300).1 ≠ ((Machine.byte.runAll Command.folding).context.integer 16 44).1 ∧
      Machine.double.context.constantTable.Runs (Machine.byte.runAll Command.folding).context.constantTable ∧
      Machine.double.context.constantTable.index = [] ∧
      (Machine.byte.runAll Command.folding).context.constantTable.index =
        [((.int 8, .int 44), ⟨7⟩), ((.int 8, .int 22), ⟨8⟩)] := by
  obtain ⟨_, _, hcalls, _, _, _, _, _, hruns⟩ := Reachable.double.canonical_constants
  have later : Session Machine.byte _ := .of_permits Command.folding (by decide +kernel)
  refine ⟨(hcalls _ 8 8 300 44 later (by decide) (by decide)).mpr ⟨rfl, by decide⟩, fun h => ?_,
    hruns _ ((Session.integer Machine.double 8 300).trans later), by decide +kernel, by decide +kernel⟩
  have hwidth := ((hcalls _ 8 16 300 44 later (by decide) (by decide)).mp h).1
  cases hwidth

end StackAssembler.Build
