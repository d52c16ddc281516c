import StackAssembler.Proofs.Footprint
import StackAssembler.Proofs.Reachability
import StackAssembler.Proofs.StringStore

/-! Strings on values make up a map. What is read is what was set last, whatever else was set and whatever else was built
in between. -/
namespace StackAssembler.IR
open Setting

namespace Stores
variable {ctx ctx' : Context} {history : List Setting}

theorem string?_carried (h : Stores ctx history) {v : ValueId} (hv : (ctx.value v).kind.carries) {tag : String}
    (ht : tag ≠ Tag.arguments) : ctx.string? v tag = (latest? history v tag).filter (· ≠ "") := by
  have hb := h.direct v tag hv ht
  rw [Context.string?_of_carries hv]
  cases hl : latest? history v tag with
  | none =>
    rw [hl] at hb
    rw [hb]
    rfl
  | some s =>
    rw [hl] at hb
    obtain ⟨n, hn, htexts⟩ := hb
    obtain ⟨m, hm, htext⟩ := htexts.text 0 s rfl
    rw [hn, Option.bind_some, List.head?_eq_getElem?, hm]
    dsimp only
    rw [htext, Node.leadingString?_text]

theorem string?_argument (h : Stores ctx history) {v : ValueId} {f : FunctionId} {i : Nat}
    (hv : (ctx.value v).kind = .argument f i) (tag : String) :
    ctx.string? v tag = (latestOfAny? history v).filter fun s => s ≠ "" ∧ s ≠ Tag.none := by
  have hseat := h.seated v f i hv
  have hslots := h.slots f (h.seated.hasFunction hv)
  rw [Context.string?_of_argument hv]
  cases hn : ctx.attached? (ctx.function f).value Tag.arguments with
  | none =>
    rw [(Context.seats_of_none hn).mp hslots v (List.mem_of_getElem? hseat)]
    rfl
  | some n =>
    have htexts := (Context.seats_of_some hn).mp hslots
    obtain ⟨m, hm, htext⟩ := htexts.text i ((latestOfAny? history v).getD Tag.none) (by simp [hseat])
    rw [Option.bind_some, hm]
    dsimp only
    rw [htext, Node.leadingString?_text, Option.filter_filter]
    cases latestOfAny? history v with
    | none => decide
    | some s => simp

theorem string?_constant (h : Stores ctx history) {v : ValueId} {c : Constant} (hv : (ctx.value v).kind = .constant c)
    (tag : String) : ctx.string? v tag = none := by
  have hnone := h.attached?_eq_none (by rw [hv]; exact Bool.false_ne_true) tag
  rw [Context.string?, hv]
  dsimp only
  rw [hnone]
  rfl

/-- What is read of a value depends on what it was given. -/
theorem string?_congr {history' : List Setting} (h : Stores ctx history) (h' : Stores ctx' history')
    (hvalues : ctx'.values = ctx.values) {v : ValueId} {tag : String} (ht : tag ≠ Tag.arguments)
    (hlatest : latest? history' v tag = latest? history v tag) (hany : latestOfAny? history' v = latestOfAny? history v) :
    ctx'.string? v tag = ctx.string? v tag := by
  have hvalue : ctx'.value v = ctx.value v := by rw [Context.value, hvalues, Context.value]
  cases hk : (ctx.value v).kind with
  | constant => rw [h.string?_constant hk, h'.string?_constant (hvalue ▸ hk)]
  | argument => rw [h.string?_argument hk, h'.string?_argument (hvalue ▸ hk), hany]
  | function | instruction =>
    have hc : (ctx.value v).kind.carries := by rw [hk]; rfl
    rw [h.string?_carried hc ht, h'.string?_carried (hvalue ▸ hc) ht, hlatest]

/-- Only constants cannot be given strings, and whatever comes of it is remembered. -/
theorem setString (h : Stores ctx history) {v : ValueId} (hv : ctx.HasValue v) {tag : String} (ht : tag ≠ Tag.arguments)
    (s : String) :
    Stores (after (Edit.setString v tag s) ctx) (⟨v, tag, s⟩ :: history) ∧
      Evolves ctx (after (Edit.setString v tag s) ctx) ∧ (after (Edit.setString v tag s) ctx).values = ctx.values ∧
      ((failure? (Edit.setString v tag s) ctx).isSome ↔ ∃ c, (ctx.value v).kind = .constant c) := by
  cases hk : (ctx.value v).kind with
  | constant c =>
    obtain ⟨ctx', hrun, he, hvalues, hstores⟩ := h.setString_constant hv hk tag s
    rw [after, failure?, hrun]
    exact ⟨hstores, he, hvalues, fun _ => ⟨c, rfl⟩, fun _ => rfl⟩
  | argument f i =>
    obtain ⟨ctx', hrun, he, hvalues, hstores⟩ := h.setString_argument hk tag s
    rw [after, failure?, hrun]
    exact ⟨hstores, he, hvalues, iff_of_false Bool.false_ne_true (by rintro ⟨c, hc⟩; cases hc)⟩
  | function | instruction =>
    obtain ⟨ctx', hrun, he, hvalues, hstores⟩ := h.setString_carried (by rw [hk]; rfl) ht s
    rw [after, failure?, hrun]
    exact ⟨hstores, he, hvalues, iff_of_false Bool.false_ne_true (by rintro ⟨c, hc⟩; cases hc)⟩

end Stores

/-! ### Histories -/

/-- The context after strings were given, the first of the list last. -/
def Context.give (ctx : Context) (xs : List Setting) : Context :=
  xs.foldr (fun x ctx => after (Edit.setString x.value x.tag x.text) ctx) ctx

/-- What a context was given while it was built, the latest first. Nothing but giving strings touches its attachments and
the nodes that they refer to. -/
inductive Annotated : Context → List Setting → Prop where
  | empty (layout : DataLayout) : Annotated { layout := layout } []
  | build {ctx ctx' : Context} {history : List Setting} : Annotated ctx history → Evolves ctx ctx' →
      ctx'.attachments = ctx.attachments → (∀ n, ctx.Carried n → ctx'.node n = ctx.node n) → Annotated ctx' history
  | set {ctx : Context} {history : List Setting} {x : Setting} : Annotated ctx history → ctx.HasValue x.value →
      x.tag ≠ Tag.arguments → Annotated (after (Edit.setString x.value x.tag x.text) ctx) (x :: history)

namespace Annotated
variable {ctx : Context} {history : List Setting}

theorem stores (h : Annotated ctx history) : Stores ctx history := by
  induction h with
  | empty layout => exact .empty layout
  | build _ he hat hcarried ih => exact ih.build he hat hcarried
  | @set _ _ x _ hv ht ih => exact (ih.setString hv ht x.text).1

/-- A dotted name is given as a string. -/
theorem mark (h : Annotated ctx history) {v : ValueId} (hv : ctx.HasValue v) (a : DottedName) :
    Annotated (after (Edit.mark v a) ctx) (⟨v, Tag.dottedName, a.text⟩ :: history) := by
  have ht : Tag.dottedName ≠ Tag.arguments := by decide
  exact h.set (x := ⟨v, Tag.dottedName, a.text⟩) hv ht

/-- Any number of strings are given, the first of the list last. -/
theorem give (h : Annotated ctx history) {xs : List Setting} (hv : ∀ x ∈ xs, ctx.HasValue x.value)
    (ht : ∀ x ∈ xs, x.tag ≠ Tag.arguments) : Annotated (ctx.give xs) (xs ++ history) := by
  suffices Annotated (ctx.give xs) (xs ++ history) ∧ (ctx.give xs).values = ctx.values from this.1
  induction xs with
  | nil => exact ⟨h, rfl⟩
  | cons x xs ih =>
    obtain ⟨hx, hv⟩ := List.forall_mem_cons.mp hv
    obtain ⟨hxt, ht⟩ := List.forall_mem_cons.mp ht
    obtain ⟨hxs, hvalues⟩ := ih hv ht
    have hx' : (ctx.give xs).HasValue x.value := by rwa [Context.HasValue, hvalues]
    exact ⟨hxs.set hx' hxt, (hxs.stores.setString hx' hxt x.text).2.2.1.trans hvalues⟩

/-- An instruction or a function reads under a tag as what it was last given under it, and an argument reads under all
tags as what it was last given. Only constants cannot be given strings, and an attempt changes no reading. What a value
is given changes the readings of no other value. -/
theorem reads_latest (h : Annotated ctx history) :
    (∀ v tag, (ctx.value v).kind.carries → tag ≠ Tag.arguments →
      ctx.string? v tag = (latest? history v tag).filter (· ≠ "")) ∧
    (∀ v f i tag, (ctx.value v).kind = .argument f i →
      ctx.string? v tag = (latestOfAny? history v).filter fun s => s ≠ "" ∧ s ≠ Tag.none) ∧
    ∀ v tag s, ctx.HasValue v → tag ≠ Tag.arguments →
      ((failure? (Edit.setString v tag s) ctx).isSome ↔ ∃ c, (ctx.value v).kind = .constant c) ∧
      ((failure? (Edit.setString v tag s) ctx).isSome → ∀ w t, t ≠ Tag.arguments →
        (after (Edit.setString v tag s) ctx).string? w t = ctx.string? w t) ∧
      ∀ w t, w ≠ v → t ≠ Tag.arguments → (after (Edit.setString v tag s) ctx).string? w t = ctx.string? w t := by
  have hs := h.stores
  refine ⟨fun v tag hv ht => hs.string?_carried hv ht, fun v f i tag hv => hs.string?_argument hv tag,
    fun v tag s hv ht => ?_⟩
  obtain ⟨hafter, _, hvalues, hfails⟩ := hs.setString hv ht s
  have hothers (w : ValueId) (t : String) (hw : w ≠ v) (ht : t ≠ Tag.arguments) :
      (after (Edit.setString v tag s) ctx).string? w t = ctx.string? w t := by
    refine hs.string?_congr hafter hvalues ht ?_ ?_
    · rw [latest?_cons, if_neg fun h => hw h.1.symm]
    · rw [latestOfAny?_cons, if_neg (Ne.symm hw)]
  refine ⟨hfails, fun hfail w t ht => ?_, hothers⟩
  by_cases hw : w = v
  · obtain ⟨c, hc⟩ := hfails.mp hfail
    subst hw
    have hc' : ((after (Edit.setString w tag s) ctx).value w).kind = .constant c := by
      rw [Context.value, hvalues]
      exact hc
    rw [hs.string?_constant hc, hafter.string?_constant hc']
  · exact hothers w t hw ht

end Annotated
end StackAssembler.IR

namespace StackAssembler.Build
open IR

/-- Whether a command leaves alone what is attached and what is in nodes. -/
def Command.sparesMetadata : Command → Bool
  | .request (.attach ..) | .request (.replaceNodeOperand ..) => false
  | _ => true

/-- Nothing is attached, and nodes are only added. -/
structure Spared (c d : Context) : Prop where
  attachments : d.attachments = c.attachments
  nodes : c.nodes.toList <+: d.nodes.toList

theorem Spared.of_within {p : Footprint} {c d : Context} (h : Within p c d) : Spared c d :=
  ⟨h.attachments, h.nodes ▸ List.prefix_refl _⟩

theorem Spared.refl (c : Context) : Spared c c := ⟨rfl, List.prefix_refl _⟩

theorem Request.spared {c : Context} {r : Request} (h : (Command.request r).sparesMetadata) : Spared c (r.run c) := by
  have internal (ts : List Ty) : Within {} c (c.internAll ts) := .internAll c ts
  cases r with
  | attach | replaceNodeOperand => cases h
  | intern t => exact .of_within (internal [t])
  | integer width n => exact .of_within ((internal [.int width]).trans (.constant _ _ _))
  | undef t => exact .of_within (.constant c t .undef)
  | integerOf t n =>
    cases t with
    | int => exact .of_within (.constant c _ _)
    | _ => exact .refl c
  | floatOf t bits =>
    cases t with
    | float => exact .of_within (.constant c _ _)
    | _ => exact .refl c
  | nullOf t =>
    cases t with
    | pointer => exact .of_within (.constant c _ _)
    | _ => exact .refl c
  | addFunction m name type linkage =>
    rcases Edit.addFunction_run m name type linkage c with ⟨result, params, variadic, rfl, _, hrun⟩ | ⟨err, hrun⟩
    · have hadd := (Within.addFunction hrun).2
      rw [Request.run, after, hrun]
      exact .of_within hadd
    · rw [Request.run, after, hrun]
      exact .refl c
  | attachBlock f b =>
    rw [Request.run, after, Edit.attachBlock]
    cases (c.block b).function with
    | none => exact .of_within (.adopt c f b)
    | some g => exact .refl c
  | addNode operands => exact ⟨rfl, by simp [Request.run, Context.addNode]⟩
  | rename | addModule | addBlock | appendBlock => exact ⟨rfl, List.prefix_refl _⟩

theorem Command.spared {m : Machine} {c : Command} (hs : m.Sound) (hk : m.context.Knows c.handles) (h : c.sparesMetadata) :
    Spared m.context (c.run m).context := by
  cases c with
  | request r => exact Request.spared h
  | perform a => exact .of_within (hs.within hk)
  | emit at? e =>
    have outcome := e.run_outcome at? m.context
    rw [Command.run, after]
    cases hr : e.run at? m.context with
    | ok v ctx => exact .of_within (Within.emission hr)
    | error err ctx =>
      rw [hr] at outcome
      cases outcome with
      | refused ts => exact .of_within (.internAll m.context ts)
  | last =>
    have hpop := Step.resolve_ends .stack m
    rw [Command.run, after]
    cases hr : Step.pop m with
    | ok v m₁ =>
      obtain ⟨_, _, rfl⟩ := hpop.of_ok hr
      exact .refl m.context
    | error err m₁ =>
      obtain rfl := hpop.of_error hr
      exact .refl m₁.context
  | restart => exact .refl m.context

/-- Whatever else is done with a machine may be done between two strings. -/
theorem Command.annotated {m : Machine} {c : Command} (hs : m.Sound) (hk : m.context.Knows c.handles)
    (h : c.sparesMetadata) {history : List Setting} (ha : Annotated m.context history) :
    Annotated (c.run m).context history := by
  have hspared := Command.spared hs hk h
  refine .build ha (hs.command hk).evolves hspared.attachments fun n hn => ?_
  obtain ⟨added, hadded⟩ := hspared.nodes
  rw [Context.node_eq_getElem, Context.node_eq_getElem, ← hadded,
    List.getElem?_append_left (ha.stores.hasNode_of_carried hn)]

/-- A machine whose values are given strings goes on. -/
theorem Machine.Sound.setString {m : Machine} (hs : m.Sound) {history : List Setting} (ha : Annotated m.context history)
    {v : ValueId} (hv : m.context.HasValue v) {tag : String} (ht : tag ≠ Tag.arguments) (s : String) :
    m.Leads { m with context := after (Edit.setString v tag s) m.context } :=
  hs.edited (ha.stores.setString hv ht s).2.1

/-- What was built without attachments has been given nothing. -/
theorem Reachable.annotated {m : Machine} (h : Reachable m) (hat : m.context.attachments = #[]) :
    Annotated m.context [] := by
  obtain ⟨layout, hl⟩ := h.leads
  refine .build (.empty layout) hl.evolves hat ?_
  rintro n ⟨a, ha, _⟩
  exact absurd ha (Array.not_mem_empty a)

/-- The argument of the function is given two strings, and the function one in between. -/
def Machine.notes : List Setting := [⟨⟨1⟩, "b", "second"⟩, ⟨⟨0⟩, "a", "double"⟩, ⟨⟨1⟩, "a", "first"⟩]

theorem Machine.reads_latest_double :
    (Machine.double.context.give Machine.notes).string? ⟨1⟩ "a" = some "second" ∧
      (Machine.double.context.give Machine.notes).string? ⟨0⟩ "a" = some "double" ∧
      (Machine.double.context.give Machine.notes).string? ⟨5⟩ "a" = none := by
  have bare : Annotated Machine.double.context [] := Reachable.double.annotated (by decide +kernel)
  have given : Annotated (Machine.double.context.give Machine.notes) (Machine.notes ++ []) :=
    bare.give (by decide +kernel) (by decide +kernel)
  obtain ⟨hcarried, hargument, _⟩ := given.reads_latest
  refine ⟨(hargument ⟨1⟩ ⟨0⟩ 0 "a" (by decide +kernel)).trans (by decide), ?_, ?_⟩
  · exact (hcarried ⟨0⟩ "a" (by decide +kernel) (by decide)).trans (by decide)
  · exact (hcarried ⟨5⟩ "a" (by decide +kernel) (by decide)).trans (by decide)

end StackAssembler.Build
