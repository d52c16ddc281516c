import StackAssembler.Proofs.Metadata

/-! Where a context keeps the strings that its values were given. Instructions and functions have nodes of their own, and
the arguments of a function share one, which is changed in place. -/
namespace StackAssembler.IR

/-- A value is given a string under a tag. -/
structure Setting where
  value : ValueId
  tag : String
  text : String
  deriving DecidableEq, Repr

namespace Setting

/-- What a value was last given under a tag. The latest comes first. -/
def latest? (history : List Setting) (v : ValueId) (tag : String) : Option String :=
  (history.find? fun x => x.value = v ∧ x.tag = tag).map (·.text)

/-- What a value was last given under whatever tag. -/
def latestOfAny? (history : List Setting) (v : ValueId) : Option String :=
  (history.find? fun x => x.value = v).map (·.text)

variable {history : List Setting} {x : Setting} {v : ValueId}

theorem latest?_cons (tag : String) : latest? (x :: history) v tag =
    if x.value = v ∧ x.tag = tag then some x.text else latest? history v tag := by
  rw [latest?, List.find?_cons, latest?]
  by_cases h : x.value = v ∧ x.tag = tag <;> simp [h]

theorem latestOfAny?_cons : latestOfAny? (x :: history) v =
    if x.value = v then some x.text else latestOfAny? history v := by
  rw [latestOfAny?, List.find?_cons, latestOfAny?]
  by_cases h : x.value = v <;> simp [h]

theorem latest?_eq_none (h : ∀ x ∈ history, x.value ≠ v) (tag : String) : latest? history v tag = none := by
  rw [latest?, List.find?_eq_none.mpr fun x hx => by simp [h x hx], Option.map_none]

theorem latestOfAny?_eq_none (h : ∀ x ∈ history, x.value ≠ v) : latestOfAny? history v = none := by
  rw [latestOfAny?, List.find?_eq_none.mpr fun x hx => by simp [h x hx], Option.map_none]

end Setting
open Setting

namespace Context

theorem hasValue_of_carries {ctx : Context} {v : ValueId} (h : (ctx.value v).kind.carries) : ctx.HasValue v :=
  hasValue_of_kind rfl fun hk => by rw [hk] at h; cases h

/-- A node that is attached, or that an attached node refers to. -/
def Carried (ctx : Context) (n : NodeId) : Prop :=
  ∃ a ∈ ctx.attachments, n = a.node ∨ .node n ∈ ctx.node a.node

/-- A value carries a string under a tag, or nothing. -/
def Bears (ctx : Context) (v : ValueId) (tag : String) : Option String → Prop
  | none => ctx.attached? v tag = none
  | some s => ∃ n, ctx.attached? v tag = some n ∧ ctx.HoldsTexts n [s]

/-- One node has the strings of a function's arguments, or there is none and no argument has a string. -/
def Seats (ctx : Context) (f : FunctionId) (strings : ValueId → Option String) : Prop :=
  match ctx.attached? (ctx.function f).value Tag.arguments with
  | none => ∀ v ∈ (ctx.function f).args, strings v = none
  | some n => ctx.HoldsTexts n ((ctx.function f).args.map fun v => (strings v).getD Tag.none)

variable {ctx ctx' : Context}

theorem Bears.keep {v : ValueId} {tag : String} {string : Option String} (h : ctx.Bears v tag string)
    (hat : ctx'.attached? v tag = ctx.attached? v tag)
    (htexts : ∀ n ss, ctx.attached? v tag = some n → ctx.HoldsTexts n ss → ctx'.HoldsTexts n ss) :
    ctx'.Bears v tag string := by
  cases string with
  | none => exact hat.trans h
  | some s =>
    obtain ⟨n, hn, ht⟩ := h
    exact ⟨n, hat.trans hn, htexts n [s] hn ht⟩

theorem seats_of_none {f : FunctionId} {strings : ValueId → Option String}
    (hn : ctx.attached? (ctx.function f).value Tag.arguments = none) :
    ctx.Seats f strings ↔ ∀ v ∈ (ctx.function f).args, strings v = none := by
  rw [Seats, hn]

theorem seats_of_some {f : FunctionId} {strings : ValueId → Option String} {n : NodeId}
    (hn : ctx.attached? (ctx.function f).value Tag.arguments = some n) :
    ctx.Seats f strings ↔ ctx.HoldsTexts n ((ctx.function f).args.map fun v => (strings v).getD Tag.none) := by
  rw [Seats, hn]

theorem Seats.keep {f : FunctionId} {strings strings' : ValueId → Option String} (h : ctx.Seats f strings)
    (hvalue : (ctx'.function f).value = (ctx.function f).value) (hargs : (ctx'.function f).args = (ctx.function f).args)
    (hat : ctx'.attached? (ctx.function f).value Tag.arguments = ctx.attached? (ctx.function f).value Tag.arguments)
    (htexts : ∀ n ss, ctx.attached? (ctx.function f).value Tag.arguments = some n → ctx.HoldsTexts n ss → ctx'.HoldsTexts n ss)
    (hstrings : ∀ v ∈ (ctx.function f).args, strings' v = strings v) : ctx'.Seats f strings' := by
  cases hn : ctx.attached? (ctx.function f).value Tag.arguments with
  | none =>
    rw [seats_of_none (by rw [hvalue, hat, hn]), hargs]
    exact fun v hv => (hstrings v hv).trans ((seats_of_none hn).mp h v hv)
  | some n =>
    have hmap : (ctx.function f).args.map (fun v => (strings' v).getD Tag.none) =
        (ctx.function f).args.map fun v => (strings v).getD Tag.none :=
      List.map_congr_left fun v hv => by rw [hstrings v hv]
    rw [seats_of_some (by rw [hvalue, hat, hn]), hargs, hmap]
    exact htexts n _ hn ((seats_of_some hn).mp h)

theorem string?_of_carries {v : ValueId} (hv : (ctx.value v).kind.carries) (tag : String) :
    ctx.string? v tag = (ctx.attached? v tag).bind fun n =>
      match (ctx.node n).head? with
      | some (.node m) => (ctx.node m).leadingString?
      | _ => none := by
  unfold string?
  cases hk : (ctx.value v).kind with
  | constant | argument => rw [hk] at hv; cases hv
  | instruction | function => rfl

theorem string?_of_argument {v : ValueId} {f : FunctionId} {i : Nat} (hv : (ctx.value v).kind = .argument f i)
    (tag : String) :
    ctx.string? v tag = (ctx.attached? (ctx.function f).value Tag.arguments).bind fun n =>
      match (ctx.node n)[i]? with
      | some (.node m) => (ctx.node m).leadingString?.filter (· ≠ Tag.none)
      | _ => none := by
  rw [string?, hv, argumentString?, hv]
  rfl

end Context

theorem Node.leadingString?_text (s : String) : Node.leadingString? [.string s] = (some s).filter (· ≠ "") := by
  by_cases hs : s = "" <;> simp [Node.leadingString?, Option.filter, hs]

/-- A context in which no node is attached twice. -/
structure Tidy (ctx : Context) : Prop where
  coherent : Coherent ctx
  seated : Seated ctx
  there : ∀ a ∈ ctx.attachments, ctx.HasNode a.node
  bearers : ∀ a ∈ ctx.attachments, (ctx.value a.target).kind.carries
  apart : ∀ a ∈ ctx.attachments, ∀ b ∈ ctx.attachments, a.node = b.node → a.target = b.target ∧ a.kind = b.kind

namespace Tidy
variable {ctx ctx' : Context}

theorem empty (layout : DataLayout) : Tidy { layout := layout } where
  coherent := .empty layout
  seated := .empty layout
  there _ h := absurd h (Array.not_mem_empty _)
  bearers _ h := absurd h (Array.not_mem_empty _)
  apart _ h := absurd h (Array.not_mem_empty _)

theorem evolve (h : Tidy ctx) (he : Evolves ctx ctx') (hat : ctx'.attachments = ctx.attachments) : Tidy ctx' where
  coherent := h.coherent.evolve he
  seated := h.seated.evolve he
  there a ha := he.keeps.hasNode (h.there a (hat ▸ ha))
  bearers a ha := by
    rw [hat] at ha
    rw [he.keeps.kind (h.coherent.attached.targets a ha)]
    exact h.bearers a ha
  apart := hat ▸ h.apart

theorem attach (h : Tidy ctx) {v : ValueId} {kind : String} {n : NodeId} (he : Evolves ctx ctx')
    (ha : ctx.Attaches v kind n ctx') (hv : (ctx.value v).kind.carries) (hn : ctx.HasNode n)
    (hfresh : ∀ a ∈ ctx.attachments, a.node ≠ n) : Tidy ctx' := by
  have hvalue (w : ValueId) : ctx'.value w = ctx.value w := by rw [ha.rest]; rfl
  refine ⟨h.coherent.evolve he, h.seated.evolve he, fun a hin => ?_, fun a hin => ?_, fun a hin b hib hab => ?_⟩
  · rcases ha.only a hin with rfl | hin
    · exact he.keeps.hasNode hn
    · exact he.keeps.hasNode (h.there a hin)
  · rw [hvalue]
    rcases ha.only a hin with rfl | hin
    · exact hv
    · exact h.bearers a hin
  · rcases ha.only a hin with rfl | hin <;> rcases ha.only b hib with rfl | hib
    · exact ⟨rfl, rfl⟩
    · exact absurd hab.symm (hfresh b hib)
    · exact absurd hab (hfresh a hin)
    · exact h.apart a hin b hib hab

theorem attached?_eq_none (h : Tidy ctx) {v : ValueId} (hv : ¬ (ctx.value v).kind.carries) (kind : String) :
    ctx.attached? v kind = none :=
  Option.eq_none_iff_forall_ne_some.mpr fun _ hn => hv (h.bearers _ (Context.mem_of_attached? hn))

theorem kind_arg (h : Tidy ctx) {f : FunctionId} (hf : ctx.HasFunction f) {v : ValueId}
    (hv : v ∈ (ctx.function f).args) : ∃ i, (ctx.value v).kind = .argument f i ∧ (ctx.function f).args[i]? = some v := by
  obtain ⟨i, hi⟩ := List.mem_iff_getElem?.mp hv
  exact ⟨i, (h.coherent.registered.args f i v hf hi).2, hi⟩

theorem value_injective (h : Tidy ctx) {f g : FunctionId} (hf : ctx.HasFunction f) (hg : ctx.HasFunction g)
    (hv : (ctx.function f).value = (ctx.function g).value) : f = g := by
  have hk := (h.coherent.registered.value f hf).2
  rw [hv, (h.coherent.registered.value g hg).2] at hk
  exact (ValueKind.function.inj hk).symm

theorem hasNode_of_carried (h : Tidy ctx) {n : NodeId} (hn : ctx.Carried n) : ctx.HasNode n := by
  obtain ⟨a, ha, rfl | hin⟩ := hn
  · exact h.there a ha
  · exact (h.coherent.attached.operands a.node _ hin).nodes n (.head _)

end Tidy

/-- A context with what was set in it. -/
structure Stores (ctx : Context) (history : List Setting) : Prop extends Tidy ctx where
  known : ∀ x ∈ history, ctx.HasValue x.value
  direct : ∀ v tag, (ctx.value v).kind.carries → tag ≠ Tag.arguments → ctx.Bears v tag (latest? history v tag)
  slots : ∀ f, ctx.HasFunction f → ctx.Seats f (latestOfAny? history)

namespace Stores
variable {ctx ctx' : Context} {history : List Setting}

theorem empty (layout : DataLayout) : Stores { layout := layout } [] where
  toTidy := .empty layout
  known := nofun
  direct _ _ _ _ := rfl
  slots _ h := absurd h (Nat.not_lt_zero _)

/-- What was not there has not been given anything. -/
theorem unknown (h : Stores ctx history) {v : ValueId} (hv : ¬ ctx.HasValue v) : ∀ x ∈ history, x.value ≠ v :=
  fun x hx hxv => hv (hxv ▸ h.known x hx)

/-- Nothing that is carried may change while other things are built. -/
theorem build (h : Stores ctx history) (he : Evolves ctx ctx') (hat : ctx'.attachments = ctx.attachments)
    (hcarried : ∀ n, ctx.Carried n → ctx'.node n = ctx.node n) : Stores ctx' history := by
  have tidy := h.toTidy.evolve he hat
  have hattached (v : ValueId) (kind : String) : ctx'.attached? v kind = ctx.attached? v kind := by
    rw [Context.attached?, hat, Context.attached?]
  have hkeep {v : ValueId} {kind : String} {n : NodeId} {ss : List String} (hn : ctx.attached? v kind = some n)
      (ht : ctx.HoldsTexts n ss) : ctx'.HoldsTexts n ss :=
    ht.keep (hcarried n ⟨_, Context.mem_of_attached? hn, Or.inl rfl⟩) fun m hm =>
      hcarried m ⟨_, Context.mem_of_attached? hn, Or.inr hm⟩
  have hnew {v : ValueId} (hv : ¬ ctx.HasValue v) (kind : String) : ctx'.attached? v kind = none :=
    (hattached v kind).trans (h.attached?_eq_none (fun hc => hv (Context.hasValue_of_carries hc)) kind)
  refine ⟨tidy, fun x hx => he.keeps.hasValue (h.known x hx), fun v tag hv ht => ?_, fun f hf => ?_⟩
  · by_cases hold : ctx.HasValue v
    · exact (h.direct v tag (he.keeps.kind hold ▸ hv) ht).keep (hattached v tag) fun n ss => hkeep
    · rw [latest?_eq_none (h.unknown hold)]
      exact hnew hold tag
  · by_cases hold : ctx.HasFunction f
    · have hrest := (he.keeps.function hold).rest
      exact (h.slots f hold).keep (by rw [hrest]) (by rw [hrest]) (hattached _ _) (fun n ss => hkeep) fun _ _ => rfl
    · -- The values of a function that is new are new.
      have hvalue : ¬ ctx.HasValue (ctx'.function f).value := fun hv =>
        hold (h.coherent.owned _ f (Or.inl ((he.keeps.kind hv).symm.trans (tidy.coherent.registered.value f hf).2)))
      have hargs : ∀ v ∈ (ctx'.function f).args, ¬ ctx.HasValue v := by
        intro v hin hv
        obtain ⟨i, hk, _⟩ := tidy.kind_arg hf hin
        exact hold (h.coherent.owned v f (Or.inr ⟨i, (he.keeps.kind hv).symm.trans hk⟩))
      rw [Context.seats_of_none (hnew hvalue _)]
      exact fun v hin => latestOfAny?_eq_none (h.unknown (hargs v hin))

theorem addNodes (h : Stores ctx history) (ha : ctx.AddsNodes ctx') : Stores ctx' history :=
  h.build ha.evolves ha.attachments fun _ hn => ha.node (h.hasNode_of_carried hn)

/-- What is not an argument of a function has no part in the strings of its arguments. -/
theorem latestOfAny?_arg (h : Stores ctx history) {x : Setting} {f : FunctionId} (hf : ctx.HasFunction f)
    (hx : ∀ i, (ctx.value x.value).kind ≠ .argument f i) {v : ValueId} (hv : v ∈ (ctx.function f).args) :
    latestOfAny? (x :: history) v = latestOfAny? history v := by
  rw [latestOfAny?_cons, if_neg]
  rintro rfl
  obtain ⟨i, hk, _⟩ := h.kind_arg hf hv
  exact hx i hk

/-- Constants are not given anything. -/
theorem ignore (h : Stores ctx history) {x : Setting} {c : Constant} (hx : ctx.HasValue x.value)
    (hc : (ctx.value x.value).kind = .constant c) : Stores ctx (x :: history) := by
  refine ⟨h.toTidy, List.forall_mem_cons.mpr ⟨hx, h.known⟩, fun v tag hv ht => ?_, fun f hf => ?_⟩
  · rw [latest?_cons, if_neg]
    · exact h.direct v tag hv ht
    · rintro ⟨rfl, _⟩
      rw [hc] at hv
      cases hv
  · have hx (i : Nat) : (ctx.value x.value).kind ≠ .argument f i := by rw [hc]; nofun
    exact (h.slots f hf).keep rfl rfl rfl (fun _ _ _ ht => ht) fun v hv => h.latestOfAny?_arg hf hx hv

/-- An instruction or a function is given a string. -/
theorem attach (h : Stores ctx history) {x : Setting} {n : NodeId} (he : Evolves ctx ctx')
    (ha : ctx.Attaches x.value x.tag n ctx') (hv : (ctx.value x.value).kind.carries) (htag : x.tag ≠ Tag.arguments)
    (htexts : ctx.HoldsTexts n [x.text]) (hn : ctx.HasNode n) (hfresh : ∀ a ∈ ctx.attachments, a.node ≠ n) :
    Stores ctx' (x :: history) := by
  have tidy := h.toTidy.attach he ha hv hn hfresh
  obtain ⟨rest, _, hattached⟩ := ha
  generalize ctx'.attachments = attachments at rest
  subst rest
  have known : ∀ y ∈ x :: history, ctx.HasValue y.value :=
    List.forall_mem_cons.mpr ⟨Context.hasValue_of_carries hv, h.known⟩
  refine ⟨tidy, known, fun v tag hv' ht => ?_, fun f hf => ?_⟩
  · rw [latest?_cons]
    by_cases hx : x.value = v ∧ x.tag = tag
    · obtain ⟨rfl, rfl⟩ := hx
      rw [if_pos ⟨rfl, rfl⟩]
      exact ⟨n, by rw [hattached, if_pos ⟨rfl, rfl⟩], htexts.keep rfl fun _ _ => rfl⟩
    · rw [if_neg hx]
      have hother : ¬ (v = x.value ∧ tag = x.tag) := fun ⟨hv, ht⟩ => hx ⟨hv.symm, ht.symm⟩
      exact (h.direct v tag hv' ht).keep (by rw [hattached, if_neg hother]) fun n ss _ ht => ht.keep rfl fun _ _ => rfl
  · have hx (i : Nat) : (ctx.value x.value).kind ≠ .argument f i := fun hk => by rw [hk] at hv; cases hv
    refine (h.slots f hf).keep rfl rfl ?_ (fun n ss _ ht => ht.keep rfl fun _ _ => rfl) fun v hv => h.latestOfAny?_arg hf hx hv
    rw [hattached, if_neg fun hk => htag hk.2.symm]

/-- A function is given a node for the strings of its arguments, none of which has a string yet. -/
theorem attachSlots (h : Stores ctx history) {f : FunctionId} {n : NodeId} (hf : ctx.HasFunction f) (he : Evolves ctx ctx')
    (ha : ctx.Attaches (ctx.function f).value Tag.arguments n ctx')
    (hnone : ctx.attached? (ctx.function f).value Tag.arguments = none)
    (htexts : ctx.HoldsTexts n ((ctx.function f).args.map fun _ => Tag.none)) (hn : ctx.HasNode n)
    (hfresh : ∀ a ∈ ctx.attachments, a.node ≠ n) : Stores ctx' history := by
  have hvalue := (h.coherent.registered.value f hf).2
  have tidy := h.toTidy.attach he ha (by rw [hvalue]; rfl) hn hfresh
  obtain ⟨rest, _, hattached⟩ := ha
  generalize ctx'.attachments = attachments at rest
  subst rest
  refine ⟨tidy, h.known, fun v tag hv ht => ?_, fun g hg => ?_⟩
  · have hother : ¬ (v = (ctx.function f).value ∧ tag = Tag.arguments) := fun h => ht h.2
    exact (h.direct v tag hv ht).keep (by rw [hattached, if_neg hother]) fun n ss _ ht => ht.keep rfl fun _ _ => rfl
  · by_cases hgf : g = f
    · subst hgf
      have hempty : (ctx.function g).args.map (fun v => (latestOfAny? history v).getD Tag.none) =
          (ctx.function g).args.map fun _ => Tag.none :=
        List.map_congr_left fun v hv => by rw [(Context.seats_of_none hnone).mp (h.slots g hg) v hv, Option.getD_none]
      refine (Context.seats_of_some ((hattached _ _).trans (if_pos ⟨rfl, rfl⟩))).mpr ?_
      change Context.HoldsTexts _ n ((ctx.function g).args.map _)
      rw [hempty]
      exact htexts.keep rfl fun _ _ => rfl
    · have hother : ¬ ((ctx.function g).value = (ctx.function f).value ∧ Tag.arguments = Tag.arguments) := fun hv =>
        hgf (h.value_injective hg hf hv.1)
      exact (h.slots g hg).keep rfl rfl (by rw [hattached, if_neg hother]) (fun n ss _ ht => ht.keep rfl fun _ _ => rfl)
        fun _ _ => rfl

/-- A string for an argument is one for its position only. -/
theorem texts_cons (h : Stores ctx history) {x : Setting} {f : FunctionId} {i : Nat}
    (hx : (ctx.value x.value).kind = .argument f i) :
    (ctx.function f).args.map (fun v => (latestOfAny? (x :: history) v).getD Tag.none) =
      ((ctx.function f).args.map fun v => (latestOfAny? history v).getD Tag.none).set i x.text := by
  have hf : ctx.HasFunction f := h.seated.hasFunction hx
  have hseat : (ctx.function f).args[i]? = some x.value := h.seated _ f i hx
  have hi : i < (ctx.function f).args.length := (List.getElem?_eq_some_iff.mp hseat).1
  refine List.ext_getElem? fun j => ?_
  rw [List.getElem?_map]
  by_cases hij : i = j
  · subst hij
    rw [hseat, List.getElem?_set_self (by rwa [List.length_map]), Option.map_some, latestOfAny?_cons, if_pos rfl,
      Option.getD_some]
  · rw [List.getElem?_set_ne hij, List.getElem?_map]
    cases hv : (ctx.function f).args[j]? with
    | none => rfl
    | some v =>
      have hk := (h.coherent.registered.args f j v hf hv).2
      have hne : x.value ≠ v := fun he => hij (ValueKind.argument.inj (hx.symm.trans (he ▸ hk))).2
      rw [Option.map_some, Option.map_some, latestOfAny?_cons, if_neg hne]

/-- An argument is given a string: the node of its function refers to another node at its position. -/
theorem redirect (h : Stores ctx history) {x : Setting} {f : FunctionId} {i : Nat} {n m : NodeId}
    (hx : (ctx.value x.value).kind = .argument f i)
    (hn : ctx.attached? (ctx.function f).value Tag.arguments = some n) (hm : ctx.HoldsText m x.text) :
    Stores (ctx.redirect n i m) (x :: history) := by
  have hf : ctx.HasFunction f := h.seated.hasFunction hx
  have hslots := (Context.seats_of_some hn).mp (h.slots f hf)
  have hi : i < ((ctx.function f).args.map fun v => (latestOfAny? history v).getD Tag.none).length := by
    rw [List.length_map]
    exact (List.getElem?_eq_some_iff.mp (h.seated _ f i hx)).1
  have he : Evolves ctx (ctx.redirect n i m) := .redirect n i hm.hasNode
  have known : ∀ y ∈ x :: history, ctx.HasValue y.value :=
    List.forall_mem_cons.mpr ⟨Context.hasValue_of_kind hx (by simp), h.known⟩
  -- No other attachment has the node that is changed, and no node with just a string is that node.
  have hkeep {v : ValueId} {tag : String} (hne : ¬ (v = (ctx.function f).value ∧ tag = Tag.arguments)) (k : NodeId)
      (ss : List String) (hk : ctx.attached? v tag = some k) (hss : ctx.HoldsTexts k ss) :
      (ctx.redirect n i m).HoldsTexts k ss := by
    refine hslots.redirect_of_ne hi m ?_ hss
    rintro rfl
    exact hne (h.apart _ (Context.mem_of_attached? hk) _ (Context.mem_of_attached? hn) rfl)
  refine ⟨h.toTidy.evolve he rfl, known, fun v tag hv ht => ?_, fun g hg => ?_⟩
  · have hne : x.value ≠ v := by
      rintro rfl
      change (ctx.value x.value).kind.carries at hv
      rw [hx] at hv
      cases hv
    rw [latest?_cons, if_neg fun h => hne h.1]
    exact (h.direct v tag hv ht).keep rfl (hkeep fun h => ht h.2)
  · by_cases hgf : g = f
    · subst hgf
      have hn' : (ctx.redirect n i m).attached? ((ctx.redirect n i m).function g).value Tag.arguments = some n := hn
      rw [Context.seats_of_some hn']
      change Context.HoldsTexts _ n ((ctx.function g).args.map _)
      rw [h.texts_cons hx]
      exact hslots.redirect hi hm
    · have hother (j : Nat) : (ctx.value x.value).kind ≠ .argument g j := fun hj =>
        hgf (ValueKind.argument.inj (hj.symm.trans hx)).1
      exact (h.slots g hg).keep rfl rfl rfl (hkeep fun hv => hgf (h.value_injective hg hf hv.1))
        fun v hv => h.latestOfAny?_arg hg hother hv

/-! ### Setting strings -/

/-- A value can be given a new node that refers to nodes with strings. -/
theorem attachTuple_ok (h : Stores ctx history) {v : ValueId} (hv : (ctx.value v).kind.carries) (kind : String)
    (ss : List String) :
    ∃ n ctx₁ ctx₂, ctx.addStringTuple ss = (n, ctx₁) ∧ Edit.attach v kind n ctx₁ = .ok () ctx₂ ∧ ctx.AddsNodes ctx₁ ∧
      ctx₁.Attaches v kind n ctx₂ ∧ Evolves ctx₁ ctx₂ ∧ ctx₁.HoldsTexts n ss ∧ ctx₁.HasNode n ∧
      ∀ a ∈ ctx₁.attachments, a.node ≠ n := by
  obtain ⟨hadds, htexts, hnew, hthere⟩ := ctx.addStringTuple_spec ss
  have hv₁ : ((ctx.addStringTuple ss).2.value v).kind.carries := by rwa [Context.value, hadds.values]
  obtain ⟨ctx₂, hattach, ha⟩ := Edit.attach_ok hv₁ kind (ctx.addStringTuple ss).1
  have he : Evolves (ctx.addStringTuple ss).2 ctx₂ := by
    have he : Evolves _ (after (Edit.attach v kind (ctx.addStringTuple ss).1) _) :=
      .attach (Context.hasValue_of_carries hv₁) hthere
    rwa [after, hattach] at he
  have hfresh : ∀ a ∈ (ctx.addStringTuple ss).2.attachments, a.node ≠ (ctx.addStringTuple ss).1 := by
    intro a hin han
    rw [hadds.attachments] at hin
    exact hnew (han ▸ h.there a hin)
  exact ⟨_, _, ctx₂, rfl, hattach, hadds, ha, he, htexts, hthere, hfresh⟩

/-- A function gets its node for the strings of its arguments once. -/
theorem argumentSlots_ok (h : Stores ctx history) {f : FunctionId} (hf : ctx.HasFunction f) :
    ∃ n ctx', Edit.argumentSlots (ctx.function f) ctx = .ok n ctx' ∧ Evolves ctx ctx' ∧ Stores ctx' history ∧
      ctx'.attached? (ctx.function f).value Tag.arguments = some n ∧ ctx'.values = ctx.values ∧
      ctx'.functions = ctx.functions ∧ ∀ m s, ctx.HoldsText m s → ctx'.HoldsText m s := by
  unfold Edit.argumentSlots
  rw [get_bind]
  cases hn : ctx.attached? (ctx.function f).value Tag.arguments with
  | some n => exact ⟨n, ctx, rfl, .refl ctx, h, hn, rfl, rfl, fun _ _ h => h⟩
  | none =>
    have hkind : (ctx.value (ctx.function f).value).kind.carries := by
      rw [(h.coherent.registered.value f hf).2]
      rfl
    obtain ⟨n, ctx₁, ctx₂, htuple, hattach, hadds, ha, he, htexts, hthere, hfresh⟩ :=
      h.attachTuple_ok hkind Tag.arguments ((ctx.function f).args.map fun _ => Tag.none)
    have hfunction : ctx₁.function f = ctx.function f := by rw [Context.function, hadds.functions, Context.function]
    have hrun : Edit.perform (·.addStringTuple ((ctx.function f).args.map fun _ => Tag.none)) ctx = .ok n ctx₁ := by
      rw [Edit.perform, htuple]
    refine ⟨n, ctx₂, ?_, hadds.evolves.trans he, ?_, ?_, ha.values.trans hadds.values, ha.functions.trans hadds.functions,
      fun m s hm => ?_⟩
    · dsimp only
      rw [bind_of_ok hrun, bind_of_ok hattach]
      rfl
    · have hf₁ : ctx₁.HasFunction f := by rwa [Context.HasFunction, hadds.functions]
      have hn₁ : ctx₁.attached? (ctx₁.function f).value Tag.arguments = none := by
        rw [hfunction, Context.attached?, hadds.attachments, ← Context.attached?, hn]
      exact (h.addNodes hadds).attachSlots hf₁ he (hfunction.symm ▸ ha) hn₁ (hfunction.symm ▸ htexts) hthere hfresh
    · rw [ha.attached?, if_pos ⟨rfl, rfl⟩]
    · rw [Context.HoldsText, Context.node, ha.nodes, ← Context.node, hadds.node hm.hasNode]
      exact hm

/-- Instructions and functions can be given strings. -/
theorem setString_carried (h : Stores ctx history) {v : ValueId} (hv : (ctx.value v).kind.carries) {tag : String}
    (ht : tag ≠ Tag.arguments) (s : String) :
    ∃ ctx', Edit.setString v tag s ctx = .ok () ctx' ∧ Evolves ctx ctx' ∧ ctx'.values = ctx.values ∧
      Stores ctx' (⟨v, tag, s⟩ :: history) := by
  obtain ⟨n, ctx₁, ctx₂, htuple, hattach, hadds, ha, he, htexts, hthere, hfresh⟩ := h.attachTuple_ok hv tag [s]
  have hv₁ : (ctx₁.value v).kind.carries := by rwa [Context.value, hadds.values]
  refine ⟨ctx₂, ?_, hadds.evolves.trans he, ha.values.trans hadds.values,
    (h.addNodes hadds).attach he ha hv₁ ht htexts hthere hfresh⟩
  have hpair : (ctx.addString s).2.addTuple [(ctx.addString s).1] = (n, ctx₁) := htuple
  unfold Edit.setString
  rw [get_bind]
  cases hk : (ctx.value v).kind with
  | constant | argument => rw [hk] at hv; cases hv
  | instruction | function =>
    have hfirst : Edit.perform (·.addString s) ctx = .ok (ctx.addString s).1 (ctx.addString s).2 := rfl
    have hsecond : Edit.perform (·.addTuple [(ctx.addString s).1]) (ctx.addString s).2 = .ok n ctx₁ := by
      rw [Edit.perform, hpair]
    dsimp only
    rw [bind_of_ok hfirst, bind_of_ok hsecond, hattach]

/-- Arguments can be given strings. -/
theorem setString_argument (h : Stores ctx history) {v : ValueId} {f : FunctionId} {i : Nat}
    (hv : (ctx.value v).kind = .argument f i) (tag s : String) :
    ∃ ctx', Edit.setString v tag s ctx = .ok () ctx' ∧ Evolves ctx ctx' ∧ ctx'.values = ctx.values ∧
      Stores ctx' (⟨v, tag, s⟩ :: history) := by
  have hadds := ctx.addsNodes_addString s
  have hrun : Edit.perform (·.addString s) ctx = .ok (ctx.addString s).1 (ctx.addString s).2 := rfl
  have hm : (ctx.addString s).2.HoldsText (ctx.addString s).1 s := Context.node_addNode ctx [.string s]
  generalize (ctx.addString s).1 = m at hrun hm
  generalize (ctx.addString s).2 = ctx₁ at hrun hm hadds
  have h₁ := h.addNodes hadds
  have hv₁ : (ctx₁.value v).kind = .argument f i := by rw [Context.value, hadds.values]; exact hv
  have hf : ctx₁.HasFunction f := h₁.seated.hasFunction hv₁
  obtain ⟨n, ctx₂, hslots, he, h₂, hn, hvalues, hfunctions, htext⟩ := h₁.argumentSlots_ok hf
  have hv₂ : (ctx₂.value v).kind = .argument f i := by rw [Context.value, hvalues]; exact hv₁
  have hn₂ : ctx₂.attached? (ctx₂.function f).value Tag.arguments = some n := by
    rw [Context.function, hfunctions]
    exact hn
  have hlt : i < (ctx₂.node n).length := by
    have hf₂ : ctx₂.HasFunction f := h₂.seated.hasFunction hv₂
    rw [((Context.seats_of_some hn₂).mp (h₂.slots f hf₂)).length, List.length_map]
    exact (List.getElem?_eq_some_iff.mp (h₂.seated v f i hv₂)).1
  have hreplace : Edit.replaceNodeOperand n i (.node m) ctx₂ = .ok () (ctx₂.redirect n i m) := if_pos hlt
  have hstores : Stores (ctx₂.redirect n i m) (⟨v, tag, s⟩ :: history) :=
    h₂.redirect (x := ⟨v, tag, s⟩) hv₂ hn₂ (htext m s hm)
  refine ⟨ctx₂.redirect n i m, ?_, hadds.evolves.trans (he.trans (.redirect n i (htext m s hm).hasNode)),
    hvalues.trans hadds.values, hstores⟩
  rw [Edit.setString, get_bind, hv]
  dsimp only
  rw [bind_of_ok hrun, Edit.setArgumentNode, get_bind, hv₁]
  dsimp only
  rw [bind_of_ok hslots, hreplace]

/-- Constants cannot be given strings. The nodes for one are left behind. -/
theorem setString_constant (h : Stores ctx history) {v : ValueId} (hv : ctx.HasValue v) {c : Constant}
    (hc : (ctx.value v).kind = .constant c) (tag s : String) :
    ∃ ctx', Edit.setString v tag s ctx = .error .metadataTarget ctx' ∧ Evolves ctx ctx' ∧ ctx'.values = ctx.values ∧
      Stores ctx' (⟨v, tag, s⟩ :: history) := by
  have hadds := (ctx.addStringTuple_spec [s]).1
  have hc' : ((ctx.addStringTuple [s]).2.value v).kind = .constant c := by rw [Context.value, hadds.values]; exact hc
  refine ⟨(ctx.addStringTuple [s]).2, ?_, hadds.evolves, hadds.values,
    (h.addNodes hadds).ignore (c := c) (hadds.evolves.keeps.hasValue hv) hc'⟩
  have hfirst : Edit.perform (·.addString s) ctx = .ok (ctx.addString s).1 (ctx.addString s).2 := rfl
  have hsecond : Edit.perform (·.addTuple [(ctx.addString s).1]) (ctx.addString s).2 =
      .ok (ctx.addStringTuple [s]).1 (ctx.addStringTuple [s]).2 := rfl
  rw [Edit.setString, get_bind, hc]
  dsimp only
  rw [bind_of_ok hfirst, bind_of_ok hsecond, Edit.attach_error (by rw [hc']; exact Bool.false_ne_true)]

end Stores
end StackAssembler.IR
