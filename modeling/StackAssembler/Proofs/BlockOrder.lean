import Mathlib.Data.List.Sort
import StackAssembler.Proofs.Bijection
import StackAssembler.Proofs.Unmoved

/-! The blocks that a builder creates: its table of them, the order in which they came, and where they stand in
functions. -/
namespace StackAssembler.Build
open IR

/-- What the builder's table of blocks, their order, its position and the context say about one another. Handles of
blocks rise in the order of creation. -/
structure Ordered (ctx : Context) (table : Bijection String BlockId) (order : List BlockId)
    (position : Option BlockId) : Prop where
  /-- The table and the order have the same blocks. -/
  listed : table.pairs.map Prod.snd = order
  names : (table.pairs.map Prod.fst).Nodup
  named : ∀ p ∈ table.pairs, (ctx.block p.2).name = some p.1
  rising : order.Pairwise fun b c => b.index < c.index
  current : ∀ b ∈ position, b ∈ order
  sorted : ∀ f, ((ctx.function f).blocks.toList.filter (· ∈ order)).Pairwise fun b c => b.index < c.index

/-- A sound machine whose builder keeps its blocks in order. -/
structure Machine.Orderly (m : Machine) : Prop where
  sound : m.Sound
  adopted : Adopted m.context
  ordered : Ordered m.context m.builder.blocks m.builder.blockOrder m.builder.position

/-- A function is active, and all blocks of the builder belong to functions. -/
structure Machine.Settled (m : Machine) : Prop where
  active : m.builder.functions ≠ []
  owned : ∀ b ∈ m.builder.blockOrder, (m.context.block b).function.isSome

/-- The machines that actions lead to, whether or not they fail. In between the context may change as long as
the blocks stay where they are. -/
inductive Driven (m : Machine) : Machine → Prop where
  | start : Driven m m
  | act {m' : Machine} (a : Action) : Driven m m' → m'.context.Knows a.handles → Driven m (after a.execute m')
  | edit {m' : Machine} {ctx : Context} : Driven m m' → Evolves m'.context ctx → Unmoved m'.context ctx →
      Driven m { m' with context := ctx }

namespace Driven
variable {m m' m'' : Machine}

theorem trans (h : Driven m m') (k : Driven m' m'') : Driven m m'' := by
  induction k with
  | start => exact h
  | act a _ hk ih => exact ih.act a hk
  | edit _ he hu ih => exact ih.edit he hu

/-- A list of actions, each of which has known handles when its turn comes. -/
theorem of_permits (as : List Action) (h : m.Permits (as.map .perform)) : Driven m (m.runAll (as.map .perform)) := by
  induction as generalizing m with
  | nil => exact .start
  | cons a as ih => exact (Driven.act a .start h.1).trans (ih h.2)

end Driven

namespace Ordered
variable {ctx ctx' : Context} {table : Bijection String BlockId} {order : List BlockId} {position : Option BlockId}

theorem empty (ctx : Context) : Ordered ctx .empty [] none where
  listed := rfl
  names := List.nodup_nil
  named _ h := absurd h List.not_mem_nil
  rising := List.Pairwise.nil
  current _ h := absurd h (Option.not_mem_none _)
  sorted f := by simp

theorem once (h : Ordered ctx table order position) : order.Nodup :=
  h.rising.imp fun hlt he => Nat.ne_of_lt hlt (congrArg BlockId.index he)

theorem valid (h : Ordered ctx table order position) : table.Valid := ⟨h.names, by rw [h.listed]; exact h.once⟩

/-- The block of an entry is in the order. -/
theorem mem_order (h : Ordered ctx table order position) {p : String × BlockId} (hp : p ∈ table.pairs) :
    p.2 ∈ order :=
  h.listed ▸ List.mem_map_of_mem hp

theorem edited (h : Ordered ctx table order position) (hb : ∀ b ∈ order, ctx.HasBlock b)
    (he : Evolves ctx ctx') (hu : Unmoved ctx ctx') : Ordered ctx' table order position where
  listed := h.listed
  names := h.names
  named p hp := (he.keeps.block (hb p.2 (h.mem_order hp))).name.trans (h.named p hp)
  rising := h.rising
  current := h.current
  sorted f := by
    rw [hu.lists]
    exact h.sorted f

/-- In every function the blocks of the builder stand in the order of creation. -/
theorem sublist (h : Ordered ctx table order position) (f : FunctionId) :
    ((ctx.function f).blocks.toList.filter (· ∈ order)).Sublist order := by
  have hn : ((ctx.function f).blocks.toList.filter (· ∈ order)).Nodup :=
    (h.sorted f).imp fun hlt he => Nat.ne_of_lt hlt (congrArg BlockId.index he)
  refine List.sublist_of_subperm_of_pairwise (List.subperm_of_subset hn fun b hb => ?_) (h.sorted f) h.rising
  simpa using (List.mem_filter.mp hb).2

end Ordered

namespace Machine.Orderly
variable {m : Machine}

theorem hasBlock (h : m.Orderly) {b : BlockId} (hb : b ∈ m.builder.blockOrder) : m.context.HasBlock b :=
  Builder.hasBlock_order h.sound.known b hb

theorem edited (h : m.Orderly) {ctx : Context} (he : Evolves m.context ctx) (hu : Unmoved m.context ctx) :
    Machine.Orderly { m with context := ctx } :=
  ⟨(h.sound.edited he).sound, h.adopted.evolve he, h.ordered.edited (fun _ => h.hasBlock) he hu⟩

end Machine.Orderly

/-! ### New blocks -/

namespace Machine
variable {m : Machine}

theorem block_withBlock (m : Machine) (name : String) (b : BlockId) :
    (m.withBlock name).context.block b =
      if b.index = m.context.blocks.size then ⟨some name, m.builder.activeFunction?, #[]⟩ else m.context.block b := by
  unfold withBlock
  cases m.builder.activeFunction? with
  | none => exact Context.block_addBlock (some name) b
  | some f =>
    have hb : (m.context.addBlock (some name)).2.HasBlock ⟨m.context.blocks.size⟩ := by
      simp [Context.HasBlock, Context.addBlock]
    change (((m.context.addBlock (some name)).2.adopt f ⟨m.context.blocks.size⟩).block b) = _
    rw [Context.block_adopt hb, Context.block_addBlock, Context.block_addBlock]
    by_cases hi : b.index = m.context.blocks.size
    · simp [show b = ⟨m.context.blocks.size⟩ by cases b; simp_all]
    · have hne : b ≠ ⟨m.context.blocks.size⟩ := fun he => hi (by rw [he])
      simp [hi, hne]

theorem lists_withBlock (hs : m.Sound) (name : String) (f : FunctionId) :
    ((m.withBlock name).context.function f).blocks.toList = (m.context.function f).blocks.toList ++
      if m.builder.activeFunction? = some f then [⟨m.context.blocks.size⟩] else [] := by
  unfold withBlock
  cases hg : m.builder.activeFunction? with
  | none =>
    change (m.context.function f).blocks.toList = _
    simp
  | some g =>
    have hk : (m.context.addBlock (some name)).2.HasFunction g := hs.known.functions g (List.mem_of_head? hg)
    change (((m.context.addBlock (some name)).2.adopt g ⟨m.context.blocks.size⟩).function f).blocks.toList = _
    rw [Context.function_adopt hk]
    by_cases hf : f = g
    · rw [if_pos hf, if_pos (by rw [hf]), Array.toList_push, hf]
      rfl
    · rw [if_neg hf, if_neg (fun he => hf (Option.some.inj he).symm), List.append_nil]
      rfl

end Machine

/-- A new block comes last, in the table and in its function. -/
theorem Ordered.withBlock {m : Machine} {name : String} (h : m.Orderly) (hn : m.builder.block? name = none) :
    Ordered (m.withBlock name).context (m.withBlock name).builder.blocks (m.withBlock name).builder.blockOrder
      (m.withBlock name).builder.position := by
  have ho := h.ordered
  have old {b : BlockId} (hb : b ∈ m.builder.blockOrder) : b.index < m.context.blocks.size := h.hasBlock hb
  have pairs : (m.withBlock name).builder.blocks.pairs =
      m.builder.blocks.pairs ++ [(name, ⟨m.context.blocks.size⟩)] := rfl
  have order : (m.withBlock name).builder.blockOrder = m.builder.blockOrder ++ [⟨m.context.blocks.size⟩] := rfl
  constructor
  · rw [pairs, order, List.map_append, ho.listed]
    rfl
  · have hfree : name ∉ m.builder.blocks.pairs.map Prod.fst := fun hin => by
      have := Bijection.isSome_right?.mpr hin
      rw [show m.builder.blocks.right? name = none from hn] at this
      cases this
    rw [pairs, List.map_append, List.nodup_append]
    refine ⟨ho.names, List.nodup_singleton name, fun x hx y hy he => hfree ?_⟩
    obtain rfl : y = name := List.mem_singleton.mp hy
    exact he ▸ hx
  · intro p hp
    rw [pairs, List.mem_append, List.mem_singleton] at hp
    rw [m.block_withBlock]
    rcases hp with hp | rfl
    · rw [if_neg (Nat.ne_of_lt (old (ho.mem_order hp)))]
      exact ho.named p hp
    · rw [if_pos rfl]
  · rw [order, List.pairwise_append]
    refine ⟨ho.rising, List.pairwise_singleton _ _, fun b hb c hc => ?_⟩
    rw [List.mem_singleton.mp hc]
    exact old hb
  · intro b hb
    cases hb
    simp [order]
  · intro f
    -- Blocks in functions are none that the context has not given out yet.
    have listed {b : BlockId} (hb : b ∈ (m.context.function f).blocks.toList) : b.index < m.context.blocks.size := by
      have hf := (h.adopted.listed f b).mp (Array.mem_toList_iff.mp hb)
      by_contra hlt
      rw [Context.block, getD_of_size_le (Nat.le_of_not_lt hlt)] at hf
      cases hf
    have same : (m.context.function f).blocks.toList.filter (· ∈ (m.withBlock name).builder.blockOrder) =
        (m.context.function f).blocks.toList.filter (· ∈ m.builder.blockOrder) := by
      refine List.filter_congr fun b hb => ?_
      have hne : b ≠ ⟨m.context.blocks.size⟩ := fun he => Nat.ne_of_lt (listed hb) (congrArg BlockId.index he)
      simp [order, hne]
    rw [m.lists_withBlock h.sound, List.filter_append, List.pairwise_append, same]
    refine ⟨ho.sorted f, ?_, fun b hb c hc => ?_⟩
    · split
      · exact List.Pairwise.filter _ (List.pairwise_singleton _ _)
      · exact List.Pairwise.nil
    · have hc := List.mem_of_mem_filter hc
      split at hc
      · rw [List.mem_singleton.mp hc]
        exact listed (List.mem_of_mem_filter hb)
      · cases hc

/-! ### Actions -/

/-- Whether an action creates blocks or moves them. -/
def Action.arranges : Action → Bool
  | createBlock _ | createFunction _ => true
  | _ => false

/-- What an action does to the blocks: it creates one, or a function that takes up those that are detached, or it
leaves all where they are. -/
inductive Arranges (m : Machine) : Action → Machine → Prop where
  | created {name : String} {m' : Machine} : m.builder.block? name = none →
      m'.context = (m.withBlock name).context → m'.builder.blocks = (m.withBlock name).builder.blocks →
      m'.builder.blockOrder = (m.withBlock name).builder.blockOrder →
      m'.builder.position = (m.withBlock name).builder.position → m'.builder.functions = m.builder.functions →
      Arranges m (.createBlock name) m'
  | adopted {spec : FunctionSpec} {f : FunctionId} {ctx : Context} {m' : Machine} : Unmoved m.context ctx →
      ctx.blocks = m.context.blocks → ctx.HasFunction f → (ctx.function f).blocks = #[] →
      m'.context = Step.adoptAll f m.builder.blockOrder ctx → m'.builder.blocks = m.builder.blocks →
      m'.builder.blockOrder = m.builder.blockOrder → m'.builder.position = none →
      m'.builder.functions = f :: m.builder.functions → Arranges m (.createFunction spec) m'
  | kept {a : Action} {m' : Machine} : a.arranges = false → Unmoved m.context m'.context →
      m'.context.functions.size = m.context.functions.size → m'.builder.blocks = m.builder.blocks →
      m'.builder.blockOrder = m.builder.blockOrder →
      (m'.builder.position = m.builder.position ∨ ∃ name, m'.builder.position = m.builder.block? name) →
      m.builder.functions <:+ m'.builder.functions → Arranges m a m'

theorem Effect.arranges {m m₁ : Machine} {a : Action} {vs : List ValueId} {r : Option ValueId}
    (h : Effect m a vs r m₁) (hvs : ∀ v ∈ vs, m.context.HasValue v) : Arranges m a m₁ := by
  cases h with
  | emitted he hr =>
    have ha : a.arranges = false := by cases a <;> first | rfl | cases he
    exact .kept ha (.emission hr) (congrArg _ (Emission.functions_run hr)) rfl rfl (Or.inl rfl) List.suffix_rfl
  | alloc hr =>
    exact .kept rfl (.emission hr) (congrArg _ (Emission.functions_run hr)) rfl rfl (Or.inl rfl) List.suffix_rfl
  | call _ hc hr =>
    have hf := (Emission.functions_run hr).trans (coerceEach_functions hvs hc)
    exact .kept rfl ((coerceEach_unmoved hvs hc).trans (.emission hr)) (congrArg _ hf) rfl rfl (Or.inl rfl)
      List.suffix_rfl
  | createBlock hn => exact .created hn rfl rfl rfl rfl rfl
  | @setBlock name b hb => exact .kept rfl (.refl _) rfl rfl rfl (Or.inr ⟨name, hb.symm⟩) List.suffix_rfl
  | @createFunction spec _ _ _ _ hf =>
    obtain ⟨hu, hb, hk, hn⟩ := Edit.addFunction_ok hf
    have hi := Unmoved.internAll m.context [.function spec.result spec.params spec.variadic]
    have hib : (m.context.internAll [.function spec.result spec.params spec.variadic]).blocks = m.context.blocks := by
      rw [Context.internAll_eq]
    exact .adopted (hi.trans hu) (hb.trans hib) hk hn rfl rfl rfl rfl rfl
  | useFunction => exact .kept rfl (.refl _) rfl rfl rfl (Or.inl rfl) (List.suffix_cons _ _)
  | useModule | push | pop | keepStack | inspect => exact .kept rfl (.refl _) rfl rfl rfl (Or.inl rfl) List.suffix_rfl

/-- Taking operands off the stack has no part in it, nor has pushing the result. -/
theorem Arranges.around {m m₁ : Machine} {a : Action} {k : Nat} {r : Option ValueId}
    (h : Arranges (m.taken k) a m₁) : Arranges m a (m₁.pushed r) := by
  cases h with
  | created hn hc ht hl hp hf => exact .created hn hc ht hl hp hf
  | adopted hu hb hk hn hc ht hl hp hf => exact .adopted hu hb hk hn hc ht hl hp hf
  | kept hn hu hc ht hl hp hf => exact .kept hn hu hc ht hl hp hf

theorem Done.arranges {m m' : Machine} {a : Action} (hs : m.Sound) (hk : m.context.Knows a.handles)
    (h : Done m a m') : Arranges m a m' := by
  obtain ⟨_, vs, r, m₁, hvs, he, rfl⟩ := h
  exact (he.arranges (hs.denoteAll (fun o ho => Action.known_operand hk ho) hvs).values).around

/-- A failing action leaves the blocks where they are. -/
theorem Failed.keeps {m m' : Machine} {a : Action} (hs : m.Sound) (hk : m.context.Knows a.handles)
    (h : Failed m a m') : Unmoved m.context m'.context ∧ m'.builder.blocks = m.builder.blocks ∧
      m'.builder.blockOrder = m.builder.blockOrder ∧ m'.builder.position = m.builder.position ∧
      m'.builder.functions = m.builder.functions := by
  cases h with
  | @spent j ts => exact ⟨.internAll m.context ts, rfl, rfl, rfl, rfl⟩
  | coerced ha _ hvs hws =>
    subst ha
    have hknown := hs.denoteAll (fun o ho => Action.known_operand hk ho) hvs
    exact ⟨coerceEach_unmoved (fun v hv => hknown.values v (List.mem_of_mem_take hv)) hws, rfl, rfl, rfl, rfl⟩
  | foreign hp hn => exact absurd (Builder.hasBlock_pair hs.known _ hp) hn

namespace Machine.Orderly
variable {m m' : Machine}

theorem empty (layout : DataLayout) : Orderly ⟨{ layout := layout }, {}⟩ :=
  ⟨.empty layout, .empty layout, .empty _⟩

/-- The detached blocks come to stand in the new function in their order. -/
private theorem adopt (h : m.Orderly) {ctx : Context} {f : FunctionId} (hl : m.Leads m') (hu : Unmoved m.context ctx)
    (hb : ctx.blocks = m.context.blocks) (hf : ctx.HasFunction f) (hn : (ctx.function f).blocks = #[])
    (hc : m'.context = Step.adoptAll f m.builder.blockOrder ctx) (ht : m'.builder.blocks = m.builder.blocks)
    (ho : m'.builder.blockOrder = m.builder.blockOrder) (hp : m'.builder.position = none) :
    Ordered m'.context m'.builder.blocks m'.builder.blockOrder m'.builder.position := by
  have hbs : ∀ b ∈ m.builder.blockOrder, ctx.HasBlock b := fun b hin => by
    unfold Context.HasBlock
    rw [hb]
    exact h.hasBlock hin
  obtain ⟨lists, _⟩ := Step.adoptAll_moves hf hbs h.ordered.once
  rw [ht, ho, hp]
  refine { h.ordered with named := fun p hin => ?_, current := nofun, sorted := fun g => ?_ }
  · exact (hl.evolves.keeps.block (h.hasBlock (h.ordered.mem_order hin))).name.trans (h.ordered.named p hin)
  · rw [hc, lists]
    by_cases hg : g = f
    · rw [if_pos hg, hg, hn]
      exact h.ordered.rising.sublist (List.filter_sublist.trans List.filter_sublist)
    · rw [if_neg hg, List.append_nil, hu.lists]
      exact h.ordered.sorted g

/-- An action keeps the blocks of the builder in order, whether or not it fails. -/
theorem act (h : m.Orderly) {a : Action} (hk : m.context.Knows a.handles) : (after a.execute m).Orderly := by
  have hl : m.Leads (after a.execute m) := h.sound.command (c := .perform a) hk
  refine ⟨hl.sound, h.adopted.evolve hl.evolves, ?_⟩
  have hends := a.execute_ends m
  unfold after at hl ⊢
  cases hx : a.execute m with
  | ok u m' =>
    rw [hx] at hl hends
    cases Done.arranges h.sound hk hends with
    | created hn hc ht ho hp =>
      dsimp only
      rw [hc, ht, ho, hp]
      exact .withBlock h hn
    | adopted hu hb hf hn hc ht ho hp => exact h.adopt hl hu hb hf hn hc ht ho hp
    | kept _ hu _ ht ho hp =>
      have hord := h.ordered.edited (fun _ => h.hasBlock) hl.evolves hu
      dsimp only
      rw [ht, ho]
      refine { hord with current := fun b hb => ?_ }
      rcases hp with hp | ⟨name, hp⟩
      · exact hord.current b (hp ▸ hb)
      · rw [hp] at hb
        exact hord.mem_order (Bijection.mem_of_right? hb)
  | error e m' =>
    rw [hx] at hl hends
    obtain ⟨hu, ht, ho, hp, _⟩ := Failed.keeps h.sound hk hends
    dsimp only
    rw [ht, ho, hp]
    exact h.ordered.edited (fun _ => h.hasBlock) hl.evolves hu

theorem drive (h : m.Orderly) (hd : Driven m m') : m'.Orderly := by
  induction hd with
  | start => exact h
  | act a _ hk ih => exact ih.act hk
  | edit _ he hu ih => exact ih.edited he hu

end Machine.Orderly

namespace Machine.Settled
variable {m m' : Machine}

theorem edited (h : m.Settled) {ctx : Context} (hu : Unmoved m.context ctx) :
    Machine.Settled { m with context := ctx } :=
  ⟨h.active, fun b hb => by rw [hu.owners]; exact h.owned b hb⟩

/-- A function that was created takes up all detached blocks. -/
private theorem adopt {ctx : Context} {f : FunctionId} (ho : m.Orderly) (hb : ctx.blocks = m.context.blocks)
    (hf : ctx.HasFunction f) (hc : m'.context = Step.adoptAll f m.builder.blockOrder ctx)
    (hl : m'.builder.blockOrder = m.builder.blockOrder) (hfs : m'.builder.functions = f :: m.builder.functions) :
    m'.Settled := by
  have hbs : ∀ b ∈ m.builder.blockOrder, ctx.HasBlock b := fun b hin => by
    unfold Context.HasBlock
    rw [hb]
    exact ho.hasBlock hin
  obtain ⟨_, owners⟩ := Step.adoptAll_moves hf hbs ho.ordered.once
  refine ⟨by simp [hfs], fun b hin => ?_⟩
  rw [hc, owners, if_pos (hl ▸ hin)]
  simp

/-- Once a function is active, blocks are born into functions. -/
theorem arranged (h : m.Settled) {a : Action} (ho : m.Orderly) (ha : Arranges m a m') : m'.Settled := by
  cases ha with
  | @created name _ _ hc _ hl _ hf =>
    refine ⟨by rw [hf]; exact h.active, fun b hb => ?_⟩
    rw [hc, m.block_withBlock]
    split
    · obtain ⟨f, fs, hfs⟩ := List.exists_cons_of_ne_nil h.active
      simp [Builder.activeFunction?, hfs]
    · next hi =>
      refine h.owned b ?_
      have hb : b ∈ m.builder.blockOrder ∨ b = ⟨m.context.blocks.size⟩ := by
        simpa [hl, Machine.withBlock] using hb
      exact hb.resolve_right fun he => hi (congrArg BlockId.index he)
  | adopted _ hb hf _ hc _ hl _ hfs => exact adopt ho hb hf hc hl hfs
  | kept _ hu _ _ hl _ hf =>
    refine ⟨fun he => h.active (List.suffix_nil.mp (he ▸ hf)), fun b hb => ?_⟩
    rw [hu.owners]
    exact h.owned b (hl ▸ hb)

/-- A function that is created takes up all blocks that have none yet. -/
theorem created {spec : FunctionSpec} (ho : m.Orderly) (ha : Arranges m (.createFunction spec) m') : m'.Settled := by
  cases ha with
  | adopted _ hb hf _ hc _ hl _ hfs => exact adopt ho hb hf hc hl hfs
  | kept hn => cases hn

theorem act (h : m.Settled) (ho : m.Orderly) {a : Action} (hk : m.context.Knows a.handles) :
    (after a.execute m).Settled := by
  have hends := a.execute_ends m
  unfold after
  cases hx : a.execute m with
  | ok u m' =>
    rw [hx] at hends
    exact h.arranged ho (Done.arranges ho.sound hk hends)
  | error e m' =>
    rw [hx] at hends
    obtain ⟨hu, _, hl, _, hf⟩ := Failed.keeps ho.sound hk hends
    refine ⟨by dsimp only; rw [hf]; exact h.active, fun b hb => ?_⟩
    dsimp only
    rw [hu.owners]
    exact h.owned b (hl ▸ hb)

theorem drive (h : m.Settled) (ho : m.Orderly) (hd : Driven m m') : m'.Settled := by
  induction hd with
  | start => exact h
  | act a hd hk ih => exact ih.act (ho.drive hd) hk
  | edit hd _ hu ih => exact ih.edited hu

end Machine.Settled

end StackAssembler.Build
