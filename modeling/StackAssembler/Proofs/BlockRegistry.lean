import StackAssembler.Proofs.BlockOrder
import StackAssembler.Proofs.Reachability

/-! What a builder answers about its blocks, and where branches to the next ones lead. -/
namespace StackAssembler.Build
open IR

/-- What holds of the blocks of a builder at any time. -/
structure Machine.Registry (m : Machine) : Prop where
  bijective : ∀ name b, m.builder.block? name = some b ↔ m.builder.blocks.left? b = some name
  named : ∀ name b, m.builder.block? name = some b → (m.context.block b).name = some name
  listed : ∀ b, b ∈ m.builder.blockOrder ↔ ∃ name, m.builder.block? name = some b
  once : m.builder.blockOrder.Nodup
  rising : m.builder.blockOrder.Pairwise fun b c => b.index < c.index
  current : ∀ b, m.builder.position = some b →
    ∃ name, m.builder.currentBlockName? = some name ∧ m.builder.block? name = some b
  /-- A block is created unless its name is taken. -/
  taken : ∀ name, (∃ e m', (Action.createBlock name).execute m = .error e m') ↔ (m.builder.block? name).isSome
  /-- A block that is created is new and comes last. -/
  created : ∀ name m', (Action.createBlock name).execute m = .ok () m' →
    m'.builder.blockOrder = m.builder.blockOrder ++ [⟨m.context.blocks.size⟩] ∧
      m'.builder.block? name = some ⟨m.context.blocks.size⟩
  sorted : ∀ f, ((m.context.function f).blocks.toList.filter (· ∈ m.builder.blockOrder)).Sublist m.builder.blockOrder
  nowhere : ∀ n, m.builder.position = none → Step.target (.next n) m = .error .noCurrentBlock m
  next : ∀ n p b, m.builder.position = some b → m.builder.blockOrder[p]? = some b →
    Step.target (.next n) m = match m.builder.blockOrder[p + n]? with
      | some c => .ok c m
      | none => .error (.noFollowingBlock n) m

namespace Machine.Orderly
variable {m : Machine}

theorem mem_blockOrder (h : m.Orderly) {b : BlockId} :
    b ∈ m.builder.blockOrder ↔ ∃ name, m.builder.block? name = some b := by
  constructor
  · intro hb
    rw [← h.ordered.listed] at hb
    obtain ⟨p, hp, rfl⟩ := List.mem_map.mp hb
    exact ⟨p.1, h.ordered.valid.right?_eq_some.mpr hp⟩
  · rintro ⟨name, hb⟩
    exact h.ordered.mem_order (Bijection.mem_of_right? hb)

theorem createBlock_run (h : m.Orderly) (name : String) :
    (Action.createBlock name).execute m = if (m.builder.block? name).isSome then .error (.duplicateBlock name) m
      else .ok () (m.withBlock name) := by
  rw [Action.execute, Step.createBlock_run, Step.left?_next (Builder.hasBlock_pair h.sound.known)]

theorem next_run (h : m.Orderly) {n p : Nat} {b : BlockId} (hb : m.builder.position = some b)
    (hp : m.builder.blockOrder[p]? = some b) :
    Step.target (.next n) m = match m.builder.blockOrder[p + n]? with
      | some c => .ok c m
      | none => .error (.noFollowingBlock n) m := by
  obtain ⟨hlt, hget⟩ := List.getElem?_eq_some_iff.mp hp
  have hi : m.builder.blockOrder.idxOf? b = some p := by
    refine List.findIdx?_eq_some_iff_getElem.mpr ⟨hlt, by simp [hget], fun j hj he => ?_⟩
    have he : m.builder.blockOrder[j] = m.builder.blockOrder[p] := by simpa [hget] using he
    exact Nat.ne_of_lt hj (h.ordered.once.getElem_inj_iff.mp he)
  cases hc : m.builder.blockOrder[p + n]? <;> simp only [Step.target, hb, hi, hc]

theorem tabulated (h : m.Orderly) : m.Registry where
  bijective _ _ := h.ordered.valid.right?_iff_left?
  named name b hb := h.ordered.named (name, b) (Bijection.mem_of_right? hb)
  listed _ := h.mem_blockOrder
  once := h.ordered.once
  rising := h.ordered.rising
  current b hb := by
    obtain ⟨name, hname⟩ := h.mem_blockOrder.mp (h.ordered.current b hb)
    refine ⟨name, ?_, hname⟩
    rw [Builder.currentBlockName?, hb]
    exact h.ordered.valid.right?_iff_left?.mp hname
  taken name := by
    rw [h.createBlock_run]
    split
    · next hs => exact ⟨fun _ => hs, fun _ => ⟨_, _, rfl⟩⟩
    · next hs => exact ⟨nofun, fun hs' => absurd hs' hs⟩
  created name m' hm := by
    have hn : (Action.createBlock name).execute m ≠ .error (.duplicateBlock name) m := by rw [hm]; nofun
    rw [h.createBlock_run] at hm hn
    split at hm
    · next hs => exact absurd (if_pos hs) hn
    · next hs =>
      cases hm
      refine ⟨rfl, ?_⟩
      have ho := Ordered.withBlock h (Option.not_isSome_iff_eq_none.mp hs)
      exact ho.valid.right?_eq_some.mpr (by simp [Machine.withBlock])
  sorted := h.ordered.sublist
  nowhere n hp := by simp only [Step.target, hp]
  next _ _ _ := h.next_run

end Machine.Orderly

/-- However actions succeed and fail, a builder on any context keeps its blocks in order. After a function was
created none of them is detached. -/
theorem Reachable.registry {m m' : Machine} (h : Reachable m) (hd : Driven { m with builder := {} } m') :
    m'.Registry ∧ ∀ spec m₁ m₂, m'.context.Knows (Action.createFunction spec).handles →
      (Action.createFunction spec).execute m' = .ok () m₁ → Driven m₁ m₂ →
      ∀ b ∈ m₂.builder.blockOrder, (m₂.context.block b).function.isSome := by
  obtain ⟨layout, hl⟩ := h.leads
  have start : Machine.Orderly { m with builder := {} } :=
    ⟨⟨hl.sound.registered, Context.knows_nothing⟩, (Adopted.empty layout).evolve hl.evolves, .empty _⟩
  have ho := start.drive hd
  refine ⟨ho.tabulated, fun spec m₁ m₂ hk hrun hd₂ => ?_⟩
  have ho₁ : m₁.Orderly := by
    have := ho.act hk
    rwa [after, hrun] at this
  have hs₁ : m₁.Settled :=
    .created ho (Done.arranges ho.sound hk (((Action.createFunction spec).execute_ends m').of_ok hrun))
  exact (hs₁.drive ho₁ hd₂).owned

/-- Two blocks before there is a function. The second attempt at the first of them fails. -/
def Action.early : List Action :=
  [.useModule ⟨0⟩, .createBlock "head", .createBlock "tail", .createBlock "head", .setBlock "head"]

/-- A second builder on the context of a function, after these actions. -/
def Machine.early : Machine := Machine.runAll { Machine.double with builder := {} } (Action.early.map .perform)

/-- A function, and one more block. -/
def Machine.late : Machine :=
  (after (Action.createFunction ⟨"late", .int 32, [], false⟩).execute Machine.early).runAll
    ([Action.createBlock "more"].map .perform)

/-- The function takes up both blocks, and the third one is born into it. -/
theorem Reachable.registry_early :
    Machine.early.Registry ∧ Machine.early.builder.blockOrder = [⟨1⟩, ⟨2⟩] ∧
      (Machine.early.context.block ⟨2⟩).function = none ∧
      Step.target (.next 1) Machine.early = .ok ⟨2⟩ Machine.early ∧
      Machine.late.builder.blockOrder = [⟨1⟩, ⟨2⟩, ⟨3⟩] ∧
      ∀ b ∈ Machine.late.builder.blockOrder, (Machine.late.context.block b).function.isSome := by
  have hd : Driven { Machine.double with builder := {} } Machine.early :=
    .of_permits Action.early (by decide +kernel)
  obtain ⟨hr, later⟩ := Reachable.registry .double hd
  have hf : (Action.createFunction ⟨"late", .int 32, [], false⟩).execute Machine.early = .ok () _ :=
    eq_ok_of_failure? (by decide +kernel)
  have hnext := hr.next 1 0 ⟨1⟩ (by decide +kernel) (by decide +kernel)
  rw [show Machine.early.builder.blockOrder[0 + 1]? = some ⟨2⟩ by decide +kernel] at hnext
  refine ⟨hr, by decide +kernel, by decide +kernel, hnext, by decide +kernel, ?_⟩
  exact later ⟨"late", .int 32, [], false⟩ _ _ (by decide +kernel) hf
    (.of_permits [.createBlock "more"] (by decide +kernel))

end StackAssembler.Build
