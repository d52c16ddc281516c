import StackAssembler.Proofs.Progress
import StackAssembler.Proofs.Typing

/-! What holds of every context that a session can build. -/
namespace StackAssembler.Build
open IR

/-- Every instruction obeys the typing rules. -/
theorem Reachable.wellTyped {m : Machine} (h : Reachable m) {v : ValueId} {op : Operation} {b : BlockId}
    (hk : (m.context.value v).kind = .instruction op b) :
    WellTyped m.context b op (m.context.typeOf v) := by
  obtain ⟨layout, hl⟩ := h.leads
  exact ((Typed.empty layout).evolve (.empty layout) hl.evolves v op b hk).2.2

theorem Reachable.later {m m' : Machine} (h : Reachable m) (later : Session m m') : Reachable m' :=
  h.imp fun _ hs => hs.trans later

theorem Reachable.evolves {m m' : Machine} (h : Reachable m) (later : Session m m') : Evolves m.context m'.context := by
  obtain ⟨layout, hl⟩ := h.leads
  exact (hl.sound.session later).evolves

/-- What is built stays. -/
theorem Reachable.keeps {m m' : Machine} (h : Reachable m) (later : Session m m') : m.context.Extends m'.context :=
  (h.evolves later).keeps

/-- A function that keeps its argument in a variable and returns the argument's double. -/
def Command.double : List Command :=
  [.request (.addModule "m"), .request (.intern (.int 32)), .perform (.useModule ⟨0⟩),
    .perform (.createFunction ⟨"double", .int 32, [.int 32], false⟩), .perform (.createBlock "entry"),
    .perform (.alloc (.int 32) (some "x")), .perform (.store (.arg 0) (.var "x")),
    .perform (.load (.int 32) (.var "x")), .perform (.binary .add .stack (.arg 0)), .perform (.ret none),
    .perform (.ret (some .stack))]

def Machine.double : Machine := Machine.runAll {} Command.double

theorem Reachable.double : Reachable Machine.double := ⟨{}, .of_permits Command.double (by decide +kernel)⟩

/-- The sum that the function returns is of the type of its operands. -/
theorem Reachable.wellTyped_sum :
    (Machine.double.context.value ⟨5⟩).kind = .instruction (.binary .add ⟨4⟩ ⟨1⟩) ⟨0⟩ ∧
      WellTyped Machine.double.context ⟨0⟩ (.binary .add ⟨4⟩ ⟨1⟩) (.int 32) := by
  have hk : (Machine.double.context.value ⟨5⟩).kind = .instruction (.binary .add ⟨4⟩ ⟨1⟩) ⟨0⟩ := by decide +kernel
  have ht : Machine.double.context.typeOf ⟨5⟩ = .int 32 := by decide +kernel
  exact ⟨hk, ht ▸ Reachable.wellTyped .double hk⟩

/-- Instructions, blocks and functions stand where they record that they stand, once each, and a block that
ends in a terminator has all the instructions that it will ever have. -/
theorem Reachable.structured {m m' : Machine} (h : Reachable m) (later : Session m m') :
    Placed m.context ∧ Adopted m.context ∧ Registered m.context ∧
      ∀ b v, m.context.terminator? b = some v →
        (m'.context.block b).instructions = (m.context.block b).instructions := by
  obtain ⟨layout, hl⟩ := h.leads
  refine ⟨(Placed.empty layout).evolve hl.evolves, (Adopted.empty layout).evolve hl.evolves,
    (Registered.empty layout).evolve hl.evolves, fun b v hv => ?_⟩
  exact ((hl.sound.session later).evolves.closed hv).1

/-- Back to a block that has returned, to go on from there. -/
def Command.revisit : List Command :=
  [.perform (.createBlock "exit"), .perform (.setBlock "entry"), .perform (.branch (.named "exit"))]

theorem Reachable.structured_double :
    Placed Machine.double.context ∧ Adopted Machine.double.context ∧ Registered Machine.double.context ∧
      Machine.double.context.terminator? ⟨0⟩ = some ⟨6⟩ ∧
      ((Machine.double.runAll Command.revisit).context.block ⟨0⟩).instructions =
        (Machine.double.context.block ⟨0⟩).instructions := by
  obtain ⟨hp, ha, hr, hclosed⟩ := Reachable.structured .double (.of_permits Command.revisit (by decide +kernel))
  have ht : Machine.double.context.terminator? ⟨0⟩ = some ⟨6⟩ := by decide +kernel
  exact ⟨hp, ha, hr, ht, hclosed ⟨0⟩ ⟨6⟩ ht⟩

end StackAssembler.Build
