import StackAssembler.Proofs.Emission
import StackAssembler.Proofs.Steps

/-! How actions take their operands from the stack, and what they leave on it. -/
namespace StackAssembler.Build
open IR

/-! ### What operands, targets and callees stand for -/

namespace Machine
variable {m : Machine}

/-- The value that an operand stands for after `depth` operands were taken from the stack. -/
def denote (m : Machine) (depth : Nat) : Operand → Option ValueId
  | .stack => m.builder.stack[if m.builder.keepStack then 0 else depth]?
  | .value v => some v
  | .var name => m.builder.var? name
  | .arg index => do (m.context.function (← m.builder.activeFunction?)).args[index]?

/-- The values that operands stand for. The last one takes its value from the top of the stack. -/
def denoteAll (m : Machine) : List Operand → Option (List ValueId)
  | [] => some []
  | o :: os => do
    let vs ← m.denoteAll os
    let v ← m.denote (os.count .stack) o
    some (v :: vs)

def place (m : Machine) : Target → Option BlockId
  | .named name => m.builder.block? name
  | .block b => some b
  | .next n => do
    let i ← m.builder.blockOrder.idxOf? (← m.builder.position)
    m.builder.blockOrder[i + n]?

def placeAll (m : Machine) : List Target → Option (List BlockId)
  | [] => some []
  | t :: ts => do
    let bs ← m.placeAll ts
    let b ← m.place t
    some (b :: bs)

def callee? (m : Machine) : Callee → Option FunctionId
  | .function f => some f
  | .named name => do m.context.findFunction? (← m.builder.module) name

/-- The machine after so many operands were taken from the stack. -/
def taken (m : Machine) (k : Nat) : Machine :=
  { m with builder.stack := if m.builder.keepStack then m.builder.stack else m.builder.stack.drop k }

/-- Whether so many operands can be taken from the stack. One that is kept does not get shorter. -/
def Holds (m : Machine) (k : Nat) : Prop := m.builder.keepStack = false → k ≤ m.builder.stack.length

/-- The machine with a result on top of the stack, if there is one. -/
def pushed (m : Machine) (r : Option ValueId) : Machine :=
  { m with builder.stack := r.toList ++ m.builder.stack }

@[simp] theorem taken_zero (m : Machine) : m.taken 0 = m := by
  simp [taken]

theorem taken_taken (m : Machine) (j k : Nat) : (m.taken j).taken k = m.taken (j + k) := by
  unfold taken
  cases m.builder.keepStack <;> simp [List.drop_drop]

theorem denote_taken (m : Machine) (k depth : Nat) (o : Operand) :
    (m.taken k).denote depth o = m.denote (k + depth) o := by
  cases o with
  | stack => cases hk : m.builder.keepStack <;> simp [denote, taken, hk]
  | _ => rfl

theorem length_denoteAll {os : List Operand} {vs : List ValueId} (h : m.denoteAll os = some vs) :
    vs.length = os.length := by
  induction os generalizing vs with
  | nil => cases h; rfl
  | cons o os ih =>
    simp only [denoteAll, Option.bind_eq_bind, Option.bind_eq_some_iff, Option.some.injEq] at h
    obtain ⟨rest, hrest, v, _, rfl⟩ := h
    simp [ih hrest]

/-- The depth of an operand is the number of stack operands to its right. -/
theorem getElem?_denoteAll {os : List Operand} {vs : List ValueId} (h : m.denoteAll os = some vs) {i : Nat}
    {o : Operand} (ho : os[i]? = some o) : vs[i]? = m.denote ((os.drop (i + 1)).count .stack) o := by
  induction os generalizing vs i with
  | nil => cases ho
  | cons p os ih =>
    simp only [denoteAll, Option.bind_eq_bind, Option.bind_eq_some_iff, Option.some.injEq] at h
    obtain ⟨rest, hrest, v, hv, rfl⟩ := h
    cases i with
    | zero =>
      cases ho
      exact hv.symm
    | succ i => exact ih hrest ho

theorem place_taken (m : Machine) (k : Nat) (t : Target) : (m.taken k).place t = m.place t := by
  cases t <;> rfl

theorem placeAll_taken (m : Machine) (k : Nat) (ts : List Target) : (m.taken k).placeAll ts = m.placeAll ts := by
  induction ts with
  | nil => rfl
  | cons t ts ih => rw [placeAll, placeAll, ih, place_taken]

theorem holds_zero : m.Holds 0 := fun _ => Nat.zero_le _

theorem Holds.add {j k : Nat} (hj : m.Holds j) (hk : (m.taken j).Holds k) : m.Holds (j + k) := by
  intro hkeep
  have h := hk hkeep
  have hj := hj hkeep
  simp only [taken, hkeep, Bool.false_eq_true, if_false, List.length_drop] at h
  omega

end Machine

namespace Step
variable {m : Machine}

/-- An operand comes to what it denotes, or nothing happens. -/
theorem resolve_ends (o : Operand) (m : Machine) :
    Ends (resolve o m)
      (fun v m₁ => m.denote 0 o = some v ∧ m.Holds ([o].count .stack) ∧ m₁ = m.taken ([o].count .stack))
      (fun m' => m' = m) := by
  cases o with
  | stack =>
    change Ends (pop m) _ _
    rw [pop_run]
    cases hs : m.builder.stack with
    | nil => exact rfl
    | cons v rest =>
      refine ⟨?_, fun _ => ?_, ?_⟩
      · simp [Machine.denote, hs]
      · simp [hs]
      · simp [Machine.taken, hs]
  | value v => exact ⟨rfl, Machine.holds_zero, (m.taken_zero).symm⟩
  | var name =>
    simp only [resolve]
    cases hv : m.builder.var? name with
    | none => exact rfl
    | some v => exact ⟨hv, Machine.holds_zero, (m.taken_zero).symm⟩
  | arg index =>
    simp only [resolve]
    cases hf : m.builder.activeFunction? with
    | none => exact rfl
    | some f =>
      cases ha : (m.context.function f).args[index]? with
      | none => simp only [ha]; exact rfl
      | some v =>
        simp only [ha]
        exact ⟨by simp [Machine.denote, hf, ha], Machine.holds_zero, (m.taken_zero).symm⟩

theorem resolve_taken (o : Operand) {k : Nat} (hk : m.Holds k) :
    Ends (resolve o (m.taken k))
      (fun v m₁ => m.denote k o = some v ∧ m.Holds (k + [o].count .stack) ∧ m₁ = m.taken (k + [o].count .stack))
      (fun m' => m' = m.taken k) := by
  refine (resolve_ends o (m.taken k)).mono (fun v m₁ ⟨hv, hh, hm⟩ => ⟨?_, hk.add hh, ?_⟩) fun _ h => h
  · rwa [Machine.denote_taken] at hv
  · rw [hm, Machine.taken_taken]

private theorem count_cons (o : Operand) (os : List Operand) :
    (o :: os).count .stack = os.count .stack + [o].count .stack := by
  simp [List.count_cons]

/-- Operands come to what they denote. On failure some of them may have been taken. -/
theorem resolveAll_ends (os : List Operand) (m : Machine) :
    Ends (resolveAll os m)
      (fun vs m₁ => m.denoteAll os = some vs ∧ m.Holds (os.count .stack) ∧ m₁ = m.taken (os.count .stack))
      (fun m' => ∃ j ≤ os.count .stack, m' = m.taken j) := by
  induction os with
  | nil => exact ⟨rfl, Machine.holds_zero, m.taken_zero.symm⟩
  | cons o os ih =>
    rw [count_cons]
    refine Ends.bind ih (fun vs m₁ ⟨hvs, hh, hm⟩ => ?_) fun m' ⟨j, hj, hm⟩ => ⟨j, by omega, hm⟩
    rw [hm]
    refine Ends.bind (resolve_taken o hh) (fun v m₂ ⟨hv, hh₂, hm₂⟩ => ?_) fun m' hm => ⟨_, by omega, hm⟩
    exact ⟨by simp [Machine.denoteAll, hvs, hv], hh₂, hm₂⟩

theorem target_ends (t : Target) (m : Machine) :
    Ends (target t m) (fun b m₁ => m.place t = some b ∧ m₁ = m) (fun m' => m' = m) := by
  cases t with
  | named name =>
    simp only [target]
    cases hb : m.builder.block? name with
    | none => exact rfl
    | some b => exact ⟨hb, rfl⟩
  | block b => exact ⟨rfl, rfl⟩
  | next n =>
    simp only [target]
    cases hp : m.builder.position with
    | none => exact rfl
    | some current =>
      dsimp only
      cases hi : m.builder.blockOrder.idxOf? current with
      | none => exact rfl
      | some i =>
        dsimp only
        cases hb : m.builder.blockOrder[i + n]? with
        | none => exact rfl
        | some b => exact ⟨by simp [Machine.place, hp, hi, hb], rfl⟩

/-- The edges of a phi come to what their values and blocks stand for. -/
theorem resolveEdges_ends (es : List PhiEdge) (m : Machine) :
    Ends (resolveEdges es m)
      (fun incoming m₁ => m.denoteAll (es.map (·.value)) = some (incoming.map Prod.fst) ∧
        m.placeAll (es.map (·.block)) = some (incoming.map Prod.snd) ∧
        m.Holds ((es.map (·.value)).count .stack) ∧ m₁ = m.taken ((es.map (·.value)).count .stack))
      (fun m' => ∃ j ≤ (es.map (·.value)).count .stack, m' = m.taken j) := by
  induction es with
  | nil => exact ⟨rfl, rfl, Machine.holds_zero, m.taken_zero.symm⟩
  | cons e es ih =>
    rw [List.map_cons, count_cons]
    refine Ends.bind ih (fun rest m₁ ⟨hvs, hbs, hh, hm⟩ => ?_) fun m' ⟨j, hj, hm⟩ => ⟨j, by omega, hm⟩
    rw [hm]
    refine Ends.bind (target_ends e.block _) (fun b m₂ ⟨hb, hm₂⟩ => ?_) fun m' hm => ⟨_, by omega, hm⟩
    rw [hm₂]
    refine Ends.bind (resolve_taken e.value hh) (fun v m₃ ⟨hv, hh₃, hm₃⟩ => ?_) fun m' hm => ⟨_, by omega, hm⟩
    rw [Machine.place_taken] at hb
    refine ⟨?_, ?_, hh₃, hm₃⟩
    · simp [Machine.denoteAll, hvs, hv]
    · simp [Machine.placeAll, hbs, hb]

theorem resolveCallee_ends (c : Callee) (m : Machine) :
    Ends (resolveCallee c m) (fun f m₁ => m.callee? c = some f ∧ m₁ = m) (fun m' => m' = m) := by
  cases c with
  | function f => exact ⟨rfl, rfl⟩
  | named name =>
    simp only [resolveCallee]
    cases hm : m.builder.module with
    | none => exact rfl
    | some module =>
      dsimp only
      cases hf : m.context.findFunction? module name with
      | none => exact rfl
      | some f => exact ⟨by simp [Machine.callee?, hm, hf], rfl⟩

/-- A refused call of the emitter may leave types in the table. -/
theorem emission_ends (e : Emission) (m : Machine) :
    Ends (emit (e.run ·) m)
      (fun v m₁ => ∃ ctx, e.run m.builder.position m.context = .ok v ctx ∧ m₁ = { m with context := ctx })
      (fun m' => ∃ ts, m' = { m with context := m.context.internAll ts }) := by
  rw [emit_run]
  have outcome := e.run_outcome m.builder.position m.context
  cases hr : e.run m.builder.position m.context with
  | ok v ctx => exact ⟨ctx, rfl, rfl⟩
  | error err ctx =>
    rw [hr] at outcome
    cases outcome with
    | refused ts => exact ⟨ts, rfl⟩

end Step
end StackAssembler.Build
