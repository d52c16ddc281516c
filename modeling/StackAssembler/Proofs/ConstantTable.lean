import Mathlib.Data.List.Forall2
import StackAssembler.Proofs.Growth

/-! The values and an index of the constants among them. Only asking for a constant enters something into the index, and
still it has all constants at any time, and nothing else. -/
namespace StackAssembler.IR

/-- A table that grows by no entries has each of them in its place. -/
theorem Grows.forall₂ {α : Type} {R : α → α → Prop} {xs ys : Array α} (h : Grows R xs ys) (hsize : ys.size = xs.size) :
    List.Forall₂ R xs.toList ys.toList := by
  refine List.forall₂_iff_get.mpr ⟨hsize.symm, fun i hi _ => ?_⟩
  obtain ⟨y, hy, hR⟩ := h i xs[i] (Array.getElem?_eq_getElem hi)
  obtain ⟨hi', rfl⟩ := Array.getElem?_eq_some_iff.mp hy
  exact hR

namespace Value

/-- The type and the content by which a constant is found. -/
def key? (x : Value) : Option (Ty × Constant) :=
  match x.kind with
  | .constant c => some (x.type, c)
  | _ => none

theorem key?_eq_some {x : Value} {t : Ty} {c : Constant} : x.key? = some (t, c) ↔ x.type = t ∧ x.kind = .constant c := by
  unfold key?
  cases x.kind <;> simp

theorem Kept.key? {x y : Value} (h : x.Kept y) : y.key? = x.key? := by
  rw [Value.key?, Value.key?, h.1, h.2]

end Value

/-- A table of values and an index from types and contents to constants. -/
structure ConstantTable where
  values : List Value := []
  index : List ((Ty × Constant) × ValueId) := []
  deriving DecidableEq, Repr

namespace ConstantTable
variable {table table' : ConstantTable} {t : Ty} {c : Constant}

/-- The constant of a type and content, which is made and entered unless the index has it. -/
def constant (table : ConstantTable) (t : Ty) (c : Constant) : ValueId × ConstantTable :=
  match table.index.lookup (t, c) with
  | some v => (v, table)
  | none => (⟨table.values.length⟩,
      ⟨table.values ++ [⟨t, none, .constant c⟩], table.index ++ [((t, c), ⟨table.values.length⟩)]⟩)

theorem constant_of_some {v : ValueId} (h : table.index.lookup (t, c) = some v) : table.constant t c = (v, table) := by
  rw [constant, h]

theorem constant_of_none (h : table.index.lookup (t, c) = none) :
    table.constant t c = (⟨table.values.length⟩,
      ⟨table.values ++ [⟨t, none, .constant c⟩], table.index ++ [((t, c), ⟨table.values.length⟩)]⟩) := by
  rw [constant, h]

/-- What may happen: a constant is asked for, a value that is none is added, or names of values change. -/
inductive Step (table : ConstantTable) : ConstantTable → Prop where
  | constant (t : Ty) (c : Constant) : Step table (table.constant t c).2
  | push {x : Value} : x.key? = none → Step table { table with values := table.values ++ [x] }
  | rename {xs : List Value} : List.Forall₂ Value.Kept table.values xs → Step table { table with values := xs }

def Runs : ConstantTable → ConstantTable → Prop := Relation.ReflTransGen Step

/-- The key of the constant that stands in a place. -/
def key? (table : ConstantTable) (v : ValueId) : Option (Ty × Constant) := table.values[v.index]?.bind Value.key?

/-- The index has each constant with its place, and nothing else. -/
def InStep (table : ConstantTable) : Prop :=
  ∀ key v, table.index.lookup key = some v ↔ table.key? v = some key

/-! ### Steps -/

theorem lookup_concat {α β : Type} [BEq α] (index : List (α × β)) (key k : α) (b : β) :
    (index ++ [(k, b)]).lookup key = (index.lookup key).or (if key == k then some b else none) := by
  rw [List.lookup_append, List.lookup_cons, List.lookup_nil]
  cases key == k <;> rfl

/-- Places keep their keys when values change names. -/
theorem bind_key?_kept {xs ys : List Value} (h : List.Forall₂ Value.Kept xs ys) (i : Nat) :
    ys[i]?.bind Value.key? = xs[i]?.bind Value.key? := by
  induction h generalizing i with
  | nil => rfl
  | cons hx _ ih =>
    cases i with
    | zero => exact hx.key?
    | succ i => exact ih i

theorem key?_append (xs : List Value) (x : Value) (index : List ((Ty × Constant) × ValueId)) (v : ValueId) :
    key? ⟨xs ++ [x], index⟩ v = if v.index = xs.length then x.key? else xs[v.index]?.bind Value.key? := by
  unfold key?
  dsimp only
  split
  · next h => rw [h, List.getElem?_concat_length, Option.bind_some]
  · next h =>
    rcases Nat.lt_or_gt_of_ne h with hlt | hgt
    · rw [List.getElem?_append_left hlt]
    · have hlen : (xs ++ [x]).length ≤ v.index := by rwa [List.length_append, List.length_singleton]
      rw [List.getElem?_eq_none hlen, List.getElem?_eq_none (Nat.le_of_lt hgt)]

/-- No constant stands behind the last value. -/
theorem key?_end {v : ValueId} (hv : v.index = table.values.length) : table.key? v = none := by
  rw [key?, List.getElem?_eq_none (Nat.le_of_eq hv.symm), Option.bind_none]

namespace InStep

theorem empty : InStep {} := fun key v => by simp [key?]

theorem unique (h : table.InStep) {v w : ValueId} {key : Ty × Constant} (hv : table.key? v = some key)
    (hw : table.key? w = some key) : v = w :=
  Option.some.inj (((h key v).mpr hv).symm.trans ((h key w).mpr hw))

/-- What is not in the index is no constant. -/
theorem key?_ne (h : table.InStep) {key : Ty × Constant} (hl : table.index.lookup key = none) (v : ValueId) :
    table.key? v ≠ some key := fun hv => by
  rw [(h key v).mpr hv] at hl
  cases hl

/-- A constant that is made is entered. -/
theorem constant (h : table.InStep) (t : Ty) (c : Constant) : (table.constant t c).2.InStep := by
  cases hl : table.index.lookup (t, c) with
  | some v =>
    rw [constant_of_some hl]
    exact h
  | none =>
    rw [constant_of_none hl]
    intro key v
    dsimp only
    rw [lookup_concat, key?_append]
    by_cases hkey : key = (t, c)
    · -- The new place is the only one of this key.
      rw [hkey, hl, if_pos (beq_self_eq_true _), Option.none_or]
      split
      · next hv => exact ⟨fun _ => rfl, fun _ => congrArg some (congrArg ValueId.mk hv.symm)⟩
      · next hv =>
        refine ⟨fun he => absurd (congrArg ValueId.index (Option.some.inj he)).symm hv, fun he => ?_⟩
        exact absurd he (h.key?_ne hl v)
    · rw [beq_false_of_ne hkey, if_neg Bool.false_ne_true, Option.or_none]
      split
      · next hv =>
        refine ⟨fun he => ?_, fun he => absurd (Option.some.inj he).symm hkey⟩
        exact absurd ((key?_end hv).symm.trans ((h key v).mp he)) nofun
      · exact h key v

theorem push (h : table.InStep) {x : Value} (hx : x.key? = none) :
    InStep { table with values := table.values ++ [x] } := by
  intro key v
  rw [h key v, key?_append]
  split
  · next hv => rw [key?_end hv, hx]
  · exact Iff.rfl

theorem rename (h : table.InStep) {xs : List Value} (hxs : List.Forall₂ Value.Kept table.values xs) :
    InStep { table with values := xs } := by
  intro key v
  rw [h key v, key?, key?, bind_key?_kept hxs]

theorem step (h : table.InStep) (hs : Step table table') : table'.InStep := by
  cases hs with
  | constant t c => exact h.constant t c
  | push hx => exact h.push hx
  | rename hxs => exact h.rename hxs

end InStep

theorem Runs.inStep (h : Runs table table') (hs : table.InStep) : table'.InStep := by
  induction h with
  | refl => exact hs
  | tail _ hstep ih => exact ih.step hstep

/-- Values that are no constants can be added one after another. -/
theorem runs_append {xs : List Value} (table : ConstantTable) (hxs : ∀ x ∈ xs, x.key? = none) :
    Runs table { table with values := table.values ++ xs } := by
  induction xs generalizing table with
  | nil =>
    rw [List.append_nil]
    exact .refl
  | cons x xs ih =>
    obtain ⟨hx, hxs⟩ := List.forall_mem_cons.mp hxs
    have rest := ih { table with values := table.values ++ [x] } hxs
    rw [List.append_assoc] at rest
    exact .head (.push hx) rest

/-! ### The table of some values -/

/-- The constants among values, the first of which has place `start`. -/
def indexFrom (start : Nat) : List Value → List ((Ty × Constant) × ValueId)
  | [] => []
  | x :: xs => (x.key?.map fun key => (key, ⟨start⟩)).toList ++ indexFrom (start + 1) xs

theorem indexFrom_append (start : Nat) (xs ys : List Value) :
    indexFrom start (xs ++ ys) = indexFrom start xs ++ indexFrom (start + xs.length) ys := by
  induction xs generalizing start with
  | nil => rfl
  | cons x xs ih =>
    rw [List.cons_append, indexFrom, indexFrom, ih, List.append_assoc, List.length_cons, Nat.add_assoc, Nat.add_comm 1]

theorem indexFrom_eq_nil {xs : List Value} (h : ∀ x ∈ xs, x.key? = none) (start : Nat) : indexFrom start xs = [] := by
  induction xs generalizing start with
  | nil => rfl
  | cons x xs ih =>
    obtain ⟨hx, hxs⟩ := List.forall_mem_cons.mp h
    rw [indexFrom, hx, ih hxs]
    rfl

theorem indexFrom_kept {xs ys : List Value} (h : List.Forall₂ Value.Kept xs ys) (start : Nat) :
    indexFrom start ys = indexFrom start xs := by
  induction h generalizing start with
  | nil => rfl
  | cons hx _ ih => rw [indexFrom, indexFrom, hx.key?, ih]

/-- Values with the index of the constants among them. -/
def ofValues (xs : List Value) : ConstantTable := ⟨xs, indexFrom 0 xs⟩

/-- A constant that the index does not have becomes the last value and the last entry. -/
theorem ofValues_constant {xs : List Value} (h : (ofValues xs).index.lookup (t, c) = none) :
    (ofValues xs).constant t c = (⟨xs.length⟩, ofValues (xs ++ [⟨t, none, .constant c⟩])) := by
  rw [constant_of_none h, ofValues, ofValues, indexFrom_append, Nat.zero_add]
  rfl

/-- Values that are no constants leave the index as it is. -/
theorem runs_ofValues_append {xs ys : List Value} (h : ∀ y ∈ ys, y.key? = none) :
    Runs (ofValues xs) (ofValues (xs ++ ys)) := by
  have hindex : ofValues (xs ++ ys) = ⟨xs ++ ys, indexFrom 0 xs⟩ := by
    rw [ofValues, indexFrom_append, indexFrom_eq_nil h, List.append_nil]
  rw [hindex]
  exact runs_append (ofValues xs) h

/-- So do names. -/
theorem runs_ofValues_kept {xs ys : List Value} (h : List.Forall₂ Value.Kept xs ys) :
    Runs (ofValues xs) (ofValues ys) := by
  have hstep : Step (ofValues xs) ⟨ys, indexFrom 0 xs⟩ := .rename h
  rw [← indexFrom_kept h] at hstep
  exact .single hstep

end ConstantTable
end StackAssembler.IR
