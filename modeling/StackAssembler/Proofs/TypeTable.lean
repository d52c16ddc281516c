import Mathlib.Data.List.Nodup
import StackAssembler.Proofs.Reachability

/-! The table of types as numbers. A type is known by its number there, and is made of types with smaller numbers. -/
namespace StackAssembler.IR

/-- A type whose parts are given by their numbers. -/
inductive TypeKind where
  | void
  | int (bits : Nat)
  | float (format : FloatFormat)
  | pointer (pointee : Nat) (space : Nat)
  | array (element : Nat) (length : Nat)
  | struct (fields : List Nat) (packed : Bool)
  | function (result : Nat) (params : List Nat) (variadic : Bool)
  deriving DecidableEq, Repr

namespace TypeKind

/-- The numbers of the types that a type is directly made of. -/
def parts : TypeKind → List Nat
  | pointer p _ => [p]
  | array e _ => [e]
  | struct fs _ => fs
  | function r ps _ => r :: ps
  | _ => []

/-- The type itself. -/
def assemble (type : Nat → Ty) : TypeKind → Ty
  | void => .void
  | int bits => .int bits
  | float f => .float f
  | pointer p space => .pointer (type p) space
  | array e length => .array (type e) length
  | struct fs packed => .struct (fs.map type) packed
  | function r ps variadic => .function (type r) (ps.map type) variadic

end TypeKind

/-- A type with its parts given by numbers. -/
def Ty.kind (number : Ty → Nat) : Ty → TypeKind
  | void => .void
  | int bits => .int bits
  | float f => .float f
  | pointer p space => .pointer (number p) space
  | array e length => .array (number e) length
  | struct fs packed => .struct (fs.map number) packed
  | function r ps variadic => .function (number r) (ps.map number) variadic

namespace Ty
variable {number : Ty → Nat} {type : Nat → Ty}

theorem parts_kind (t : Ty) : (t.kind number).parts = t.components.map number := by
  cases t <;> simp [kind, TypeKind.parts, components]

theorem components_assemble (k : TypeKind) : (k.assemble type).components = k.parts.map type := by
  cases k <;> simp [TypeKind.assemble, TypeKind.parts, components]

theorem kind_congr {number' : Ty → Nat} {t : Ty} (h : ∀ c ∈ t.components, number' c = number c) :
    t.kind number' = t.kind number := by
  cases t with
  | void | int | float => rfl
  | pointer p | array p => rw [kind, kind, h p (.head _)]
  | struct fs =>
    have hfs : fs.map number' = fs.map number := List.map_congr_left h
    rw [kind, kind, hfs]
  | function r ps => rw [kind, kind, h r (.head _), List.map_congr_left fun c hc => h c (.tail _ hc)]

theorem assemble_kind {t : Ty} (h : ∀ c ∈ t.components, type (number c) = c) : (t.kind number).assemble type = t := by
  have same (ts : List Ty) (h : ∀ c ∈ ts, type (number c) = c) : (ts.map number).map type = ts := by
    rw [List.map_map]
    exact (List.map_congr_left h).trans (List.map_id _)
  cases t with
  | void | int | float => rfl
  | pointer p | array p => rw [kind, TypeKind.assemble, h p (.head _)]
  | struct fs => rw [kind, TypeKind.assemble, same fs h]
  | function r ps => rw [kind, TypeKind.assemble, h r (.head _), same ps fun c hc => h c (.tail _ hc)]

theorem kind_assemble {k : TypeKind} (h : ∀ i ∈ k.parts, number (type i) = i) : (k.assemble type).kind number = k := by
  have same (is : List Nat) (h : ∀ i ∈ is, number (type i) = i) : (is.map type).map number = is := by
    rw [List.map_map]
    exact (List.map_congr_left h).trans (List.map_id _)
  cases k with
  | void | int | float => rfl
  | pointer p | array p => rw [TypeKind.assemble, kind, h p (.head _)]
  | struct fs => rw [TypeKind.assemble, kind, same fs h]
  | function r ps => rw [TypeKind.assemble, kind, h r (.head _), same ps fun c hc => h c (.tail _ hc)]

end Ty

/-- A table of types and an index from types to their numbers. -/
structure TypeTable where
  kinds : List TypeKind := []
  index : List (TypeKind × Nat) := []
  deriving DecidableEq, Repr

namespace TypeTable
variable {table : TypeTable} {k : TypeKind}

/-- The number of a type, which is entered unless the index has it. -/
def intern (table : TypeTable) (k : TypeKind) : Nat × TypeTable :=
  match table.index.lookup k with
  | some i => (i, table)
  | none => (table.kinds.length, ⟨table.kinds ++ [k], table.index ++ [(k, table.kinds.length)]⟩)

theorem intern_of_some {i : Nat} (h : table.index.lookup k = some i) : table.intern k = (i, table) := by
  rw [intern, h]

theorem intern_of_none (h : table.index.lookup k = none) :
    table.intern k = (table.kinds.length, ⟨table.kinds ++ [k], table.index ++ [(k, table.kinds.length)]⟩) := by
  rw [intern, h]

end TypeTable

/-! ### The index of a list -/

theorem lookup_zipIdx {α : Type} [BEq α] [LawfulBEq α] {xs : List α} (h : xs.Nodup) {i : Nat} {x : α}
    (hi : xs[i]? = some x) (n : Nat) : (xs.zipIdx n).lookup x = some (n + i) := by
  induction xs generalizing i n with
  | nil => cases hi
  | cons y xs ih =>
    obtain ⟨hy, hxs⟩ := List.nodup_cons.mp h
    rw [List.zipIdx_cons, List.lookup_cons]
    cases i with
    | zero =>
      obtain rfl := Option.some.inj hi
      simp
    | succ i =>
      have hx : xs[i]? = some x := hi
      have hne : (x == y) = false := beq_false_of_ne fun he => hy (he ▸ List.mem_of_getElem? hx)
      rw [hne]
      dsimp only
      rw [ih hxs hx, Nat.add_assoc, Nat.add_comm 1 i]

theorem lookup_zipIdx_eq_none {α : Type} [BEq α] [LawfulBEq α] {xs : List α} {x : α} (h : x ∉ xs) (n : Nat) :
    (xs.zipIdx n).lookup x = none := by
  refine List.lookup_eq_none_iff.mpr fun p hp => ?_
  have hin : p.1 ∈ xs := List.fst_mem_of_mem_zipIdx hp
  exact bne_iff_ne.mpr fun he => h (he ▸ hin)

namespace Context

/-- The number of a type of the context. -/
def number (ctx : Context) (t : Ty) : Nat := ctx.types.toList.idxOf t

/-- The type of a number. -/
def typeAt (ctx : Context) (i : Nat) : Ty := ctx.types.toList.getD i default

def kinds (ctx : Context) : List TypeKind := ctx.types.toList.map (Ty.kind ctx.number)

/-- The types of the context by numbers. The index has each kind with its number. -/
def typeTable (ctx : Context) : TypeTable := ⟨ctx.kinds, ctx.kinds.zipIdx⟩

end Context

/-- Each type is in the table once, behind the types that it is made of. -/
structure Layered (ctx : Context) : Prop where
  once : ctx.types.toList.Nodup
  earlier : ∀ (i : Nat) (t : Ty), ctx.types.toList[i]? = some t → ∀ c ∈ t.components, ∃ j < i, ctx.types.toList[j]? = some c

namespace Layered
variable {ctx ctx' : Context}

theorem empty (layout : DataLayout) : Layered { layout := layout } := ⟨List.nodup_nil, nofun⟩

private theorem keep (hl : Layered ctx) (h : ctx'.types = ctx.types) : Layered ctx' :=
  ⟨by rw [h]; exact hl.once, by rw [h]; exact hl.earlier⟩

theorem step (hl : Layered ctx) (h : Change ctx ctx') : Layered ctx' := by
  cases h with
  | @type t hnew hparts =>
    have htypes : (ctx.types.push t).toList = ctx.types.toList ++ [t] := by simp
    constructor
    · change (ctx.types.push t).toList.Nodup
      rw [htypes, List.nodup_append]
      refine ⟨hl.once, List.nodup_singleton t, fun u hu v hv => ?_⟩
      rw [List.mem_singleton.mp hv]
      rintro rfl
      exact hnew hu
    · intro i u hi c hc
      change (ctx.types.push t).toList[i]? = some u at hi
      change ∃ j < i, (ctx.types.push t).toList[j]? = some c
      rw [htypes] at hi ⊢
      by_cases hlt : i < ctx.types.toList.length
      · rw [List.getElem?_append_left hlt] at hi
        obtain ⟨j, hji, hj⟩ := hl.earlier i u hi c hc
        exact ⟨j, hji, by rw [List.getElem?_append_left (Nat.lt_trans hji hlt), hj]⟩
      · rw [List.getElem?_append_right (Nat.le_of_not_lt hlt), List.getElem?_singleton] at hi
        split at hi
        · obtain rfl := Option.some.inj hi
          obtain ⟨j, hj⟩ := List.mem_iff_getElem?.mp (hparts c hc)
          have hjlt := (List.getElem?_eq_some_iff.mp hj).1
          exact ⟨j, by omega, by rw [List.getElem?_append_left hjlt, hj]⟩
        · cases hi
  | _ => exact hl.keep rfl

theorem evolve (hl : Layered ctx) (h : Evolves ctx ctx') : Layered ctx' := h.preserves step hl

/-! ### Numbers -/

theorem number_eq (hl : Layered ctx) {i : Nat} {t : Ty} (h : ctx.types.toList[i]? = some t) : ctx.number t = i := by
  obtain ⟨hi, rfl⟩ := List.getElem?_eq_some_iff.mp h
  exact hl.once.idxOf_getElem i hi

theorem typeAt_number {t : Ty} (h : ctx.HasType t) : ctx.typeAt (ctx.number t) = t := by
  rw [Context.typeAt, List.getD_eq_getElem?_getD, Context.number, List.getElem?_idxOf h, Option.getD_some]

theorem getElem?_typeAt {i : Nat} (h : i < ctx.types.size) : ctx.types.toList[i]? = some (ctx.typeAt i) := by
  have hi : i < ctx.types.toList.length := h
  rw [Context.typeAt, List.getD_eq_getElem?_getD, List.getElem?_eq_getElem hi, Option.getD_some]

theorem number_typeAt (hl : Layered ctx) {i : Nat} (h : i < ctx.types.size) : ctx.number (ctx.typeAt i) = i :=
  hl.number_eq (getElem?_typeAt h)

theorem hasType_component (hl : Layered ctx) {t : Ty} (h : ctx.HasType t) : ∀ c ∈ t.components, ctx.HasType c := by
  obtain ⟨i, hi⟩ := List.mem_iff_getElem?.mp h
  intro c hc
  obtain ⟨j, _, hj⟩ := hl.earlier i t hi c hc
  exact List.mem_of_getElem? hj

/-- What a type of the table is made of has smaller numbers. -/
theorem number_component (hl : Layered ctx) {i : Nat} {t : Ty} (h : ctx.types.toList[i]? = some t) {c : Ty}
    (hc : c ∈ t.components) : ctx.number c < i ∧ ctx.types.toList[ctx.number c]? = some c := by
  obtain ⟨j, hji, hj⟩ := hl.earlier i t h c hc
  rw [hl.number_eq hj]
  exact ⟨hji, hj⟩

/-! ### Kinds -/

theorem assemble_kind (hl : Layered ctx) {t : Ty} (h : ctx.HasType t) :
    (t.kind ctx.number).assemble ctx.typeAt = t :=
  Ty.assemble_kind fun c hc => typeAt_number (hl.hasType_component h c hc)

theorem kind_assemble (hl : Layered ctx) {k : TypeKind} (h : ∀ i ∈ k.parts, i < ctx.types.size) :
    (k.assemble ctx.typeAt).kind ctx.number = k :=
  Ty.kind_assemble fun i hi => hl.number_typeAt (h i hi)

theorem kind_injective (hl : Layered ctx) {t u : Ty} (ht : ctx.HasType t) (hu : ctx.HasType u)
    (h : t.kind ctx.number = u.kind ctx.number) : t = u := by
  rw [← hl.assemble_kind ht, ← hl.assemble_kind hu, h]

theorem nodup_kinds (hl : Layered ctx) : ctx.kinds.Nodup :=
  List.Nodup.map_on (fun _ ht _ hu h => hl.kind_injective ht hu h) hl.once

theorem getElem?_kinds (i : Nat) : ctx.kinds[i]? = (ctx.types.toList[i]?).map (Ty.kind ctx.number) := List.getElem?_map

theorem mem_kinds (hl : Layered ctx) {k : TypeKind} (h : ∀ i ∈ k.parts, i < ctx.types.size) :
    k ∈ ctx.kinds ↔ ctx.HasType (k.assemble ctx.typeAt) := by
  constructor
  · intro hk
    obtain ⟨t, ht, rfl⟩ := List.mem_map.mp hk
    rwa [hl.assemble_kind ht]
  · intro ht
    exact List.mem_map.mpr ⟨_, ht, hl.kind_assemble h⟩

/-! ### Interning -/

/-- Numbers stay while the table grows. -/
theorem number_later (h : ctx.types.toList <+: ctx'.types.toList) {t : Ty} (ht : ctx.HasType t) :
    ctx'.number t = ctx.number t := by
  obtain ⟨added, hadded⟩ := h
  rw [Context.number, ← hadded, List.idxOf_append_of_mem ht, Context.number]

theorem kind_later (h : ctx.types.toList <+: ctx'.types.toList) {t : Ty}
    (ht : ∀ c ∈ t.components, ctx.HasType c) : t.kind ctx'.number = t.kind ctx.number :=
  Ty.kind_congr fun c hc => number_later h (ht c hc)

theorem map_kind_later (hl : Layered ctx) (h : ctx.types.toList <+: ctx'.types.toList) :
    ctx.types.toList.map (Ty.kind ctx'.number) = ctx.kinds :=
  List.map_congr_left fun _ ht => kind_later h (hl.hasType_component ht)

/-- Kinds stay while the table grows. -/
theorem kinds_prefix (hl : Layered ctx) (h : ctx.types.toList <+: ctx'.types.toList) : ctx.kinds <+: ctx'.kinds := by
  rw [← hl.map_kind_later h]
  exact h.map _

/-- A type that is new gets the next number, and its kind becomes the last one. -/
theorem kinds_push (hl : Layered ctx) {t : Ty} (hnew : ¬ ctx.HasType t) (hparts : ∀ c ∈ t.components, ctx.HasType c)
    (h : ctx'.types.toList = ctx.types.toList ++ [t]) :
    ctx'.number t = ctx.kinds.length ∧ ctx'.kinds = ctx.kinds ++ [t.kind ctx.number] := by
  have hprefix : ctx.types.toList <+: ctx'.types.toList := ⟨_, h.symm⟩
  constructor
  · rw [Context.number, h, List.idxOf_append_of_notMem hnew, List.idxOf_cons_self, Context.kinds, List.length_map,
      Nat.add_zero]
  · rw [Context.kinds, h, List.map_append, hl.map_kind_later hprefix, List.map_singleton, kind_later hprefix hparts]

/-- The index tells where a kind is in the table. -/
theorem lookup_index (hl : Layered ctx) {k : TypeKind} {i : Nat} (h : ctx.kinds[i]? = some k) :
    ctx.typeTable.index.lookup k = some i := by
  rw [Context.typeTable, lookup_zipIdx hl.nodup_kinds h, Nat.zero_add]

theorem lookup_index_eq_none {k : TypeKind} (h : k ∉ ctx.kinds) : ctx.typeTable.index.lookup k = none :=
  lookup_zipIdx_eq_none h 0

theorem lookup_index_iff (hl : Layered ctx) {k : TypeKind} {i : Nat} :
    ctx.typeTable.index.lookup k = some i ↔ ctx.kinds[i]? = some k := by
  refine ⟨fun h => ?_, hl.lookup_index⟩
  by_cases hk : k ∈ ctx.kinds
  · obtain ⟨j, hj⟩ := List.mem_iff_getElem?.mp hk
    obtain rfl : j = i := Option.some.inj ((hl.lookup_index hj).symm.trans h)
    exact hj
  · rw [lookup_index_eq_none hk] at h
    cases h

/-- Entering a type into a context enters its kind into the table. -/
theorem intern_typeTable (hl : Layered ctx) {k : TypeKind} (h : ∀ i ∈ k.parts, i < ctx.types.size) :
    ctx.typeTable.intern k =
      ((ctx.intern (k.assemble ctx.typeAt)).number (k.assemble ctx.typeAt), (ctx.intern (k.assemble ctx.typeAt)).typeTable) := by
  have hk := hl.kind_assemble h
  by_cases ht : ctx.HasType (k.assemble ctx.typeAt)
  · have hctx : ctx.intern (k.assemble ctx.typeAt) = ctx := if_pos ht
    obtain ⟨i, hi⟩ := List.mem_iff_getElem?.mp ht
    have hki : ctx.kinds[i]? = some k := by rw [getElem?_kinds, hi, Option.map_some, hk]
    rw [TypeTable.intern_of_some (hl.lookup_index hki), hctx, hl.number_eq hi]
  · have hctx : ctx.intern (k.assemble ctx.typeAt) = { ctx with types := ctx.types.push (k.assemble ctx.typeAt) } :=
      if_neg ht
    have htypes : (ctx.intern (k.assemble ctx.typeAt)).types.toList = ctx.types.toList ++ [k.assemble ctx.typeAt] := by
      rw [hctx, Array.toList_push]
    have hparts : ∀ c ∈ (k.assemble ctx.typeAt).components, ctx.HasType c := by
      rw [Ty.components_assemble]
      exact List.forall_mem_map.mpr fun i hi => List.mem_of_getElem? (getElem?_typeAt (h i hi))
    obtain ⟨hnumber, hkinds⟩ := hl.kinds_push ht hparts htypes
    have hnew : k ∉ ctx.kinds := fun hin => ht ((hl.mem_kinds h).mp hin)
    rw [TypeTable.intern_of_none (lookup_index_eq_none hnew), hnumber, Context.typeTable, Context.typeTable, hkinds, hk,
      List.zipIdx_append, Nat.zero_add, List.zipIdx_singleton]

/-- What a kind is made of has smaller numbers. -/
theorem part_lt (hl : Layered ctx) {i : Nat} {k : TypeKind} (h : ctx.kinds[i]? = some k) : ∀ p ∈ k.parts, p < i := by
  rw [getElem?_kinds] at h
  obtain ⟨t, ht, rfl⟩ := Option.map_eq_some_iff.mp h
  rw [Ty.parts_kind]
  exact List.forall_mem_map.mpr fun c hc => (hl.number_component ht hc).1

end Layered
end StackAssembler.IR
