import StackAssembler.Proofs.StrictArithmetic
import StackAssembler.Proofs.TypeTable

/-! Recursions over the table of types. They follow numbers, and nothing about a number says that they end. So calls may
only be nested so deep, and deeper ones have no answer. On the types of a context a depth suffices that grows with the
number, and the answers are what is said of the types themselves. -/
namespace StackAssembler.IR

namespace TypeTable
variable (table : TypeTable)

/-! ### Spelling -/

def name : (depth : Nat) → Nat → Option String
  | 0, _ => none
  | depth + 1, i => do
    match ← table.kinds[i]? with
    | .void => return "void"
    | .int bits => return "i" ++ toString bits
    | .float f => return f.name
    | .pointer p space =>
      let pointee ← name depth p
      return if space = 0 then pointee ++ "*" else pointee ++ " addrspace(" ++ toString space ++ ")*"
    | .array e length =>
      let element ← name depth e
      return "[" ++ toString length ++ " x " ++ element ++ "]"
    | .struct fs packed =>
      let fields ← fs.mapM (name depth)
      return if packed then "<\x7b " ++ Ty.commas fields ++ " \x7d>" else "\x7b " ++ Ty.commas fields ++ " \x7d"
    | .function r ps variadic =>
      let params ← ps.mapM (name depth)
      let result ← name depth r
      return result ++ " (" ++ Ty.commas (params ++ if variadic then ["..."] else []) ++ ")"

def shortName : (depth : Nat) → Nat → Option String
  | 0, _ => none
  | depth + 1, i => do
    match ← table.kinds[i]? with
    | .pointer p _ =>
      let pointee ← shortName depth p
      return pointee ++ "p"
    | _ => table.name (depth + 1) i

/-! ### Sizes -/

/-- Where something ends that starts at the next place of its alignment. -/
def fieldEnd? (offset align size : Nat) : Option Nat := do
  let start ← sized? (roundUp offset align)
  sized? (start + size)

/-- Where the last of some fields ends, and the largest alignment that was met. -/
def fieldsEnd (allocSize : Nat → Option (Option Nat)) (abiAlign : Nat → Option Nat) (packed : Bool) :
    List Nat → (offset align : Nat) → Option (Option (Nat × Nat))
  | [], offset, align => return some (offset, align)
  | f :: fs, offset, align => do
    match ← allocSize f with
    | none => return none
    | some size =>
      if packed then
        match sized? (offset + size) with
        | none => return none
        | some stop => fieldsEnd allocSize abiAlign packed fs stop align
      else
        let a ← abiAlign f
        match fieldEnd? offset a size with
        | none => return none
        | some stop => fieldsEnd allocSize abiAlign packed fs stop (max align a)

variable (layout : DataLayout)

mutual

/-- The size of a type in bits, unless it has none. -/
def sizeInBits : (depth : Nat) → Nat → Option (Option Nat)
  | 0, _ => none
  | depth + 1, i => do
    match ← table.kinds[i]? with
    | .void | .function .. => return none
    | .int bits => return some bits
    | .float f => return some f.bits
    | .pointer .. => return some layout.pointerBits
    | .array e length =>
      match ← allocSize depth e with
      | none => return none
      | some size => return (sized? (size * 8)).bind fun bits => sized? (bits * length)
    | .struct fs packed =>
      match ← fieldsEnd (allocSize depth) (abiAlign depth) packed fs 0 1 with
      | none => return none
      | some (offset, align) => return (sized? (roundUp offset align)).bind fun size => sized? (size * 8)

/-- The bytes that a value occupies in memory. -/
def allocSize : (depth : Nat) → Nat → Option (Option Nat)
  | 0, _ => none
  | depth + 1, i => do
    match ← sizeInBits depth i with
    | none => return none
    | some bits =>
      let align ← abiAlign depth i
      return sized? (roundUp (ceilDiv bits 8) align)

/-- The alignment of a type in bytes. -/
def abiAlign : (depth : Nat) → Nat → Option Nat
  | 0, _ => none
  | depth + 1, i => do
    match ← table.kinds[i]? with
    | .array e _ => abiAlign depth e
    | .struct fs packed =>
      if packed then return 1
      else
        let aligns ← fs.mapM (abiAlign depth)
        return aligns.max?.getD 1
    | _ =>
      match ← sizeInBits depth i with
      | some bits => return Ty.scalarAlign layout bits
      | none => return 1

end
end TypeTable

/-! ### What the recursions come to -/

theorem Ty.names_eq (ts : List Ty) : Ty.names ts = ts.map Ty.name := by
  induction ts with
  | nil => rfl
  | cons t ts ih => rw [names, ih, List.map_cons]

theorem Ty.max?_aligns (layout : DataLayout) (ts : List Ty) :
    (ts.map (Ty.align layout)).max?.getD 1 = Ty.widestAlign layout ts := by
  induction ts with
  | nil => rfl
  | cons t ts ih =>
    rw [List.map_cons, List.max?_cons, Ty.widestAlign, ← ih]
    cases (ts.map (Ty.align layout)).max? with
    | none => exact (Nat.max_eq_left (Strict.align_pos t)).symm
    | some a => rfl

namespace Layered
variable {ctx : Context} (hl : Layered ctx)

theorem kinds_typeTable {i : Nat} {t : Ty} (h : ctx.types.toList[i]? = some t) :
    ctx.typeTable.kinds[i]? = some (t.kind ctx.number) := by
  rw [Context.typeTable, getElem?_kinds, h, Option.map_some]

include hl

/-- What holds of a type as soon as it holds of its components holds of all types of the table. -/
theorem induct {P : Nat → Ty → Prop}
    (h : ∀ i t, ctx.types.toList[i]? = some t → (∀ c ∈ t.components, ctx.number c < i ∧ P (ctx.number c) c) → P i t) :
    ∀ i t, ctx.types.toList[i]? = some t → P i t := by
  intro i
  induction i using Nat.strongRecOn with
  | ind i ih =>
    intro t ht
    refine h i t ht fun c hc => ?_
    obtain ⟨hlt, hget⟩ := hl.number_component ht hc
    exact ⟨hlt, ih _ hlt c hget⟩

theorem name_eq : ∀ i t, ctx.types.toList[i]? = some t → ∀ depth, i < depth → ctx.typeTable.name depth i = some t.name := by
  refine hl.induct fun i t ht ih depth hd => ?_
  obtain ⟨depth, rfl⟩ := Nat.exists_eq_add_one_of_ne_zero (Nat.ne_zero_of_lt hd)
  have part (c : Ty) (hc : c ∈ t.components) : ctx.typeTable.name depth (ctx.number c) = some c.name :=
    (ih c hc).2 depth (by have := (ih c hc).1; omega)
  have along (ts : List Ty) (h : ∀ c ∈ ts, c ∈ t.components) :
      (ts.map ctx.number).mapM (ctx.typeTable.name depth) = some (Ty.names ts) := by
    rw [List.mapM_map, Ty.names_eq]
    exact Strict.mapM_eq fun c hc => part c (h c hc)
  rw [TypeTable.name, kinds_typeTable ht]
  cases t with
  | void | int | float => rfl
  | pointer p | array p =>
    have hp := part p (.head _)
    simp only [Ty.kind, hp, Ty.name, Option.pure_def, Option.bind_eq_bind, Option.bind_some]
  | struct fs =>
    have hfs := along fs fun _ h => h
    simp only [Ty.kind, hfs, Ty.name, Option.pure_def, Option.bind_eq_bind, Option.bind_some]
  | function r ps =>
    have hr := part r (.head _)
    have hps := along ps fun _ h => .tail _ h
    simp only [Ty.kind, hr, hps, Ty.name, Option.pure_def, Option.bind_eq_bind, Option.bind_some]

theorem shortName_eq :
    ∀ i t, ctx.types.toList[i]? = some t → ∀ depth, i < depth → ctx.typeTable.shortName depth i = some t.shortName := by
  refine hl.induct fun i t ht ih depth hd => ?_
  have hname := hl.name_eq i t ht depth hd
  obtain ⟨depth, rfl⟩ := Nat.exists_eq_add_one_of_ne_zero (Nat.ne_zero_of_lt hd)
  rw [TypeTable.shortName, kinds_typeTable ht]
  cases t with
  | pointer p =>
    obtain ⟨hlt, hp⟩ := ih p (.head _)
    have hp := hp depth (by omega)
    simp only [Ty.kind, hp, Ty.shortName, Option.pure_def, Option.bind_eq_bind, Option.bind_some]
  | _ => exact hname

end Layered

/-! ### Sizes of the types of a context -/

section
variable {table : TypeTable} {layout : DataLayout}

/-- The sizes and the alignment of a type of the table are found, and are those of the type. -/
structure Measures (table : TypeTable) (layout : DataLayout) (i : Nat) (t : Ty) : Prop where
  size : ∀ depth, 3 * i < depth → table.sizeInBits layout depth i = some (t.sizeInBits? layout)
  align : ∀ depth, 3 * i + 1 < depth → table.abiAlign layout depth i = some (t.align layout)

theorem Measures.allocSize {i : Nat} {t : Ty} (h : Measures table layout i t) {depth : Nat} (hd : 3 * i + 2 < depth) :
    table.allocSize layout depth i = some (t.allocSize? layout) := by
  obtain ⟨depth, rfl⟩ := Nat.exists_eq_add_one_of_ne_zero (Nat.ne_zero_of_lt hd)
  rw [TypeTable.allocSize, h.size depth (by omega), h.align depth (by omega), Ty.allocSize?]
  cases t.sizeInBits? layout with
  | none => rfl
  | some bits => simp only [Ty.paddedSize?, Option.pure_def, Option.bind_eq_bind, Option.bind_some]

theorem sized?_eq_some_of_lt {n : Nat} (h : n < Nat.pow 2 64) : sized? n = some n := if_pos h

theorem roundUp_one (n : Nat) : roundUp n 1 = n := by
  simp [roundUp, ceilDiv]

theorem lt_of_sized? {n m : Nat} (h : sized? n = some m) : m < Nat.pow 2 64 := by
  unfold sized? at h
  split at h
  · exact Option.some.inj h ▸ ‹_›
  · cases h

/-- Fields that are packed end where the sizes add up to, and the others at their alignments, the largest of which is
found on the way. -/
theorem fieldsEnd_eq {allocSize : Nat → Option (Option Nat)} {abiAlign : Nat → Option Nat} {number : Ty → Nat}
    (packed : Bool) {ts : List Ty} (hsize : ∀ t ∈ ts, allocSize (number t) = some (t.allocSize? layout))
    (halign : ∀ t ∈ ts, abiAlign (number t) = some (t.align layout)) {offset align : Nat} (hoffset : offset < Nat.pow 2 64)
    (hpos : 0 < align) :
    TypeTable.fieldsEnd allocSize abiAlign packed (ts.map number) offset align =
      some ((Ty.fieldsEnd? layout packed ts offset).map fun stop =>
        (stop, if packed then align else max align (Ty.widestAlign layout ts))) := by
  induction ts generalizing offset align with
  | nil =>
    have hmax : max align 1 = align := Nat.max_eq_left hpos
    rw [List.map_nil, TypeTable.fieldsEnd, Ty.fieldsEnd?, Ty.widestAlign, hmax, ite_self]
    rfl
  | cons t ts ih =>
    obtain ⟨ht, hsize⟩ := List.forall_mem_cons.mp hsize
    obtain ⟨ha, halign⟩ := List.forall_mem_cons.mp halign
    rw [List.map_cons, TypeTable.fieldsEnd, ht, ha, Ty.fieldsEnd?, Ty.allocSize?]
    cases t.sizeInBits? layout with
    | none => rfl
    | some bits =>
      simp only [Option.pure_def, Option.bind_eq_bind, Option.bind_some]
      cases Ty.paddedSize? bits (t.align layout) with
      | none => rfl
      | some size =>
        cases packed with
        | true =>
          simp only [Option.bind_some, if_true, roundUp_one, sized?_eq_some_of_lt hoffset]
          cases hstop : sized? (offset + size) with
          | none => rfl
          | some stop =>
            have hrest := ih hsize halign (lt_of_sized? hstop) hpos
            simpa using hrest
        | false =>
          have hnext : 0 < max align (t.align layout) := Nat.lt_of_lt_of_le hpos (Nat.le_max_left _ _)
          simp only [Option.bind_some, Bool.false_eq_true, if_false, TypeTable.fieldEnd?, Option.bind_eq_bind]
          cases sized? (roundUp offset (t.align layout)) with
          | none => rfl
          | some start =>
            simp only [Option.bind_some]
            cases hstop : sized? (start + size) with
            | none => rfl
            | some stop =>
              have hrest := ih hsize halign (lt_of_sized? hstop) hnext
              simpa [Ty.widestAlign, Nat.max_assoc] using hrest

end

namespace Layered
variable {ctx : Context} {layout : DataLayout} (hl : Layered ctx) (hp : layout.pointerBits < Nat.pow 2 32)
  (hn : ∀ t, ctx.HasType t → t.Narrow)
include hl hp hn

theorem measures : ∀ i t, ctx.types.toList[i]? = some t → Measures ctx.typeTable layout i t := by
  refine hl.induct fun i t ht ih => ?_
  have hk := kinds_typeTable ht
  have scalar {bits : Nat} (h : bits < Nat.pow 2 32) : sized? bits = some bits :=
    sized?_eq_some_of_lt (Nat.lt_trans h (by decide))
  have hint {bits : Nat} (h : t = .int bits) : bits < Nat.pow 2 32 :=
    hn t (List.mem_of_getElem? ht) bits (by rw [h]; rfl)
  have hfloat (f : FloatFormat) : f.bits < Nat.pow 2 32 := by cases f <;> decide
  have psize {depth : Nat} (hd : 3 * i ≤ depth) (c : Ty) (hc : c ∈ t.components) :
      ctx.typeTable.allocSize layout depth (ctx.number c) = some (c.allocSize? layout) := by
    obtain ⟨hlt, hm⟩ := ih c hc
    exact hm.allocSize (by omega)
  have palign {depth : Nat} (hd : 3 * i ≤ depth) (c : Ty) (hc : c ∈ t.components) :
      ctx.typeTable.abiAlign layout depth (ctx.number c) = some (c.align layout) := by
    obtain ⟨hlt, hm⟩ := ih c hc
    exact hm.align depth (by omega)
  have hsize (depth : Nat) (hd : 3 * i < depth) : ctx.typeTable.sizeInBits layout depth i = some (t.sizeInBits? layout) := by
    obtain ⟨depth, rfl⟩ := Nat.exists_eq_add_one_of_ne_zero (Nat.ne_zero_of_lt hd)
    have hd : 3 * i ≤ depth := Nat.le_of_lt_succ hd
    rw [TypeTable.sizeInBits, hk]
    cases t with
    | void | function => rfl
    | int bits => rw [Ty.sizeInBits?, scalar (hint rfl)]; rfl
    | float f => rw [Ty.sizeInBits?, scalar (hfloat f)]; rfl
    | pointer => rw [Ty.sizeInBits?, scalar hp]; rfl
    | array e length =>
      have he := psize hd e (.head _)
      rw [Ty.sizeInBits?]
      simp only [Ty.kind, he, Ty.allocSize?, Option.pure_def, Option.bind_eq_bind, Option.bind_some]
      cases e.sizeInBits? layout with
      | none => rfl
      | some bits => cases hpadded : Ty.paddedSize? bits (e.align layout) <;> simp [hpadded]
    | struct fs packed =>
      have hend := fieldsEnd_eq packed (psize hd) (palign hd) (Nat.two_pow_pos 64) Nat.one_pos
      have hone : max 1 (Ty.widestAlign layout fs) = Ty.widestAlign layout fs :=
        Nat.max_eq_right (Strict.widestAlign_pos fs)
      rw [Ty.components, hone] at hend
      rw [Ty.sizeInBits?]
      simp only [Ty.kind, hend, Option.pure_def, Option.bind_eq_bind, Option.bind_some]
      cases Ty.fieldsEnd? layout packed fs 0 <;> rfl
  refine ⟨hsize, fun depth hd => ?_⟩
  obtain ⟨depth, rfl⟩ := Nat.exists_eq_add_one_of_ne_zero (Nat.ne_zero_of_lt hd)
  have hd : 3 * i < depth := Nat.lt_of_succ_lt_succ hd
  have hsize := hsize depth hd
  rw [TypeTable.abiAlign, hk]
  cases t with
  | void | function => simp only [Ty.kind, hsize]; rfl
  | int bits => simp only [Ty.kind, hsize, Ty.sizeInBits?, scalar (hint rfl)]; rfl
  | float f => simp only [Ty.kind, hsize, Ty.sizeInBits?, scalar (hfloat f)]; rfl
  | pointer => simp only [Ty.kind, hsize, Ty.sizeInBits?, scalar hp]; rfl
  | array e length => exact palign (Nat.le_of_lt hd) e (.head _)
  | struct fs packed =>
    cases packed with
    | true => rfl
    | false =>
      have hfs : (fs.map ctx.number).mapM (ctx.typeTable.abiAlign layout depth) = some (fs.map (Ty.align layout)) := by
        rw [List.mapM_map]
        exact Strict.mapM_eq (palign (Nat.le_of_lt hd))
      simp only [Ty.kind, hfs, Bool.false_eq_true, if_false, Option.pure_def, Option.bind_eq_bind, Option.bind_some,
        Ty.max?_aligns, Ty.align]

end Layered
end StackAssembler.IR

namespace StackAssembler.Build
open IR

theorem Reachable.layered {m : Machine} (h : Reachable m) : Layered m.context := by
  obtain ⟨layout, hl⟩ := h.leads
  exact (Layered.empty layout).evolve hl.evolves

/-- Numbers of types are the same if and only if the kinds are. To enter a kind whose parts are known finds its number
and changes nothing, or adds it as the last one. The table only grows, and each kind is made of types with smaller
numbers. So the spellings, sizes and alignments that are found by following numbers are found, and are those of the
types. -/
theorem Reachable.canonical_types {m : Machine} (h : Reachable m) :
    (∀ (i j : Nat) (k l : TypeKind), m.context.kinds[i]? = some k → m.context.kinds[j]? = some l → (i = j ↔ k = l)) ∧
    (∀ (i : Nat) (k : TypeKind), m.context.typeTable.index.lookup k = some i ↔ m.context.kinds[i]? = some k) ∧
    (∀ k : TypeKind, (∀ p ∈ k.parts, p < m.context.kinds.length) →
      m.context.typeTable.intern k = ((m.context.intern (k.assemble m.context.typeAt)).number (k.assemble m.context.typeAt),
        (m.context.intern (k.assemble m.context.typeAt)).typeTable) ∧
      (∀ i : Nat, m.context.kinds[i]? = some k → m.context.typeTable.intern k = (i, m.context.typeTable)) ∧
      (k ∉ m.context.kinds → (m.context.typeTable.intern k).1 = m.context.kinds.length ∧
        (m.context.typeTable.intern k).2.kinds = m.context.kinds ++ [k])) ∧
    (∀ m', Session m m' → m.context.kinds <+: m'.context.kinds) ∧
    (∀ (i : Nat) (k : TypeKind), m.context.kinds[i]? = some k → ∀ p ∈ k.parts, p < i) ∧
    (∀ (i : Nat) (t : Ty), m.context.types.toList[i]? = some t → ∀ depth, i < depth →
      m.context.typeTable.name depth i = some t.name ∧ m.context.typeTable.shortName depth i = some t.shortName) ∧
    ∀ layout : DataLayout, layout.pointerBits < Nat.pow 2 32 → (∀ t, m.context.HasType t → t.Narrow) →
      ∀ (i : Nat) (t : Ty), m.context.types.toList[i]? = some t → ∀ depth, 3 * (i + 1) ≤ depth →
        m.context.typeTable.sizeInBits layout depth i = some (t.sizeInBits? layout) ∧
        m.context.typeTable.allocSize layout depth i = some (t.allocSize? layout) ∧
        m.context.typeTable.abiAlign layout depth i = some (t.align layout) := by
  have hl := h.layered
  refine ⟨fun i j k l hk hl' => ⟨?_, ?_⟩, fun i k => hl.lookup_index_iff, fun k hk => ⟨?_, ?_, ?_⟩,
    fun m' later => hl.kinds_prefix (h.keeps later).types, fun i k => hl.part_lt,
    fun i t ht depth hd => ⟨hl.name_eq i t ht depth hd, hl.shortName_eq i t ht depth hd⟩,
    fun layout hp hn i t ht depth hd => ?_⟩
  · rintro rfl
    exact Option.some.inj (hk.symm.trans hl')
  · rintro rfl
    exact Option.some.inj ((hl.lookup_index hk).symm.trans (hl.lookup_index hl'))
  · exact hl.intern_typeTable (by simpa [Context.kinds] using hk)
  · exact fun i hi => TypeTable.intern_of_some (hl.lookup_index hi)
  · intro hnew
    rw [TypeTable.intern_of_none (Layered.lookup_index_eq_none hnew)]
    exact ⟨rfl, rfl⟩
  · have hm := hl.measures hp hn i t ht
    exact ⟨hm.size depth (by omega), hm.allocSize (by omega), hm.align depth (by omega)⟩

/-- The pointer to the function's type is there, and a structure of it and two numbers is not. -/
theorem Reachable.canonical_types_double :
    Machine.double.context.typeTable.intern (.pointer 1 0) = (2, Machine.double.context.typeTable) ∧
    (Machine.double.context.typeTable.intern (.struct [0, 2, 0] false)).1 = 5 ∧
    (Machine.double.context.typeTable.shortName 3 2 = some "i32 (i32)p") ∧
    Machine.double.context.typeTable.allocSize {} 9 2 = some (some 8) := by
  obtain ⟨_, _, hintern, _, _, hnames, hsizes⟩ := Reachable.double.canonical_types
  have htype : Machine.double.context.types.toList[2]? = some (.pointer (.function (.int 32) [.int 32] false) 0) := by
    decide +kernel
  have hnarrow : ∀ t, Machine.double.context.HasType t → t.Narrow := by
    have hwidths : ∀ t ∈ Machine.double.context.types.toList, ∀ width ∈ t.width?, width < Nat.pow 2 32 := by
      decide +kernel
    exact hwidths
  refine ⟨(hintern _ (by decide +kernel)).2.1 2 (by decide +kernel), ?_, ?_, ?_⟩
  · exact ((hintern (.struct [0, 2, 0] false) (by decide +kernel)).2.2 (by decide +kernel)).1
  · exact (hnames 2 _ htype 3 (by decide)).2
  · exact (hsizes {} (by decide) hnarrow 2 _ htype 9 (by decide)).2.1

end StackAssembler.Build
