import Mathlib.Data.List.Chain
import Mathlib.Order.Bounds.Defs
import StackAssembler.Proofs.ExactSizes

/-! Where the fields of a structure stand. Alignments are powers of two, so that each of them divides the larger ones. A
layout gives each field the first place that its alignment allows, and no other places need less room. -/
namespace StackAssembler.IR

/-- A field that starts at an offset ends at a limit, or before it. -/
def EndsBy (layout : DataLayout) (p : Ty × Nat) (limit : Nat) : Prop :=
  ∃ size ∈ p.1.allocSize? layout, p.2 + size ≤ limit

/-- Fields with their offsets, in order, in a structure of so many bytes. -/
structure Arranged (layout : DataLayout) (fields : List (Ty × Nat)) (total : Nat) : Prop where
  aligned : ∀ p ∈ fields, p.1.align layout ∣ p.2
  apart : fields.IsChain fun p q => EndsBy layout p q.2
  inside : ∀ p ∈ fields.getLast?, EndsBy layout p total
  padded : ∀ p ∈ fields, p.1.align layout ∣ total

/-- The same from the first field to the last: each stands behind what is there already, and all end at a limit. -/
inductive Row (layout : DataLayout) (limit : Nat) : Nat → List (Ty × Nat) → Prop where
  | nil {offset : Nat} : offset ≤ limit → Row layout limit offset []
  | cons {offset start size : Nat} {t : Ty} {fields : List (Ty × Nat)} : offset ≤ start → t.align layout ∣ start →
      t.allocSize? layout = some size → Row layout limit (start + size) fields →
      Row layout limit offset ((t, start) :: fields)

variable {layout : DataLayout}

/-! ### Alignments -/

theorem dvd_of_powers {a b : Nat} (ha : a.isPowerOfTwo) (hb : b.isPowerOfTwo) (h : a ≤ b) : a ∣ b := by
  obtain ⟨i, rfl⟩ := ha
  obtain ⟨j, rfl⟩ := hb
  exact Nat.pow_dvd_pow 2 ((Nat.pow_le_pow_iff_right Nat.one_lt_two).mp h)

theorem scalarAlign_power (hm : layout.maxAlign.isPowerOfTwo) (bits : Nat) : (Ty.scalarAlign layout bits).isPowerOfTwo := by
  rw [Ty.scalarAlign, Exact.powerOfTwoAbove_eq]
  rcases min_choice (2 ^ Nat.clog 2 (ceilDiv bits 8)) layout.maxAlign with h | h
  · exact ⟨_, h⟩
  · rw [h]
    exact hm

mutual

theorem align_power (hm : layout.maxAlign.isPowerOfTwo) : (t : Ty) → (t.align layout).isPowerOfTwo
  | .void | .function .. => ⟨0, rfl⟩
  | .int _ | .float _ | .pointer .. => scalarAlign_power hm _
  | .array e _ => align_power hm e
  | .struct fs packed => by
    rw [Ty.align]
    split
    · exact ⟨0, rfl⟩
    · exact widestAlign_power hm fs

theorem widestAlign_power (hm : layout.maxAlign.isPowerOfTwo) :
    (ts : List Ty) → (Ty.widestAlign layout ts).isPowerOfTwo
  | [] => ⟨0, rfl⟩
  | t :: ts => by
    rcases max_choice (t.align layout) (Ty.widestAlign layout ts) with h | h
    · rw [Ty.widestAlign, h]
      exact align_power hm t
    · rw [Ty.widestAlign, h]
      exact widestAlign_power hm ts

end

mutual

theorem align_le_maxAlign : (t : Ty) → t.align layout ≤ layout.maxAlign
  | .void | .function .. => layout.maxAlign_pos
  | .int _ | .float _ | .pointer .. => Nat.min_le_right _ _
  | .array e _ => align_le_maxAlign e
  | .struct fs packed => by
    rw [Ty.align]
    split
    · exact layout.maxAlign_pos
    · exact widestAlign_le_maxAlign fs

theorem widestAlign_le_maxAlign : (ts : List Ty) → Ty.widestAlign layout ts ≤ layout.maxAlign
  | [] => layout.maxAlign_pos
  | t :: ts => Nat.max_le.mpr ⟨align_le_maxAlign t, widestAlign_le_maxAlign ts⟩

end

theorem align_le_widestAlign {t : Ty} {ts : List Ty} (h : t ∈ ts) : t.align layout ≤ Ty.widestAlign layout ts := by
  induction ts with
  | nil => cases h
  | cons u ts ih =>
    rw [Ty.widestAlign]
    rcases List.mem_cons.mp h with rfl | h
    · exact Nat.le_max_left _ _
    · exact (ih h).trans (Nat.le_max_right _ _)

/-- The largest alignment is the one of a field, so a multiple of all alignments is a multiple of it. -/
theorem widestAlign_dvd {ts : List Ty} {total : Nat} (h : ∀ t ∈ ts, t.align layout ∣ total) :
    Ty.widestAlign layout ts ∣ total := by
  induction ts with
  | nil => exact Nat.one_dvd total
  | cons t ts ih =>
    obtain ⟨ht, hts⟩ := List.forall_mem_cons.mp h
    rcases max_choice (t.align layout) (Ty.widestAlign layout ts) with he | he
    · rw [Ty.widestAlign, he]
      exact ht
    · rw [Ty.widestAlign, he]
      exact ih hts

/-! ### Sizes with their padding -/

theorem allocSize?_of_bits {t : Ty} {n : Nat} (hn : t.sizeInBits? layout = some n) :
    t.allocSize? layout = sized? (Exact.padded n (t.align layout)) := by
  rw [Ty.allocSize?, hn, Exact.align_eq]
  exact Exact.paddedSize?_eq n t

theorem sizeInBits?_struct {fs : List Ty} {packed : Bool} {n : Nat} :
    (Ty.struct fs packed).sizeInBits? layout = some n ↔
      ∃ stop, Ty.fieldsEnd? layout packed fs 0 = some stop ∧ n < 2 ^ 64 ∧
        n = Exact.next stop (if packed then 1 else Ty.widestAlign layout fs) * 8 := by
  have hwidest : 0 < Ty.widestAlign layout fs := Strict.widestAlign_pos fs
  have hpos := Strict.unlessPacked_pos packed hwidest
  rw [Ty.sizeInBits?]
  simp only [Option.bind_eq_bind, Option.bind_eq_some_iff, Exact.sized?_eq_some_iff, Exact.roundUp_eq_next _ hpos]
  constructor
  · rintro ⟨stop, hstop, _, ⟨_, rfl⟩, hlt, rfl⟩
    exact ⟨stop, hstop, hlt, rfl⟩
  · rintro ⟨stop, hstop, hlt, rfl⟩
    exact ⟨stop, hstop, _, ⟨by omega, rfl⟩, hlt, rfl⟩

/-- An aggregate takes up whole bytes, as many as its alignment divides. -/
theorem bytes_of_aggregate {t : Ty} (h : t.isAggregate) {n : Nat} (hn : t.sizeInBits? layout = some n) :
    ∃ size, n = size * 8 ∧ t.align layout ∣ size ∧ n < 2 ^ 64 := by
  cases t with
  | array e length =>
    simp only [Ty.sizeInBits?, Option.bind_eq_bind, Option.bind_eq_some_iff, Exact.align_eq, Exact.paddedSize?_eq,
      Exact.sized?_eq_some_iff] at hn
    obtain ⟨bits, _, _, ⟨_, rfl⟩, _, ⟨_, rfl⟩, hlt, rfl⟩ := hn
    refine ⟨Exact.padded bits (Exact.align layout e) * length, Nat.mul_right_comm _ _ _, ?_, hlt⟩
    rw [Ty.align, Exact.align_eq]
    exact (Exact.dvd_next _ _).mul_right length
  | struct fs packed =>
    obtain ⟨stop, _, hlt, rfl⟩ := sizeInBits?_struct.mp hn
    exact ⟨_, rfl, Exact.dvd_next _ _, hlt⟩
  | _ => cases h

/-- What has a size has one with its padding. -/
theorem exists_allocSize {t : Ty} {n : Nat} (hn : t.sizeInBits? layout = some n) :
    ∃ size, t.allocSize? layout = some size ∧ t.align layout ∣ size ∧ ceilDiv n 8 ≤ size := by
  have hpos : 0 < t.align layout := Strict.align_pos t
  have found (hlt : Exact.padded n (t.align layout) < 2 ^ 64) : ∃ size, t.allocSize? layout = some size ∧
      t.align layout ∣ size ∧ ceilDiv n 8 ≤ size := by
    refine ⟨_, ?_, Exact.dvd_next _ _, (Exact.ceilDiv_eq n (by decide)).trans_le (Exact.le_next _ hpos)⟩
    rw [allocSize?_of_bits hn, Exact.sized?_eq_some_iff]
    exact ⟨hlt, rfl⟩
  have scalar (bits : Nat) (hs : sized? bits = some n) (ha : t.align layout = Ty.scalarAlign layout bits) :
      Exact.padded n (t.align layout) < 2 ^ 64 := by
    obtain ⟨hlt, rfl⟩ := Exact.sized?_eq_some_iff.mp hs
    have hbytes : Exact.padded n (Exact.scalarAlign layout n) < 2 * 2 ^ 61 := Exact.scalar_bytes_lt_pow (by omega)
    rw [ha, Exact.scalarAlign_eq]
    omega
  have aggregate (h : t.isAggregate) : Exact.padded n (t.align layout) < 2 ^ 64 := by
    obtain ⟨size, rfl, hd, hlt⟩ := bytes_of_aggregate h hn
    rw [Exact.padded_of_dvd hpos hd]
    omega
  apply found
  cases t with
  | void | function => cases hn
  | int bits | float f | pointer => exact scalar _ hn rfl
  | array | struct => exact aggregate rfl

theorem fieldsEnd?_cons {packed : Bool} {t : Ty} {ts : List Ty} {offset stop : Nat} :
    Ty.fieldsEnd? layout packed (t :: ts) offset = some stop ↔
      ∃ size, t.allocSize? layout = some size ∧
        Exact.next offset (if packed then 1 else t.align layout) + size < 2 ^ 64 ∧
        Ty.fieldsEnd? layout packed ts (Exact.next offset (if packed then 1 else t.align layout) + size) =
          some stop := by
  have halign : 0 < t.align layout := Strict.align_pos t
  have hpos := Strict.unlessPacked_pos packed halign
  rw [Ty.fieldsEnd?, Ty.allocSize?]
  simp only [Option.bind_eq_bind, Option.bind_eq_some_iff, Exact.sized?_eq_some_iff, Exact.roundUp_eq_next _ hpos]
  constructor
  · rintro ⟨bits, hbits, size, hsize, _, ⟨_, rfl⟩, _, ⟨hlt, rfl⟩, hrest⟩
    exact ⟨size, ⟨bits, hbits, hsize⟩, hlt, hrest⟩
  · rintro ⟨size, ⟨bits, hbits, hsize⟩, hlt, hrest⟩
    exact ⟨bits, hbits, size, hsize, _, ⟨by omega, rfl⟩, _, ⟨hlt, rfl⟩, hrest⟩

/-! ### Rows of fields -/

namespace Row
variable {limit offset : Nat} {fields : List (Ty × Nat)}

theorem offset_le (h : Row layout limit offset fields) : ∀ p ∈ fields.head?, offset ≤ p.2 := by
  cases h with
  | nil => exact nofun
  | cons ho =>
    rintro _ ⟨⟩
    exact ho

theorem le_limit (h : Row layout limit offset fields) : offset ≤ limit := by
  induction h with
  | nil hl => exact hl
  | cons ho _ _ _ ih => omega

theorem mono {limit' : Nat} (h : Row layout limit offset fields) (hl : limit ≤ limit') :
    Row layout limit' offset fields := by
  induction h with
  | nil ho => exact .nil (ho.trans hl)
  | cons ho ha hs _ ih => exact .cons ho ha hs ih

theorem arranged (h : Row layout limit offset fields) (hp : ∀ p ∈ fields, p.1.align layout ∣ limit) :
    Arranged layout fields limit := by
  induction h with
  | nil => exact ⟨nofun, .nil, nofun, nofun⟩
  | @cons offset start size t fields ho ha hs hrest ih =>
    have rest := ih (List.forall_mem_cons.mp hp).2
    refine ⟨List.forall_mem_cons.mpr ⟨ha, rest.aligned⟩, ?_, ?_, hp⟩
    · exact rest.apart.cons fun q hq => ⟨size, hs, hrest.offset_le q hq⟩
    · cases fields with
      | nil =>
        rintro _ ⟨⟩
        exact ⟨size, hs, hrest.le_limit⟩
      | cons q fields =>
        rw [List.getLast?_cons_cons]
        exact rest.inside

end Row

theorem Arranged.tail {p : Ty × Nat} {fields : List (Ty × Nat)} {total : Nat}
    (h : Arranged layout (p :: fields) total) : Arranged layout fields total where
  aligned := (List.forall_mem_cons.mp h.aligned).2
  apart := (List.isChain_cons.mp h.apart).2
  inside := by
    cases fields with
    | nil => exact nofun
    | cons q fields => exact h.inside
  padded := (List.forall_mem_cons.mp h.padded).2

theorem Arranged.row {fields : List (Ty × Nat)} {total offset : Nat} (h : Arranged layout fields total)
    (ho : ∀ p ∈ fields.head?, offset ≤ p.2) (hl : fields = [] → offset ≤ total) : Row layout total offset fields := by
  induction fields generalizing offset with
  | nil => exact .nil (hl rfl)
  | cons p fields ih =>
    have ha := h.aligned p (.head _)
    cases fields with
    | nil =>
      obtain ⟨size, hs, hend⟩ := h.inside p rfl
      exact .cons (ho p rfl) ha hs (ih h.tail nofun fun _ => hend)
    | cons q fields =>
      obtain ⟨⟨size, hs, hend⟩, _⟩ := List.isChain_cons_cons.mp h.apart
      refine .cons (ho p rfl) ha hs (ih h.tail ?_ nofun)
      rintro _ ⟨⟩
      exact hend

/-- Fields stay at multiples of their alignments in each element of an array of structures. -/
theorem Arranged.aligned_in_array {fields : List (Ty × Nat)} {total : Nat} (h : Arranged layout fields total)
    {p : Ty × Nat} (hp : p ∈ fields) (k : Nat) : p.1.align layout ∣ k * total + p.2 :=
  Nat.dvd_add ((h.padded p hp).mul_left k) (h.aligned p hp)

/-- The places that a layout gives to fields. -/
theorem exists_row {ts : List Ty} {offset stop : Nat} (h : Ty.fieldsEnd? layout false ts offset = some stop) :
    ∃ fields, fields.map Prod.fst = ts ∧ Row layout stop offset fields := by
  induction ts generalizing offset with
  | nil =>
    cases h
    exact ⟨[], rfl, .nil (Nat.le_refl _)⟩
  | cons t ts ih =>
    obtain ⟨size, hs, _, hrest⟩ := fieldsEnd?_cons.mp h
    obtain ⟨fields, rfl, hrow⟩ := ih hrest
    have hpos : 0 < t.align layout := Strict.align_pos t
    exact ⟨(t, _) :: fields, rfl, .cons (Exact.le_next offset hpos) (Exact.dvd_next _ _) hs hrow⟩

/-- No row ends before the one of the layout does. -/
theorem Row.stop_le {limit offset offset' stop : Nat} {fields : List (Ty × Nat)} (h : Row layout limit offset fields)
    (ho : offset' ≤ offset) (hs : Ty.fieldsEnd? layout false (fields.map Prod.fst) offset' = some stop) :
    stop ≤ limit := by
  induction h generalizing offset' with
  | nil hl =>
    cases hs
    exact ho.trans hl
  | @cons offset start size t fields hstart ha hsize _ ih =>
    obtain ⟨size', hsize', _, hrest⟩ := fieldsEnd?_cons.mp hs
    obtain rfl : size = size' := Option.some.inj (hsize.symm.trans hsize')
    have hnext : Exact.next offset' (t.align layout) ≤ start :=
      Exact.next_le (Strict.align_pos t) (ho.trans hstart) ha
    exact ih (Nat.add_le_add_right hnext size) hrest

/-! ### Packed fields -/

/-- Packed fields stand one right behind another. -/
theorem fieldsEnd?_packed {ts : List Ty} {offset stop : Nat} (h : Ty.fieldsEnd? layout true ts offset = some stop) :
    ∃ sizes, ts.mapM (Ty.allocSize? layout) = some sizes ∧ stop = offset + sizes.sum := by
  induction ts generalizing offset with
  | nil =>
    cases h
    exact ⟨[], rfl, rfl⟩
  | cons t ts ih =>
    obtain ⟨size, hs, _, hrest⟩ := fieldsEnd?_cons.mp h
    obtain ⟨sizes, hsizes, rfl⟩ := ih hrest
    refine ⟨size :: sizes, ?_, ?_⟩
    · rw [List.mapM_cons, hs, hsizes]
      rfl
    · rw [if_pos rfl, Exact.next_of_dvd Nat.one_pos (Nat.one_dvd offset), List.sum_cons, Nat.add_assoc]

/-- They end no later than fields with padding between them. -/
theorem fieldsEnd?_packed_le {ts : List Ty} {offset offset' stop : Nat}
    (h : Ty.fieldsEnd? layout false ts offset = some stop) (ho : offset' ≤ offset) :
    ∃ stop' ≤ stop, Ty.fieldsEnd? layout true ts offset' = some stop' := by
  induction ts generalizing offset offset' with
  | nil =>
    cases h
    exact ⟨offset', ho, rfl⟩
  | cons t ts ih =>
    obtain ⟨size, hs, hlt, hrest⟩ := fieldsEnd?_cons.mp h
    have hnext : Exact.next offset' 1 ≤ Exact.next offset (t.align layout) := by
      rw [Exact.next_of_dvd Nat.one_pos (Nat.one_dvd offset')]
      exact ho.trans (Exact.le_next offset (Strict.align_pos t))
    obtain ⟨stop', hle, hrest'⟩ := ih hrest (Nat.add_le_add_right hnext size)
    exact ⟨stop', hle, fieldsEnd?_cons.mpr ⟨size, hs, lt_of_le_of_lt (Nat.add_le_add_right hnext size) hlt, hrest'⟩⟩

/-! ### Structures -/

/-- An aggregate needs no padding besides the one that it has. -/
theorem allocSize?_of_aggregate {t : Ty} (h : t.isAggregate) {size : Nat}
    (hn : t.sizeInBits? layout = some (size * 8)) : t.allocSize? layout = some size := by
  obtain ⟨size', hsize, hd, hlt⟩ := bytes_of_aggregate h hn
  obtain rfl : size = size' := by omega
  rw [allocSize?_of_bits hn, Exact.padded_of_dvd (Strict.align_pos t) hd, Exact.sized?_eq_some_iff]
  exact ⟨by omega, rfl⟩

/-- The size of a structure is the least one in which its fields can be arranged. -/
theorem size_isLeast (hm : layout.maxAlign.isPowerOfTwo) {fs : List Ty} {n : Nat}
    (hn : (Ty.struct fs false).sizeInBits? layout = some n) :
    ∃ size, n = size * 8 ∧
      IsLeast {total | ∃ fields, fields.map Prod.fst = fs ∧ Arranged layout fields total} size := by
  obtain ⟨stop, hs, _, rfl⟩ := sizeInBits?_struct.mp hn
  have hpos : 0 < Ty.widestAlign layout fs := Strict.widestAlign_pos fs
  refine ⟨_, rfl, ?_, ?_⟩
  · obtain ⟨fields, rfl, hrow⟩ := exists_row hs
    refine ⟨fields, rfl, (hrow.mono (Exact.le_next stop hpos)).arranged ?_⟩
    intro p hp
    have hin : p.1 ∈ fields.map Prod.fst := List.mem_map_of_mem hp
    -- All alignments are powers of two, and so each of them divides the largest one.
    exact (dvd_of_powers (align_power hm p.1) (widestAlign_power hm _) (align_le_widestAlign hin)).trans
      (Exact.dvd_next stop _)
  · rintro total ⟨fields, rfl, harranged⟩
    have hrow : Row layout total 0 fields := harranged.row (fun p _ => Nat.zero_le p.2) fun _ => Nat.zero_le total
    have hd : Ty.widestAlign layout (fields.map Prod.fst) ∣ total :=
      widestAlign_dvd (List.forall_mem_map.mpr harranged.padded)
    exact Exact.next_le hpos (hrow.stop_le (Nat.le_refl 0) hs) hd

/-- A packed structure is as large as its fields are together. -/
theorem packed_sum {fs : List Ty} {n : Nat} (hn : (Ty.struct fs true).sizeInBits? layout = some n) :
    ∃ sizes, fs.mapM (Ty.allocSize? layout) = some sizes ∧ n = sizes.sum * 8 := by
  obtain ⟨stop, hs, _, rfl⟩ := sizeInBits?_struct.mp hn
  obtain ⟨sizes, hsizes, rfl⟩ := fieldsEnd?_packed hs
  refine ⟨sizes, hsizes, ?_⟩
  rw [if_pos rfl, Exact.next_of_dvd Nat.one_pos (Nat.one_dvd _), Nat.zero_add]

/-- What has a size with padding between its fields has one without, which is no larger. -/
theorem packed_le {fs : List Ty} {n : Nat} (hn : (Ty.struct fs false).sizeInBits? layout = some n) :
    ∃ k ≤ n, (Ty.struct fs true).sizeInBits? layout = some k := by
  obtain ⟨stop, hs, hlt, rfl⟩ := sizeInBits?_struct.mp hn
  obtain ⟨stop', hle, hs'⟩ := fieldsEnd?_packed_le hs (Nat.le_refl 0)
  have hstop : stop ≤ Exact.next stop (Ty.widestAlign layout fs) := Exact.le_next stop (Strict.widestAlign_pos fs)
  have hbits : Exact.next stop' 1 * 8 ≤ Exact.next stop (Ty.widestAlign layout fs) * 8 := by
    rw [Exact.next_of_dvd Nat.one_pos (Nat.one_dvd stop')]
    exact Nat.mul_le_mul_right 8 (hle.trans hstop)
  exact ⟨_, hbits, sizeInBits?_struct.mpr ⟨stop', hs', lt_of_le_of_lt hbits hlt, rfl⟩⟩

/-- The alignment of what has a size is a power of two within the bounds, and the bytes that it occupies are a multiple
of it. A structure has the least size in which its fields can be arranged, and they stay arranged in any array. Packed
fields take up the sum of their sizes, which is no more than what they take up with padding. -/
theorem Ty.layout_least {layout : DataLayout} (hm : layout.maxAlign.isPowerOfTwo) {t : Ty} {n : Nat}
    (hn : t.sizeInBits? layout = some n) :
    (t.align layout).isPowerOfTwo ∧ 1 ≤ t.align layout ∧ t.align layout ≤ layout.maxAlign ∧
    (∃ size, t.allocSize? layout = some size ∧ t.align layout ∣ size ∧ ceilDiv n 8 ≤ size) ∧
    (∀ fs, t = .struct fs false →
      (∃ size, n = size * 8 ∧ t.allocSize? layout = some size ∧
        IsLeast {total | ∃ fields, fields.map Prod.fst = fs ∧ Arranged layout fields total} size ∧
        ∀ fields, fields.map Prod.fst = fs → Arranged layout fields size →
          ∀ p ∈ fields, ∀ k, p.1.align layout ∣ k * size + p.2) ∧
      ∃ k ≤ n, (Ty.struct fs true).sizeInBits? layout = some k) ∧
    ∀ fs, t = .struct fs true →
      (∃ sizes, fs.mapM (Ty.allocSize? layout) = some sizes ∧ n = sizes.sum * 8 ∧
        t.allocSize? layout = some sizes.sum) ∧
      ∀ k, (Ty.struct fs false).sizeInBits? layout = some k → n ≤ k := by
  refine ⟨align_power hm t, Strict.align_pos t, align_le_maxAlign t, exists_allocSize hn, ?_, ?_⟩
  · rintro fs rfl
    obtain ⟨size, rfl, hleast⟩ := size_isLeast hm hn
    refine ⟨⟨size, rfl, allocSize?_of_aggregate rfl hn, hleast, ?_⟩, packed_le hn⟩
    intro fields _ harranged p hp k
    exact harranged.aligned_in_array hp k
  · rintro fs rfl
    obtain ⟨sizes, hsizes, rfl⟩ := packed_sum hn
    refine ⟨⟨sizes, hsizes, rfl, allocSize?_of_aggregate rfl hn⟩, ?_⟩
    intro k hk
    obtain ⟨n, hle, hn'⟩ := packed_le hk
    obtain rfl : sizes.sum * 8 = n := Option.some.inj (hn.symm.trans hn')
    exact hle

/-- A byte, a structure with padding in it and three bytes, with padding between them and behind, and without. -/
theorem Ty.layout_least_nested :
    let fs : List Ty := [.int 8, .struct [.int 16, .int 64] false, .array (.int 8) 3]
    IsLeast {total | ∃ fields, fields.map Prod.fst = fs ∧ Arranged {} fields total} 32 ∧
      (Ty.struct fs false).align {} ∣ 32 ∧ (Ty.struct fs true).sizeInBits? {} = some ((1 + 16 + 3) * 8) := by
  intro fs
  have hm : ({} : DataLayout).maxAlign.isPowerOfTwo := ⟨3, rfl⟩
  have hn : (Ty.struct fs false).sizeInBits? {} = some (32 * 8) := by decide +kernel
  obtain ⟨_, _, _, ⟨size, hsize, hd, _⟩, hstruct, _⟩ := Ty.layout_least hm hn
  obtain ⟨⟨size', hbytes, hsize', hleast, _⟩, _⟩ := hstruct fs rfl
  obtain rfl : size = size' := Option.some.inj (hsize.symm.trans hsize')
  obtain rfl : 32 = size := by omega
  exact ⟨hleast, hd, by decide +kernel⟩

end StackAssembler.IR
