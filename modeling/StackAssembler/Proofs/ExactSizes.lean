import Mathlib.Algebra.Order.Floor.Div
import Mathlib.Data.Nat.Log
import StackAssembler.Proofs.StrictArithmetic

/-! The sizes of types by the rules of a layout, however large they are, and which of them are found in 64 bits. -/
namespace StackAssembler.IR

namespace Ty

mutual

/-- A type and the elements and fields in it, directly or not. What a pointer points to is not in it. -/
def inside : Ty → List Ty
  | array e length => array e length :: e.inside
  | struct fs packed => struct fs packed :: insideOf fs
  | t => [t]

def insideOf : List Ty → List Ty
  | [] => []
  | t :: ts => t.inside ++ insideOf ts

end

def isAggregate : Ty → Bool
  | array .. | struct .. => true
  | _ => false

theorem mem_insideOf {p : Ty} {ts : List Ty} : p ∈ insideOf ts ↔ ∃ t ∈ ts, p ∈ t.inside := by
  induction ts with
  | nil => simp [insideOf]
  | cons t ts ih => simp [insideOf, ih]

theorem mem_inside (t : Ty) : t ∈ t.inside := by
  cases t <;> exact .head _

theorem mem_parts (t : Ty) : t ∈ t.parts := by
  cases t <;> exact .head _

mutual

theorem inside_subset_parts : (t : Ty) → t.inside ⊆ t.parts
  | .void | .int _ | .float _ => List.Subset.refl _
  | .pointer .. | .function .. => List.cons_subset_cons _ (List.nil_subset _)
  | .array e _ => List.cons_subset_cons _ (inside_subset_parts e)
  | .struct fs _ => List.cons_subset_cons _ (insideOf_subset_partsOf fs)

theorem insideOf_subset_partsOf : (ts : List Ty) → insideOf ts ⊆ partsOf ts
  | [] => List.Subset.refl _
  | t :: ts => List.append_subset.mpr
    ⟨List.subset_append_of_subset_left _ (inside_subset_parts t),
      List.subset_append_of_subset_right _ (insideOf_subset_partsOf ts)⟩

end

end Ty

/-! ### Sizes without bounds -/

namespace Exact
variable (layout : DataLayout)

/-- The least multiple of an alignment that is not below an offset. -/
def next (offset align : Nat) : Nat := (offset ⌈/⌉ align) * align

/-- The bytes that so many bits occupy, padding included. -/
def padded (bits align : Nat) : Nat := next (bits ⌈/⌉ 8) align

/-- The size of a scalar in bytes is its alignment, once it is raised to a power of two and bounded. -/
def scalarAlign (bits : Nat) : Nat := min (2 ^ Nat.clog 2 (bits ⌈/⌉ 8)) layout.maxAlign

mutual

/-- The alignment of a type in bytes. -/
def align : Ty → Nat
  | .void | .function .. => 1
  | .int bits => scalarAlign layout bits
  | .float f => scalarAlign layout f.bits
  | .pointer .. => scalarAlign layout layout.pointerBits
  | .array e _ => align e
  | .struct fs packed => if packed then 1 else widest fs

def widest : List Ty → Nat
  | [] => 1
  | t :: ts => max (align t) (widest ts)

end

mutual

/-- The size of a type in bits. Elements stand one after another, each with its padding. Fields stand at their
alignments, unless they are packed, and the whole is padded to the largest one. -/
def bits : Ty → Nat
  | .void | .function .. => 0
  | .int bits => bits
  | .float f => f.bits
  | .pointer .. => layout.pointerBits
  | .array e length => padded (bits e) (align layout e) * 8 * length
  | .struct fs packed => next (stop packed fs 0) (if packed then 1 else widest layout fs) * 8

/-- Where the last of some fields ends, in bytes. -/
def stop (packed : Bool) : List Ty → Nat → Nat
  | [], offset => offset
  | t :: ts, offset =>
    stop packed ts (next offset (if packed then 1 else align layout t) + padded (bits t) (align layout t))

end

/-- The bytes that a value occupies, padding included. -/
def bytes (t : Ty) : Nat := padded (bits layout t) (align layout t)

/-- What has a size in 64 bits: there is neither void nor a function in it, and nothing in it is too large. -/
structure Fits (t : Ty) : Prop where
  values : ∀ p ∈ t.inside, p.isVoid = false ∧ p.isFunction = false
  sizes : ∀ p ∈ t.inside, bits layout p < 2 ^ 64

/-! ### Rounding -/

section
variable {n a : Nat}

theorem ceilDiv_eq (n : Nat) {d : Nat} (hd : 0 < d) : ceilDiv n d = n ⌈/⌉ d := by
  rw [Nat.ceilDiv_eq_add_pred_div, IR.ceilDiv, Nat.add_sub_assoc hd]

theorem roundUp_eq_next (n : Nat) (ha : 0 < a) : roundUp n a = next n a := by
  rw [roundUp, next, ceilDiv_eq n ha]

theorem powerOfTwoAbove_eq (n : Nat) : powerOfTwoAbove n = 2 ^ Nat.clog 2 n := by
  unfold powerOfTwoAbove
  split
  · next h => rw [Nat.clog_of_right_le_one h, Nat.pow_zero]
  · next h =>
    have below : Nat.log2 (n - 1) < Nat.clog 2 n := by
      have := Nat.log2_self_le (n := n - 1) (by omega)
      exact (Nat.lt_clog_iff_pow_lt Nat.one_lt_two).mpr (by omega)
    have above : Nat.clog 2 n ≤ Nat.log2 (n - 1) + 1 := by
      have := Nat.lt_log2_self (n := n - 1)
      exact Nat.clog_le_of_le_pow (by omega)
    exact congrArg (2 ^ ·) (Nat.le_antisymm below above)

theorem le_next (n : Nat) (ha : 0 < a) : n ≤ next n a := by
  rw [next, Nat.mul_comm]
  exact (ceilDiv_le_iff_le_mul ha).mp le_rfl

theorem next_lt (n : Nat) (ha : 0 < a) : next n a < n + a := by
  rw [next, Nat.ceilDiv_eq_add_pred_div]
  have := Nat.div_mul_le_self (n + a - 1) a
  omega

theorem dvd_next (n a : Nat) : a ∣ next n a := Dvd.intro_left _ rfl

theorem next_of_dvd (ha : 0 < a) (h : a ∣ n) : next n a = n := by
  obtain ⟨k, rfl⟩ := h
  rw [next, ← smul_eq_mul a k, smul_ceilDiv ha, smul_eq_mul, Nat.mul_comm]

/-- No multiple of an alignment comes before the next one. -/
theorem next_le {m : Nat} (ha : 0 < a) (h : n ≤ m) (hd : a ∣ m) : next n a ≤ m := by
  obtain ⟨k, rfl⟩ := hd
  rw [next, Nat.mul_comm]
  exact Nat.mul_le_mul_left a ((ceilDiv_le_iff_le_mul ha).mpr h)

/-- Whole bytes that an alignment divides need no padding. -/
theorem padded_of_dvd (ha : 0 < a) (h : a ∣ n) : padded (n * 8) a = n := by
  have eighth : (n * 8) ⌈/⌉ 8 = n := by rw [Nat.mul_comm, ← smul_eq_mul, smul_ceilDiv (by decide)]
  rw [padded, eighth, next_of_dvd ha h]

end

section
variable {layout : DataLayout}

theorem scalarAlign_eq (bits : Nat) : Ty.scalarAlign layout bits = scalarAlign layout bits := by
  rw [Ty.scalarAlign, scalarAlign, powerOfTwoAbove_eq, ceilDiv_eq bits (by decide)]

mutual

theorem align_eq : (t : Ty) → t.align layout = align layout t
  | .void | .function .. => rfl
  | .int _ | .float _ | .pointer .. => scalarAlign_eq _
  | .array e _ => align_eq e
  | .struct fs packed => by rw [Ty.align, align, widest_eq fs]

theorem widest_eq : (ts : List Ty) → Ty.widestAlign layout ts = widest layout ts
  | [] => rfl
  | t :: ts => by rw [Ty.widestAlign, widest, align_eq t, widest_eq ts]

end

theorem align_pos (t : Ty) : 0 < align layout t := by
  rw [← align_eq]
  exact Strict.align_pos t

theorem unlessPacked_pos (packed : Bool) (ts : List Ty) : 0 < if packed then 1 else widest layout ts := by
  rw [← widest_eq]
  exact Strict.unlessPacked_pos packed (Strict.widestAlign_pos ts)

/-- The padding of a scalar at most doubles what it occupies. -/
theorem scalar_bytes_lt_pow {n k : Nat} (h : n ≤ 8 * 2 ^ k) : padded n (scalarAlign layout n) < 2 * 2 ^ k := by
  have hbytes : n ⌈/⌉ 8 ≤ 2 ^ k := (ceilDiv_le_iff_le_mul (by decide)).mpr h
  have halign : scalarAlign layout n ≤ 2 ^ k :=
    (Nat.min_le_left _ _).trans (Nat.pow_le_pow_right (by decide) (Nat.clog_le_of_le_pow hbytes))
  have hpos : 0 < scalarAlign layout n := by
    rw [← scalarAlign_eq]
    exact Strict.scalarAlign_pos n
  have := next_lt (n ⌈/⌉ 8) hpos
  rw [padded]
  omega

/-- A scalar of a few bits occupies a few bytes. -/
theorem scalar_bytes_lt {n : Nat} (h : n < 2 ^ 32) : padded n (scalarAlign layout n) * 8 < 2 ^ 64 := by
  have hbytes : padded n (scalarAlign layout n) < 2 * 2 ^ 29 := scalar_bytes_lt_pow (by omega)
  omega

/-- Aggregates are padded already. -/
theorem bytes_aggregate {t : Ty} (h : t.isAggregate) : bytes layout t * 8 = bits layout t := by
  cases t with
  | array e length =>
    have hd : align layout e ∣ padded (bits layout e) (align layout e) * length := (dvd_next _ _).mul_right length
    rw [bytes, bits, Nat.mul_right_comm, align, padded_of_dvd (align_pos e) hd]
  | struct fs packed =>
    rw [bytes, bits, align, padded_of_dvd (unlessPacked_pos packed fs) (dvd_next _ _)]
  | _ => cases h

theorem Fits.firstClass {t : Ty} (h : Fits layout t) : t.isVoid = false ∧ t.isFunction = false :=
  h.values t t.mem_inside

/-- What has a size occupies bytes that can be counted in bits. -/
theorem bytes_lt (hp : layout.pointerBits < 2 ^ 32) {t : Ty} (hn : t.Narrow) (h : Fits layout t) :
    bytes layout t * 8 < 2 ^ 64 := by
  cases t with
  | void => exact absurd h.firstClass.1.symm Bool.false_ne_true
  | function => exact absurd h.firstClass.2.symm Bool.false_ne_true
  | int n => exact scalar_bytes_lt (hn n rfl)
  | float f =>
    have hf : f.bits < 2 ^ 32 := by cases f <;> decide
    exact scalar_bytes_lt hf
  | pointer => exact scalar_bytes_lt hp
  | array | struct =>
    rw [bytes_aggregate rfl]
    exact h.sizes _ (.head _)

theorem fits_scalar {t : Ty} (hi : t.inside = [t]) (hv : t.isVoid = false) (hf : t.isFunction = false) :
    Fits layout t ↔ bits layout t < 2 ^ 64 := by
  refine ⟨fun h => h.sizes t (by simp [hi]), fun h => ⟨?_, ?_⟩⟩
  · rw [hi]
    exact List.forall_mem_singleton.mpr ⟨hv, hf⟩
  · rw [hi]
    exact List.forall_mem_singleton.mpr h

theorem fits_array {e : Ty} {length : Nat} :
    Fits layout (.array e length) ↔ Fits layout e ∧ bits layout (.array e length) < 2 ^ 64 := by
  constructor
  · intro h
    obtain ⟨_, hvalues⟩ := List.forall_mem_cons.mp h.values
    obtain ⟨hwhole, hsizes⟩ := List.forall_mem_cons.mp h.sizes
    exact ⟨⟨hvalues, hsizes⟩, hwhole⟩
  · rintro ⟨h, hwhole⟩
    exact ⟨List.forall_mem_cons.mpr ⟨⟨rfl, rfl⟩, h.values⟩, List.forall_mem_cons.mpr ⟨hwhole, h.sizes⟩⟩

theorem fits_struct {fs : List Ty} {packed : Bool} :
    Fits layout (.struct fs packed) ↔ (∀ t ∈ fs, Fits layout t) ∧ bits layout (.struct fs packed) < 2 ^ 64 := by
  constructor
  · intro h
    obtain ⟨_, hvalues⟩ := List.forall_mem_cons.mp h.values
    obtain ⟨hwhole, hsizes⟩ := List.forall_mem_cons.mp h.sizes
    refine ⟨fun t ht => ⟨fun p hin => ?_, fun p hin => ?_⟩, hwhole⟩
    · exact hvalues p (Ty.mem_insideOf.mpr ⟨t, ht, hin⟩)
    · exact hsizes p (Ty.mem_insideOf.mpr ⟨t, ht, hin⟩)
  · rintro ⟨h, hwhole⟩
    refine ⟨List.forall_mem_cons.mpr ⟨⟨rfl, rfl⟩, fun p hin => ?_⟩, List.forall_mem_cons.mpr ⟨hwhole, fun p hin => ?_⟩⟩
    · obtain ⟨t, ht, hin⟩ := Ty.mem_insideOf.mp hin
      exact (h t ht).values p hin
    · obtain ⟨t, ht, hin⟩ := Ty.mem_insideOf.mp hin
      exact (h t ht).sizes p hin

/-! ### What is found -/

theorem sized?_eq_some_iff {n m : Nat} : sized? n = some m ↔ n < 2 ^ 64 ∧ m = n := by
  unfold sized?
  split
  · next h => simpa [eq_comm] using fun _ => h
  · next h => simpa using fun h' => absurd h' h

/-- Fields only ever come behind others. -/
theorem le_stop (packed : Bool) (ts : List Ty) (offset : Nat) : offset ≤ stop layout packed ts offset := by
  induction ts generalizing offset with
  | nil => exact Nat.le_refl _
  | cons t ts ih =>
    have ha : 0 < if packed then 1 else align layout t := Strict.unlessPacked_pos packed (align_pos t)
    rw [stop]
    exact ((le_next offset ha).trans (Nat.le_add_right _ _)).trans (ih _)

theorem paddedSize?_eq (n : Nat) (t : Ty) :
    Ty.paddedSize? n (align layout t) = sized? (padded n (align layout t)) := by
  rw [Ty.paddedSize?, padded, ceilDiv_eq n (by decide), roundUp_eq_next _ (align_pos t)]

mutual

theorem sizeInBits?_iff (hp : layout.pointerBits < 2 ^ 32) :
    (t : Ty) → (∀ p ∈ t.parts, p.Narrow) → ∀ n, t.sizeInBits? layout = some n ↔ Fits layout t ∧ n = bits layout t
  | .void, _, n =>
    ⟨fun h => absurd h.symm (Option.some_ne_none n), fun h => absurd h.1.firstClass.1.symm Bool.false_ne_true⟩
  | .function .., _, n =>
    ⟨fun h => absurd h.symm (Option.some_ne_none n), fun h => absurd h.1.firstClass.2.symm Bool.false_ne_true⟩
  | .int _, _, n | .float _, _, n | .pointer .., _, n => by
    rw [fits_scalar rfl rfl rfl]
    exact sized?_eq_some_iff
  | .array e length, h, n => by
    have he : ∀ p ∈ e.parts, p.Narrow := fun p k => h p (.tail _ k)
    rw [fits_array, Ty.sizeInBits?]
    simp only [Option.bind_eq_bind, Option.bind_eq_some_iff, sizeInBits?_iff hp e he, align_eq, paddedSize?_eq,
      sized?_eq_some_iff]
    constructor
    · rintro ⟨_, ⟨hf, rfl⟩, _, ⟨_, rfl⟩, _, ⟨_, rfl⟩, hlt, rfl⟩
      exact ⟨⟨hf, hlt⟩, rfl⟩
    · rintro ⟨⟨hf, hlt⟩, rfl⟩
      have hbytes := bytes_lt hp (he e e.mem_parts) hf
      exact ⟨_, ⟨hf, rfl⟩, _, ⟨lt_of_le_of_lt (Nat.le_mul_of_pos_right _ (by decide)) hbytes, rfl⟩, _,
        ⟨hbytes, rfl⟩, hlt, rfl⟩
  | .struct fs packed, h, n => by
    have hfs : ∀ p ∈ Ty.partsOf fs, p.Narrow := fun p k => h p (.tail _ k)
    have ha : 0 < if packed then 1 else widest layout fs := unlessPacked_pos packed fs
    rw [fits_struct, Ty.sizeInBits?, widest_eq]
    simp only [Option.bind_eq_bind, Option.bind_eq_some_iff, fieldsEnd?_iff hp packed fs hfs 0 (Nat.two_pow_pos 64),
      sized?_eq_some_iff, roundUp_eq_next _ ha]
    constructor
    · rintro ⟨_, ⟨hf, _, rfl⟩, _, ⟨_, rfl⟩, hlt, rfl⟩
      exact ⟨⟨hf, hlt⟩, rfl⟩
    · rintro ⟨⟨hf, hlt⟩, rfl⟩
      -- The end of the fields and the padded size are below the size in bits.
      have hstop := le_next (stop layout packed fs 0) ha
      rw [bits] at hlt
      exact ⟨_, ⟨hf, by omega, rfl⟩, _, ⟨by omega, rfl⟩, hlt, rfl⟩

theorem fieldsEnd?_iff (hp : layout.pointerBits < 2 ^ 32) (packed : Bool) :
    (ts : List Ty) → (∀ p ∈ Ty.partsOf ts, p.Narrow) → ∀ offset, offset < 2 ^ 64 → ∀ n,
      Ty.fieldsEnd? layout packed ts offset = some n ↔
        (∀ t ∈ ts, Fits layout t) ∧ stop layout packed ts offset < 2 ^ 64 ∧ n = stop layout packed ts offset
  | [], _, offset, ho, n => by
    rw [Ty.fieldsEnd?, stop, Option.some.injEq]
    exact ⟨fun h => ⟨List.forall_mem_nil _, ho, h.symm⟩, fun h => h.2.2.symm⟩
  | t :: ts, h, offset, ho, n => by
    obtain ⟨ht, hts⟩ := List.forall_mem_append.mp h
    have ha : 0 < if packed then 1 else align layout t := Strict.unlessPacked_pos packed (align_pos t)
    have rest := fieldsEnd?_iff hp packed ts hts
    rw [Ty.fieldsEnd?, stop, List.forall_mem_cons]
    simp only [Option.bind_eq_bind, Option.bind_eq_some_iff, sizeInBits?_iff hp t ht, align_eq, paddedSize?_eq,
      sized?_eq_some_iff, roundUp_eq_next _ ha]
    constructor
    · rintro ⟨_, ⟨hf, rfl⟩, _, ⟨_, rfl⟩, _, ⟨_, rfl⟩, _, ⟨hlt, rfl⟩, hrest⟩
      obtain ⟨hfs, hstop, rfl⟩ := (rest _ hlt n).mp hrest
      exact ⟨⟨hf, hfs⟩, hstop, rfl⟩
    · rintro ⟨⟨hf, hfs⟩, hstop, rfl⟩
      -- Each place on the way is not behind the last one.
      have hlt := lt_of_le_of_lt (le_stop packed ts _) hstop
      exact ⟨_, ⟨hf, rfl⟩, _, ⟨by omega, rfl⟩, _, ⟨by omega, rfl⟩, _, ⟨hlt, rfl⟩, (rest _ hlt _).mpr ⟨hfs, hstop, rfl⟩⟩

end

/-- Only aggregates can be too large. -/
theorem fits_iff (hp : layout.pointerBits < 2 ^ 32) {t : Ty} (hn : ∀ p ∈ t.parts, p.Narrow) :
    Fits layout t ↔ (∀ p ∈ t.inside, p.isVoid = false ∧ p.isFunction = false) ∧
      bits layout t < 2 ^ 64 ∧ ∀ p ∈ t.inside, p.isAggregate → bits layout p < 2 ^ 64 := by
  constructor
  · exact fun h => ⟨h.values, h.sizes t t.mem_inside, fun p hin _ => h.sizes p hin⟩
  · rintro ⟨hvalues, _, hsizes⟩
    refine ⟨hvalues, fun p hin => ?_⟩
    have hnarrow := hn p (t.inside_subset_parts hin)
    cases p with
    | void | function => exact Nat.two_pow_pos 64
    | int n => exact lt_trans (hnarrow n rfl) (by decide)
    | float f =>
      have hf : f.bits < 2 ^ 64 := by cases f <;> decide
      exact hf
    | pointer => exact lt_trans hp (by decide)
    | array | struct => exact hsizes _ hin rfl

end

end Exact

/-- A type has a size if and only if neither void nor a function is in it and the size of the type and of each aggregate
in it, reckoned without bounds, is below `2 ^ 64` bits. The size that is found is that one, and so is the number of bytes,
which is found for the same types. No operation on the way leaves its domain. -/
theorem Ty.sizes_exact (layout : DataLayout) (hp : layout.pointerBits < 2 ^ 32) {t : Ty}
    (hn : ∀ p ∈ t.parts, p.Narrow) :
    (∀ n, t.sizeInBits? layout = some n ↔
      (∀ p ∈ t.inside, p.isVoid = false ∧ p.isFunction = false) ∧
        (Exact.bits layout t < 2 ^ 64 ∧ ∀ p ∈ t.inside, p.isAggregate → Exact.bits layout p < 2 ^ 64) ∧
        n = Exact.bits layout t) ∧
    (∀ n, t.allocSize? layout = some n ↔ (t.sizeInBits? layout).isSome ∧ n = Exact.bytes layout t) ∧
    t.align layout = Exact.align layout t ∧
    Strict.sizeInBits layout t = some (t.sizeInBits? layout) ∧
    Strict.allocSize layout t = some (t.allocSize? layout) ∧
    Strict.align layout t = some (t.align layout) := by
  have found := Exact.sizeInBits?_iff hp t hn
  refine ⟨fun n => ?_, fun n => ?_, Exact.align_eq t, Strict.sizeInBits_eq hp t hn, Strict.allocSize_eq hp hn,
    Strict.align_eq hp t hn⟩
  · rw [found, Exact.fits_iff hp hn, and_assoc]
  · simp only [Ty.allocSize?, Option.bind_eq_bind, Option.bind_eq_some_iff, Option.isSome_iff_exists, found,
      Exact.align_eq, Exact.paddedSize?_eq, Exact.sized?_eq_some_iff]
    constructor
    · rintro ⟨_, ⟨hf, rfl⟩, _, rfl⟩
      exact ⟨⟨_, hf, rfl⟩, rfl⟩
    · rintro ⟨⟨_, hf, rfl⟩, rfl⟩
      have hbytes := Exact.bytes_lt hp (hn t t.mem_parts) hf
      exact ⟨_, ⟨hf, rfl⟩, lt_of_le_of_lt (Nat.le_mul_of_pos_right _ (by decide)) hbytes, rfl⟩

/-- A byte in front of an array of bytes, as large as a structure can be, and one with a byte too many. -/
theorem Ty.sizes_exact_bytes :
    (Ty.struct [.int 8, .array (.int 8) (2 ^ 61 - 2)] false).sizeInBits? {} = some (2 ^ 64 - 8) ∧
      (Ty.struct [.int 8, .array (.int 8) (2 ^ 61 - 2)] false).allocSize? {} = some (2 ^ 61 - 1) ∧
      (Ty.struct [.int 8, .array (.int 8) (2 ^ 61 - 1)] false).sizeInBits? {} = none := by
  have narrow (length : Nat) : ∀ p ∈ (Ty.struct [.int 8, .array (.int 8) length] false).parts, p.Narrow := by
    simp [Ty.parts, Ty.partsOf, Ty.Narrow, Ty.width?]
  obtain ⟨hsize, halloc, _⟩ := Ty.sizes_exact {} (by decide) (narrow (2 ^ 61 - 2))
  obtain ⟨htoo, _⟩ := Ty.sizes_exact {} (by decide) (narrow (2 ^ 61 - 1))
  have found := (hsize (2 ^ 64 - 8)).mpr ⟨by decide +kernel, ⟨by decide +kernel, by decide +kernel⟩, by decide +kernel⟩
  refine ⟨found, (halloc _).mpr ⟨by rw [found]; rfl, by decide +kernel⟩, ?_⟩
  refine Option.eq_none_iff_forall_ne_some.mpr fun n hn => ?_
  exact absurd ((htoo n).mp hn).2.1.1 (by decide +kernel)

end StackAssembler.IR
