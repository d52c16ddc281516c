import Mathlib.Algebra.Order.BigOperators.Group.List
import Mathlib.Algebra.Order.Ring.Nat
import Mathlib.Data.List.TakeWhile
import StackAssembler.IR.Naming
import StackAssembler.Proofs.Coherence
import StackAssembler.Proofs.Footprint

/-! The numbers by which unnamed results go in the text of their function, and how a growing function shifts them. -/
namespace StackAssembler.IR

namespace Spelling

/-- How many sites go by a number. -/
def unnamed (sites : List (Site × Option String)) : Nat := sites.countP (·.2.isNone)

@[simp] theorem unnamed_nil : unnamed [] = 0 := rfl

@[simp] theorem unnamed_append (xs ys : List (Site × Option String)) : unnamed (xs ++ ys) = unnamed xs + unnamed ys :=
  List.countP_append

@[simp] theorem unnamed_cons (entry : Site × Option String) (sites : List (Site × Option String)) :
    unnamed (entry :: sites) = unnamed sites + if entry.2.isNone then 1 else 0 :=
  List.countP_cons

theorem unnamed_flatMap {α : Type} (f : α → List (Site × Option String)) (xs : List α) :
    unnamed (xs.flatMap f) = (xs.map fun x => unnamed (f x)).sum :=
  List.countP_flatMap

/-- A site without a name goes by the number of such sites in front of it. -/
theorem lookup_assign_unnamed {before rest : List (Site × Option String)} {site : Site}
    (h : ∀ entry ∈ before, entry.1 ≠ site) (next : Nat) :
    (assign next (before ++ (site, none) :: rest)).lookup site = some (toString (next + unnamed before)) := by
  induction before generalizing next with
  | nil => simp [assign]
  | cons entry before ih =>
    obtain ⟨hne, hbefore⟩ := List.forall_mem_cons.mp h
    obtain ⟨first, _ | name⟩ := entry
    · have hn : next + 1 + unnamed before = next + unnamed ((first, none) :: before) := by simp; omega
      rw [List.cons_append, assign, List.lookup_cons, beq_false_of_ne hne.symm, ih hbefore, hn]
    · have hn : unnamed before = unnamed ((first, some name) :: before) := by simp
      rw [List.cons_append, assign, List.lookup_cons, beq_false_of_ne hne.symm, ih hbefore, hn]

end Spelling

/-- Different numbers are spelled in different ways. -/
theorem number_inj {n k : Nat} (h : "%" ++ toString n = "%" ++ toString k) : n = k := by
  have hdigits : Nat.toDigits 10 n = Nat.toDigits 10 k := by
    simpa [Nat.toString_eq_ofList_toDigits] using congrArg String.toList h
  rw [← Nat.ofDigitChars_ten_toDigits (n := n), hdigits, Nat.ofDigitChars_ten_toDigits]

/-- A number is no position of a value that stands in no function. -/
theorem number_ne_position (n k : Nat) : "%" ++ toString n ≠ "%v" ++ toString k := by
  intro h
  have hl : Nat.toDigits 10 n = 'v' :: (toString k).toList := by
    simpa [Nat.toString_eq_ofList_toDigits] using congrArg String.toList h
  have hv : 'v' ∈ Nat.toDigits 10 n := by
    rw [hl]
    exact .head _
  have hd : 'v'.isDigit := Nat.isDigit_of_mem_toDigits (by decide) (by decide) hv
  cases hd

namespace Context
variable {ctx c d : Context} {f : FunctionId} {b : BlockId} {v : ValueId}

/-- An instruction in a block that has a result, but no name. -/
structure UnnamedResult (ctx : Context) (v : ValueId) (b : BlockId) : Prop where
  instruction : ∃ op, (ctx.value v).kind = .instruction op b
  result : (ctx.typeOf v).isVoid = false
  unnamed : (ctx.value v).name = none

/-- The results in a block that go by numbers. -/
def numbered (ctx : Context) (b : BlockId) : List ValueId :=
  (ctx.block b).instructions.toList.filter fun v => !(ctx.typeOf v).isVoid && (ctx.value v).name.isNone

/-- The blocks of a function in front of one of them. -/
def blocksBefore (ctx : Context) (f : FunctionId) (b : BlockId) : List BlockId :=
  (ctx.function f).blocks.toList.takeWhile (· ≠ b)

def argumentSites (ctx : Context) (f : FunctionId) : List (Site × Option String) :=
  (ctx.function f).args.map fun v => (.value v, (ctx.value v).name)

/-- The results of a block in front of one of them. -/
def resultsBefore (ctx : Context) (b : BlockId) (v : ValueId) : List (Site × Option String) :=
  (((ctx.block b).instructions.toList.takeWhile (· ≠ v)).filter fun v => !(ctx.typeOf v).isVoid).map fun v =>
    (.value v, (ctx.value v).name)

/-- The sites of a function in front of a result in one of its blocks. -/
def sitesBefore (ctx : Context) (f : FunctionId) (b : BlockId) (v : ValueId) : List (Site × Option String) :=
  ctx.argumentSites f ++ ((ctx.blocksBefore f b).flatMap ctx.blockSites ++ (.block b, (ctx.block b).name) ::
    ctx.resultsBefore b v)

/-- The number of a result in a block of a function. -/
def numberOf (ctx : Context) (f : FunctionId) (b : BlockId) (v : ValueId) : Nat := Spelling.unnamed (ctx.sitesBefore f b v)

theorem takeWhile_ne {α : Type} [DecidableEq α] {x : α} {xs : List α} (h : x ∈ xs) :
    ∃ rest, xs = xs.takeWhile (· ≠ x) ++ x :: rest := by
  obtain ⟨before, rest, rfl, hn⟩ := List.eq_append_cons_of_mem h
  refine ⟨rest, ?_⟩
  rw [List.takeWhile_append_of_pos fun y hy => by simpa using fun he : y = x => hn (he ▸ hy)]
  simp

theorem sites_eq_sitesBefore (hc : Coherent ctx) (hf : (ctx.block b).function = some f) (hv : ctx.UnnamedResult v b) :
    ∃ rest, ctx.sites f = ctx.sitesBefore f b v ++ (.value v, none) :: rest := by
  obtain ⟨op, hop⟩ := hv.instruction
  obtain ⟨back, hblocks⟩ := takeWhile_ne (Array.mem_toList_iff.mpr ((hc.adopted.listed f b).mpr hf))
  obtain ⟨later, hinsts⟩ := takeWhile_ne (Array.mem_toList_iff.mpr ((hc.placed.listed v b).mpr ⟨op, hop⟩))
  have hsites : ctx.blockSites b = (.block b, (ctx.block b).name) :: ctx.resultsBefore b v ++ (.value v, none) ::
      (later.filter fun v => !(ctx.typeOf v).isVoid).map fun v => (.value v, (ctx.value v).name) := by
    rw [blockSites]
    conv_lhs => rw [hinsts]
    simp [resultsBefore, List.filter_append, hv.result, hv.unnamed]
  refine ⟨(later.filter fun v => !(ctx.typeOf v).isVoid).map (fun v => (.value v, (ctx.value v).name)) ++
    back.flatMap ctx.blockSites, ?_⟩
  rw [sites, hblocks, List.flatMap_append, List.flatMap_cons, hsites]
  simp [sitesBefore, argumentSites, blocksBefore]

theorem ne_of_mem_sitesBefore (hc : Coherent ctx) (hf : ctx.HasFunction f) (hv : ctx.UnnamedResult v b) :
    ∀ entry ∈ ctx.sitesBefore f b v, entry.1 ≠ .value v := by
  obtain ⟨op, hop⟩ := hv.instruction
  intro entry hin
  rcases List.mem_append.mp hin with hin | hin
  · obtain ⟨u, hu, rfl⟩ := List.mem_map.mp hin
    obtain ⟨i, hi⟩ := List.mem_iff_getElem?.mp hu
    rintro ⟨⟩
    rw [(hc.registered.args f i v hf hi).2] at hop
    cases hop
  rcases List.mem_append.mp hin with hin | hin
  · obtain ⟨k, hk, hin⟩ := List.mem_flatMap.mp hin
    have hkb : k ≠ b := by simpa using List.mem_takeWhile_imp hk
    rcases List.mem_cons.mp hin with rfl | hin
    · exact nofun
    · obtain ⟨u, hu, rfl⟩ := List.mem_map.mp hin
      rintro ⟨⟩
      obtain ⟨op', hk'⟩ := (hc.placed.listed v k).mp (Array.mem_toList_iff.mp (List.mem_of_mem_filter hu))
      rw [hop] at hk'
      cases hk'
      exact hkb rfl
  · rcases List.mem_cons.mp hin with rfl | hin
    · exact nofun
    · obtain ⟨u, hu, rfl⟩ := List.mem_map.mp hin
      rintro ⟨⟩
      simpa using List.mem_takeWhile_imp (List.mem_of_mem_filter hu)

/-- In the text of its function an unnamed result goes by its number. -/
theorem nameText_unnamedResult (hc : Coherent ctx) (hf : (ctx.block b).function = some f) (hv : ctx.UnnamedResult v b) :
    ctx.nameText (ctx.spelling f) v = "%" ++ toString (ctx.numberOf f b v) := by
  obtain ⟨op, hop⟩ := hv.instruction
  obtain ⟨rest, hsites⟩ := sites_eq_sitesBefore hc hf hv
  have hne := ne_of_mem_sitesBefore hc (hc.adopted.hasFunction hf) hv
  have hl : (ctx.spelling f).lookup (.value v) = some (toString (ctx.numberOf f b v)) := by
    rw [spelling, hsites, Spelling.lookup_assign_unnamed hne, Nat.zero_add, numberOf]
  rw [nameText, hop]
  dsimp only
  rw [hl]

namespace UnnamedResult

theorem functionOf?_eq (hv : ctx.UnnamedResult v b) : ctx.functionOf? v = (ctx.block b).function := by
  obtain ⟨op, hop⟩ := hv.instruction
  rw [functionOf?, Value.block?, hop]
  rfl

/-- Among other names, an unnamed result is shown with the one of its function's text. -/
theorem displayName_eq (hv : ctx.UnnamedResult v b) : ctx.displayName v = ctx.localName v := by
  obtain ⟨op, hop⟩ := hv.instruction
  rw [displayName, hv.unnamed]
  simp [Value.operation?, hop, hv.result]

/-- A result that stands in a function goes by its number there. -/
theorem localName_eq (hc : Coherent ctx) (hf : (ctx.block b).function = some f) (hv : ctx.UnnamedResult v b) :
    ctx.localName v = "%" ++ toString (ctx.numberOf f b v) := by
  rw [localName, hv.functionOf?_eq, hf]
  exact nameText_unnamedResult hc hf hv

/-- A result that stands in no function goes by its position. -/
theorem localName_detached (hf : (ctx.block b).function = none) (hv : ctx.UnnamedResult v b) :
    ctx.localName v = "%v" ++ toString v.index := by
  obtain ⟨op, hop⟩ := hv.instruction
  rw [localName, hv.functionOf?_eq, hf]
  simp [nameText, hop, hv.unnamed]

theorem later (h : c.values.toList <+: d.values.toList) (hv : c.UnnamedResult v b) : d.UnnamedResult v b := by
  obtain ⟨op, hop⟩ := hv.instruction
  have hsame : d.value v = c.value v := value_of_grows h (hasValue_of_instruction hop)
  refine ⟨?_, ?_, ?_⟩
  · rw [hsame]
    exact hv.instruction
  · rw [typeOf, hsame]
    exact hv.result
  · rw [hsame]
    exact hv.unnamed

end UnnamedResult

/-! ### While the function grows -/

theorem takeWhile_ne_grows {α : Type} [DecidableEq α] {x : α} {xs ys : List α} (hx : x ∈ xs) (h : xs <+: ys) :
    ys.takeWhile (· ≠ x) = xs.takeWhile (· ≠ x) := by
  obtain ⟨before, rest, rfl, hn⟩ := List.eq_append_cons_of_mem hx
  obtain ⟨added, rfl⟩ := h
  have hp : ∀ y ∈ before, decide (y ≠ x) = true := fun y hy => by simpa using fun he : y = x => hn (he ▸ hy)
  rw [List.append_assoc, List.takeWhile_append_of_pos hp, List.takeWhile_append_of_pos hp]
  simp

theorem sum_map_eq_iff {α : Type} {g h : α → Nat} {xs : List α} (hle : ∀ x ∈ xs, g x ≤ h x) :
    (xs.map h).sum = (xs.map g).sum ↔ ∀ x ∈ xs, h x = g x := by
  induction xs with
  | nil => simp
  | cons x xs ih =>
    obtain ⟨hx, hxs⟩ := List.forall_mem_cons.mp hle
    have hsum := List.sum_le_sum hxs
    rw [List.map_cons, List.map_cons, List.sum_cons, List.sum_cons, List.forall_mem_cons, ← ih hxs]
    omega

/-- The sites of a block that go by numbers are its numbered results, and perhaps the block. -/
theorem unnamed_blockSites (ctx : Context) (b : BlockId) :
    Spelling.unnamed (ctx.blockSites b) = (ctx.numbered b).length + if (ctx.block b).name.isNone then 1 else 0 := by
  rw [blockSites, Spelling.unnamed_cons, numbered, Spelling.unnamed, List.countP_map, List.countP_filter,
    ← List.countP_eq_length_filter]
  congr 1
  refine List.countP_congr fun u _ => ?_
  simp [and_comm]

/-- No result that goes by a number was added in front of a block of a function. -/
def Unshifted (c d : Context) (f : FunctionId) (b : BlockId) : Prop :=
  ∀ k ∈ d.blocksBefore f b, d.numbered k = c.numbered k

section
variable (he : c.Extends d) (hvalues : c.values.toList <+: d.values.toList) (hc : Coherent c)
include he hc

theorem blocksBefore_eq (hf : (c.block b).function = some f) : d.blocksBefore f b = c.blocksBefore f b :=
  takeWhile_ne_grows (Array.mem_toList_iff.mpr ((hc.adopted.listed f b).mpr hf))
    (he.function (hc.adopted.hasFunction hf)).blocks

include hvalues

theorem numbered_grows (hb : c.HasBlock b) : c.numbered b <+: d.numbered b := by
  have hold : c.numbered b = (c.block b).instructions.toList.filter fun v =>
      !(d.typeOf v).isVoid && (d.value v).name.isNone := by
    refine List.filter_congr fun u hu => ?_
    rw [typeOf, typeOf, value_of_grows hvalues (hc.listed (Array.mem_toList_iff.mp hu)).1]
  rw [hold]
  exact (he.block hb).instructions.filter _

theorem argumentSites_eq (hf : c.HasFunction f) : d.argumentSites f = c.argumentSites f := by
  unfold argumentSites
  rw [(he.function hf).rest]
  refine List.map_congr_left fun u hu => ?_
  rw [value_of_grows hvalues (hc.hasValue_arg hf hu)]

theorem resultsBefore_eq (hb : c.HasBlock b) (hv : c.UnnamedResult v b) : d.resultsBefore b v = c.resultsBefore b v := by
  have hmem : v ∈ (c.block b).instructions.toList := Array.mem_toList_iff.mpr ((hc.placed.listed v b).mpr hv.instruction)
  have hsame : ∀ u ∈ (c.block b).instructions.toList.takeWhile (· ≠ v), d.value u = c.value u := fun u hu =>
    value_of_grows hvalues (hc.listed (Array.mem_toList_iff.mp ((List.takeWhile_prefix _).subset hu))).1
  unfold resultsBefore
  rw [takeWhile_ne_grows hmem (he.block hb).instructions, List.filter_congr fun u hu => by rw [typeOf, hsame u hu]]
  refine List.map_congr_left fun u hu => ?_
  rw [hsame u (List.mem_of_mem_filter hu)]

/-- The number of a result is still the same if and only if it was not shifted. -/
theorem numberOf_eq_iff (hf : (c.block b).function = some f) (hv : c.UnnamedResult v b) :
    d.numberOf f b v = c.numberOf f b v ↔ c.Unshifted d f b := by
  have hb : c.HasBlock b := hc.hasBlock ((hc.adopted.listed f b).mpr hf)
  -- Blocks keep their names, so that a block counts for more only if it has more results that go by numbers.
  have hfront : ∀ k ∈ c.blocksBefore f b, c.numbered k <+: d.numbered k ∧ (d.block k).name = (c.block k).name := by
    intro k hk
    have hkf : k ∈ (c.function f).blocks := Array.mem_toList_iff.mp ((List.takeWhile_prefix _).subset hk)
    exact ⟨numbered_grows he hvalues hc (hc.hasBlock hkf), (he.block (hc.hasBlock hkf)).name⟩
  have hle : ∀ k ∈ c.blocksBefore f b, Spelling.unnamed (c.blockSites k) ≤ Spelling.unnamed (d.blockSites k) := by
    intro k hk
    obtain ⟨hp, hname⟩ := hfront k hk
    rw [unnamed_blockSites, unnamed_blockSites, hname]
    exact Nat.add_le_add_right hp.length_le _
  have heq : ∀ k ∈ c.blocksBefore f b, Spelling.unnamed (d.blockSites k) = Spelling.unnamed (c.blockSites k) ↔
      d.numbered k = c.numbered k := by
    intro k hk
    obtain ⟨hp, hname⟩ := hfront k hk
    rw [unnamed_blockSites, unnamed_blockSites, hname, Nat.add_right_cancel_iff]
    exact ⟨fun h => (hp.eq_of_length h.symm).symm, fun h => by rw [h]⟩
  unfold Unshifted numberOf sitesBefore
  rw [blocksBefore_eq he hc hf, argumentSites_eq he hvalues hc (hc.adopted.hasFunction hf),
    resultsBefore_eq he hvalues hc hb hv, (he.block hb).name]
  simp only [Spelling.unnamed_append, Spelling.unnamed_cons, Nat.add_left_cancel_iff, Nat.add_right_cancel_iff,
    Spelling.unnamed_flatMap]
  rw [sum_map_eq_iff hle]
  exact forall₂_congr heq

end

end Context
end StackAssembler.IR
