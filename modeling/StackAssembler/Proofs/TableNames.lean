import StackAssembler.Proofs.NodeTable

/-! The names of values in the table of metadata nodes. The table is written with the names that the last function of
the module has left behind. -/
namespace StackAssembler.IR

namespace Context
variable {ctx : Context} {f : FunctionId} {v : ValueId}

namespace NamedBy
variable {names : Site → String} (h : ctx.NamedBy f names)
include h

/-- A site without a name of its own has a number. -/
theorem exists_number {site : Site} (hs : (site, none) ∈ ctx.sites f) : ∃ n : Nat, names site = toString n := by
  have hin : names site ∈ ((ctx.sites f).filter (·.2.isNone)).map fun entry => names entry.1 :=
    List.mem_map.mpr ⟨(site, none), List.mem_filter.mpr ⟨hs, rfl⟩, rfl⟩
  rw [h.numbers] at hin
  obtain ⟨n, _, hn⟩ := List.mem_map.mp hin
  exact ⟨n, hn.symm⟩

/-- A value goes by its own name, or else by a number. -/
theorem name_of_value (hv : ctx.Names f (.value v)) :
    (∃ name, (ctx.value v).name = some name ∧ names (.value v) = name) ∨
      (ctx.value v).name = none ∧ ∃ n : Nat, names (.value v) = toString n := by
  obtain ⟨⟨_, name⟩, hsite, rfl⟩ := List.mem_map.mp hv
  have hname := Strict.name_of_mem_sites hsite
  cases name with
  | none => exact .inr ⟨hname.symm, h.exists_number hsite⟩
  | some name => exact .inl ⟨name, hname.symm, h.own _ name hsite⟩

end NamedBy

section
variable (hc : Coherent ctx) (hf : ctx.HasFunction f) (hv : ctx.Names f (.value v))
include hc hf hv

/-- With a spelling that leaves it out, an argument or a result goes by its own name or by its position. -/
theorem nameText_of_left_out {s : Spelling} (hs : s.lookup (.value v) = none) :
    ctx.nameText s v = ((ctx.value v).name.map ("%" ++ ·)).getD ("%v" ++ toString v.index) := by
  unfold nameText
  rcases hv.kind hc hf with ⟨i, hk⟩ | ⟨op, b, hk, _⟩ <;>
    cases hname : (ctx.value v).name <;> simp only [hk, hs, hname, Option.map_some, Option.map_none, Option.getD_some,
      Option.getD_none]

/-- The spelling of another function leaves a value out. -/
theorem lookup_spelling_of_ne {g : FunctionId} (hg : ctx.HasFunction g) (hne : g ≠ f) :
    (ctx.spelling g).lookup (.value v) = none := by
  apply Spelling.lookup_eq_none
  rw [spelling, Spelling.map_fst_assign]
  intro hin
  exact hne (Names.unique hc hg hf hin hv)

variable {fs : List FunctionId} (hfs : ∀ g ∈ fs, ctx.HasFunction g) (hin : f ∈ fs) {names : Site → String}
  (hn : ctx.NamedBy f names)
include hfs hin hn

/-- In the table, a value that has no name of its own has lost its number when another function is the last one. -/
theorem nameText_finalSpelling : ctx.nameText (ctx.finalSpelling fs) v =
    if (ctx.value v).name.isSome ∨ fs.getLast? = some f then "%" ++ names (.value v) else "%v" ++ toString v.index := by
  obtain ⟨g, hg⟩ : ∃ g, fs.getLast? = some g := by
    rw [← Option.isSome_iff_exists, List.getLast?_isSome]
    exact List.ne_nil_of_mem hin
  rw [finalSpelling, hg]
  by_cases hgf : g = f
  · subst hgf
    rw [if_pos (.inr rfl), nameText_of_names hc hf hv, (namedBy hc hf).unique hn hv]
  · have hlast : some g ≠ some f := fun h => hgf (Option.some.inj h)
    dsimp only
    rw [nameText_of_left_out hc hf hv (lookup_spelling_of_ne hc hf hv (hfs g (List.mem_of_getLast? hg)) hgf)]
    rcases hn.name_of_value hv with ⟨name, hname, hown⟩ | ⟨hname, _⟩
    · simp [hname, hown]
    · simp [hname, hlast]

theorem nameText_finalSpelling_iff : ctx.nameText (ctx.finalSpelling fs) v = "%" ++ names (.value v) ↔
    (ctx.value v).name.isSome ∨ fs.getLast? = some f := by
  rw [nameText_finalSpelling hc hf hv hfs hin hn]
  split
  · next h => exact iff_of_true rfl h
  · next h =>
    refine iff_of_false (fun he => ?_) h
    rcases hn.name_of_value hv with ⟨name, hname, _⟩ | ⟨_, n, hnumber⟩
    · exact h (.inl (by rw [hname]; rfl))
    · rw [hnumber] at he
      exact number_ne_position n v.index he.symm

end

end Context
end StackAssembler.IR

namespace StackAssembler.Build
open IR

/-- An argument or a result of a function in a module, as an operand in the table of nodes, has the name that it has in
the text of its function if and only if it has a name of its own, or its function is the last one of the module. It goes
by its position otherwise. -/
theorem Reachable.named_in_table {m : Machine} (h : Reachable m) {k : ModuleId} {f : FunctionId}
    (hf : f ∈ (m.context.module k).functions) {v : ValueId} (hv : m.context.Names f (.value v)) :
    ∃ names, m.context.NamedBy f names ∧ ∀ order,
      m.context.nodeOperandText (m.context.finalSpelling (m.context.module k).functions.toList) order (.value v) =
        (m.context.typeOf v).name ++ " " ++
          (if (m.context.value v).name.isSome ∨ (m.context.module k).functions.toList.getLast? = some f
            then "%" ++ names (.value v) else "%v" ++ toString v.index) ∧
      (m.context.nodeOperandText (m.context.finalSpelling (m.context.module k).functions.toList) order (.value v) =
          (m.context.typeOf v).name ++ " " ++ ("%" ++ names (.value v)) ↔
        (m.context.value v).name.isSome ∨ (m.context.module k).functions.toList.getLast? = some f) := by
  have hc := h.coherent
  have hfs : ∀ g ∈ (m.context.module k).functions.toList, m.context.HasFunction g := fun g hg =>
    ((hc.registered.listed k g).mp (Array.mem_toList_iff.mp hg)).1
  have hin := Array.mem_toList_iff.mpr hf
  have hn := Context.namedBy hc (hfs f hin)
  refine ⟨_, hn, fun order => ⟨?_, ?_⟩⟩
  · rw [← Context.nameText_finalSpelling hc (hfs f hin) hv hfs hin hn, Context.nodeOperandText, Context.operandText]
  · rw [← Context.nameText_finalSpelling_iff hc (hfs f hin) hv hfs hin hn, Context.nodeOperandText, Context.operandText,
      String.append_right_inj]

/-- Two functions with a parameter each, and a node with both arguments that the first function carries. -/
def Command.twoBytes : List Command :=
  [.request (.addModule "m"), .request (.intern .void), .request (.intern (.int 8)), .perform (.useModule ⟨0⟩),
    .perform (.createFunction ⟨"f", .void, [.int 8], false⟩), .perform (.createBlock "entry"),
    .perform (.createFunction ⟨"g", .void, [.int 8], false⟩), .perform (.createBlock "start"),
    .request (.addNode [.value ⟨1⟩, .value ⟨3⟩]), .request (.attach ⟨0⟩ "note" ⟨0⟩)]

def Machine.twoBytes : Machine := Machine.runAll {} Command.twoBytes

theorem Reachable.twoBytes : Reachable Machine.twoBytes := ⟨{}, .of_permits Command.twoBytes (by decide +kernel)⟩

/-- The argument of the last function has its number in the table. -/
theorem Reachable.named_in_table_last : ∃ names, Machine.twoBytes.context.NamedBy ⟨1⟩ names ∧
    Machine.twoBytes.context.nodeOperandText (Machine.twoBytes.context.finalSpelling [⟨0⟩, ⟨1⟩]) [⟨0⟩] (.value ⟨3⟩) =
      "i8 " ++ ("%" ++ names (.value ⟨3⟩)) := by
  have hmodule : (Machine.twoBytes.context.module ⟨0⟩).functions = #[⟨0⟩, ⟨1⟩] := by decide +kernel
  have hlast : (Machine.twoBytes.context.module ⟨0⟩).functions.toList.getLast? = some ⟨1⟩ := by rw [hmodule]; rfl
  obtain ⟨names, hn, ht⟩ := Reachable.named_in_table .twoBytes (k := ⟨0⟩) (f := ⟨1⟩) (v := ⟨3⟩)
    (by simp [hmodule]) (by decide +kernel)
  have htype : Machine.twoBytes.context.typeOf ⟨3⟩ = .int 8 := by decide +kernel
  have htext := (ht [⟨0⟩]).2.mpr (.inr hlast)
  rw [hmodule, htype] at htext
  exact ⟨names, hn, htext⟩

/-- The argument of the other function has lost it. -/
theorem Reachable.lost_in_table :
    Machine.twoBytes.context.printModule ⟨0⟩ = "; ModuleID = 'm'\n\n" ++
      "define void @f(i8 %0), !note !0 \x7b\nentry:\n\x7d\n\n" ++
      "define void @g(i8 %0) \x7b\nstart:\n\x7d\n\n!0 = !\x7bi8 %v1, i8 %0\x7d\n" ∧
    ∀ names, Machine.twoBytes.context.NamedBy ⟨0⟩ names → ∀ order,
      Machine.twoBytes.context.nodeOperandText (Machine.twoBytes.context.finalSpelling [⟨0⟩, ⟨1⟩]) order (.value ⟨1⟩) ≠
        "i8 " ++ ("%" ++ names (.value ⟨1⟩)) := by
  refine ⟨by decide +kernel, fun names hn order => ?_⟩
  have htext : Machine.twoBytes.context.operandText (Machine.twoBytes.context.finalSpelling [⟨0⟩, ⟨1⟩]) ⟨1⟩ =
      "i8 " ++ ("%v" ++ toString 1) := by decide +kernel
  have hunnamed : (Machine.twoBytes.context.value ⟨1⟩).name = none := by decide +kernel
  have hnames : Machine.twoBytes.context.Names ⟨0⟩ (.value ⟨1⟩) := by decide +kernel
  rcases hn.name_of_value hnames with ⟨name, hname, _⟩ | ⟨_, n, hnumber⟩
  · rw [hunnamed] at hname
    cases hname
  · rw [Context.nodeOperandText, htext, hnumber, Ne, String.append_right_inj]
    exact (number_ne_position n 1).symm

end StackAssembler.Build
