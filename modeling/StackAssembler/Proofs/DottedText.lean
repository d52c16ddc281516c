import StackAssembler.Proofs.Pieces
import StackAssembler.Proofs.Reachability
import StackAssembler.Proofs.StringStore

/-! Dotted names as texts. A text has dots where parts end, and a last part without a character leaves none behind, so
that some names read back as others. What a value carries is the text. -/
namespace StackAssembler

namespace DottedName

/-- The parts can be told apart in the text, and the last one is seen there. -/
structure Legible (a : DottedName) : Prop where
  undotted : ∀ p ∈ a.parts, '.' ∉ p.toList
  last : a.last? ≠ some ""

variable (a : DottedName) (s : String)

theorem toList_text : a.text.toList = ['.'].intercalate (a.parts.map String.toList) := by
  rw [text, String.toList_intercalate]
  rfl

theorem parse_eq : parse s = ⟨(Text.pieces '.' s.toList).map String.ofList⟩ := rfl

theorem map_toList_parse : (parse s).parts.map String.toList = Text.pieces '.' s.toList := by
  rw [parse_eq, List.map_map]
  simp [Function.comp_def]

/-- A name is what its characters are. -/
theorem ext_toList {a b : DottedName} (h : a.parts.map String.toList = b.parts.map String.toList) : a = b := by
  obtain ⟨ps⟩ := a
  obtain ⟨qs⟩ := b
  exact congrArg mk (List.map_injective_iff.mpr (fun _ _ => String.toList_inj.mp) h)

theorem undotted_parse : ∀ p ∈ (parse s).parts, '.' ∉ p.toList := by
  intro p hp
  have hpiece : p.toList ∈ Text.pieces '.' s.toList := by
    rw [← map_toList_parse]
    exact List.mem_map_of_mem hp
  exact Text.free_of_mem_pieces hpiece

theorem getLast?_toList : (a.parts.map String.toList).getLast? = some [] ↔ a.last? = some "" := by
  rw [last?, List.getLast?_map, Option.map_eq_some_iff]
  simp

theorem parse_text : parse a.text = a ↔ a.parts = [] ∨ a.Legible := by
  have hread (h : ∀ p ∈ a.parts, '.' ∉ p.toList) : (parse a.text).parts.map String.toList =
      if a.last? = some "" then (a.parts.map String.toList).dropLast else a.parts.map String.toList := by
    rw [map_toList_parse, toList_text, Text.pieces_intercalate (List.forall_mem_map.mpr h)]
    simp only [getLast?_toList]
  constructor
  · intro h
    have hundotted : ∀ p ∈ a.parts, '.' ∉ p.toList := h ▸ undotted_parse a.text
    refine or_iff_not_imp_left.mpr fun hne => ⟨hundotted, fun hlast => ?_⟩
    have hlength := congrArg List.length (hread hundotted)
    rw [h, if_pos hlast, List.length_dropLast, List.length_map] at hlength
    have := List.length_pos_iff.mpr hne
    omega
  · rintro (hnil | ⟨hundotted, hlast⟩)
    · obtain ⟨ps⟩ := a
      obtain rfl : ps = [] := hnil
      rfl
    · exact ext_toList ((hread hundotted).trans (if_neg hlast))

theorem text_parse :
    (parse s).text = if s.toList.getLast? = some '.' then String.ofList s.toList.dropLast else s := by
  rw [← String.toList_inj, toList_text, map_toList_parse, Text.intercalate_pieces]
  split <;> simp

theorem text_eq_empty_of_nil (h : a.parts = []) : a.text = "" := by
  rw [text, h, String.intercalate_nil]

/-- A name that is seen has a text. -/
theorem Legible.text_ne_empty {a : DottedName} (h : a.Legible) (hne : a.parts ≠ []) : a.text ≠ "" := by
  intro htext
  have hread := a.parse_text.mpr (.inr h)
  rw [htext] at hread
  exact hne (hread ▸ rfl)

end DottedName

namespace IR

/-- An instruction or a function reads under a tag as the string that it was just given under it. -/
theorem Edit.setString_reads {ctx : Context} {v : ValueId} (hv : (ctx.value v).kind.carries) (tag s : String) :
    ∃ ctx', Edit.setString v tag s ctx = .ok () ctx' ∧ ctx'.string? v tag = (some s).filter (· ≠ "") := by
  obtain ⟨hadds, htexts, -, -⟩ := ctx.addStringTuple_spec [s]
  have hv₁ : ((ctx.addStringTuple [s]).2.value v).kind.carries := by rwa [Context.value, hadds.values]
  obtain ⟨ctx', hattach, ha⟩ := attach_ok hv₁ tag (ctx.addStringTuple [s]).1
  refine ⟨ctx', ?_, ?_⟩
  · rw [Edit.setString, get_bind]
    cases hk : (ctx.value v).kind with
    | constant | argument => rw [hk] at hv; cases hv
    | instruction | function => exact hattach
  · have hnode (n : NodeId) : ctx'.node n = (ctx.addStringTuple [s]).2.node n := by rw [Context.node, ha.nodes]; rfl
    obtain ⟨m, hm, htext⟩ := htexts.text 0 s rfl
    rw [Context.string?_of_carries (by rwa [Context.value, ha.values]), ha.attached?, if_pos ⟨rfl, rfl⟩, Option.bind_some,
      List.head?_eq_getElem?, hnode, hm]
    dsimp only
    rw [hnode, htext, Node.leadingString?_text]

end IR

namespace DottedName
open IR

/-- A name reads back from its text if and only if it has no parts, or no part has a dot and the last one is not empty.
A text that is read and written again loses a dot at its end, and nothing else. An instruction or a function can always
be given a name; then it carries that name if and only if it has parts and reads back, and none if and only if the text
is empty. -/
theorem reads_back :
    (∀ a : DottedName, parse a.text = a ↔ a.parts = [] ∨ a.Legible) ∧
    (∀ s : String, (parse s).text =
      if s.toList.getLast? = some '.' then String.ofList s.toList.dropLast else s) ∧
    ∀ (ctx : Context) (v : ValueId) (a : DottedName), (ctx.value v).kind.carries →
      ∃ ctx', Edit.mark v a ctx = .ok () ctx' ∧
        (ctx'.mark? v = some a ↔ a.parts ≠ [] ∧ a.Legible) ∧ (ctx'.mark? v = none ↔ a.text = "") := by
  refine ⟨parse_text, text_parse, fun ctx v a hv => ?_⟩
  obtain ⟨ctx', hrun, hstring⟩ := Edit.setString_reads hv Tag.dottedName a.text
  have hmark : ctx'.mark? v = if a.text = "" then none else some (parse a.text) := by
    rw [Context.mark?, hstring]
    by_cases htext : a.text = "" <;> simp [Option.filter, htext]
  refine ⟨ctx', hrun, ?_, ?_⟩
  · rw [hmark]
    by_cases htext : a.text = ""
    · rw [if_pos htext]
      exact ⟨nofun, fun h => absurd htext (h.2.text_ne_empty h.1)⟩
    · have hne : a.parts ≠ [] := fun hnil => htext (a.text_eq_empty_of_nil hnil)
      rw [if_neg htext, Option.some_inj, a.parse_text]
      exact ⟨fun h => ⟨hne, h.resolve_left hne⟩, fun h => .inr h.2⟩
  · rw [hmark]
    by_cases htext : a.text = "" <;> simp [htext]

/-- The function of the sample is given a name with an empty part in front, and one with an empty part behind. -/
theorem reads_back_double :
    (∃ ctx', Edit.mark ⟨0⟩ ⟨["", "sym"]⟩ Build.Machine.double.context = .ok () ctx' ∧
      ctx'.mark? ⟨0⟩ = some ⟨["", "sym"]⟩) ∧
    ∃ ctx', Edit.mark ⟨0⟩ ⟨["sym", ""]⟩ Build.Machine.double.context = .ok () ctx' ∧
      ctx'.mark? ⟨0⟩ ≠ some ⟨["sym", ""]⟩ ∧ ctx'.mark? ⟨0⟩ ≠ none := by
  have hv : (Build.Machine.double.context.value ⟨0⟩).kind.carries := by decide +kernel
  constructor
  · obtain ⟨ctx', hrun, hsome, -⟩ := reads_back.2.2 _ ⟨0⟩ ⟨["", "sym"]⟩ hv
    exact ⟨ctx', hrun, hsome.mpr ⟨nofun, by decide, by decide⟩⟩
  · obtain ⟨ctx', hrun, hsome, hnone⟩ := reads_back.2.2 _ ⟨0⟩ ⟨["sym", ""]⟩ hv
    exact ⟨ctx', hrun, fun h => (hsome.mp h).2.last rfl, fun h => absurd (hnone.mp h) (by decide)⟩

end DottedName
end StackAssembler
