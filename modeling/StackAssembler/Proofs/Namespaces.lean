import Mathlib.Logic.Function.Iterate
import StackAssembler.Proofs.DottedText

/-! Names within other names. A name is within those that are left of it when last parts are taken away. Where no part
has a dot, its text tells: it starts with the text of the other name and a dot. -/
namespace StackAssembler.DottedName
variable {a b ns : DottedName}

theorem isWithin_iff : a.isWithin ns ↔ ∃ qs ≠ [], a.parts = ns.parts ++ qs := by
  rw [isWithin, Bool.and_eq_true, decide_eq_true_eq, List.isPrefixOf_iff_prefix, size, size]
  constructor
  · rintro ⟨hlt, qs, hqs⟩
    refine ⟨qs, ?_, hqs.symm⟩
    rintro rfl
    rw [← hqs, List.append_nil] at hlt
    exact lt_irrefl _ hlt
  · rintro ⟨qs, hne, hparts⟩
    rw [hparts, List.length_append]
    exact ⟨Nat.lt_add_of_pos_right (List.length_pos_iff.mpr hne), List.prefix_append _ _⟩

theorem not_isWithin_self (a : DottedName) : ¬a.isWithin a := by
  rw [isWithin_iff]
  rintro ⟨qs, hne, hparts⟩
  exact hne (List.self_eq_append_right.mp hparts)

theorem isWithin_trans (hab : a.isWithin b) (hb : b.isWithin ns) : a.isWithin ns := by
  obtain ⟨ps, -, ha⟩ := isWithin_iff.mp hab
  obtain ⟨qs, hne, hb⟩ := isWithin_iff.mp hb
  refine isWithin_iff.mpr ⟨qs ++ ps, List.append_ne_nil_of_left_ne_nil hne ps, ?_⟩
  rw [ha, hb, List.append_assoc]

/-! ### Parents -/

theorem parts_iterate_parent (a : DottedName) (k : Nat) : (parent^[k] a).parts = a.parts.take (a.size - k) := by
  induction k with
  | zero => exact List.take_length.symm
  | succ k ih =>
    rw [Function.iterate_succ_apply', parent, ih, List.dropLast_eq_take, List.take_take, List.length_take]
    refine congrArg (a.parts.take ·) ?_
    rw [size]
    omega

theorem isWithin_iff_parent : a.isWithin ns ↔ ∃ k, 1 ≤ k ∧ k ≤ a.size ∧ parent^[k] a = ns := by
  have hext (k : Nat) : parent^[k] a = ns ↔ a.parts.take (a.size - k) = ns.parts := by
    rw [← parts_iterate_parent]
    exact ⟨congrArg parts, fun h => ext_toList (congrArg (List.map String.toList) h)⟩
  rw [isWithin_iff]
  constructor
  · rintro ⟨qs, hne, hparts⟩
    have hsize : a.size = ns.size + qs.length := by rw [size, hparts, List.length_append, size]
    refine ⟨qs.length, List.length_pos_iff.mpr hne, by omega, (hext _).mpr ?_⟩
    rw [hsize, Nat.add_sub_cancel, hparts]
    exact List.take_left
  · rintro ⟨k, hpos, hle, hk⟩
    refine ⟨a.parts.drop (a.size - k), ?_, ?_⟩
    · rw [← List.length_pos_iff, List.length_drop]
      rw [size] at hle ⊢
      omega
    · rw [← (hext k).mp hk, List.take_append_drop]

/-! ### Texts -/

/-- The parts of a name stand between the dots of its text. -/
theorem splitOn_text (ha : ∀ p ∈ a.parts, '.' ∉ p.toList) (hne : a.parts ≠ []) :
    a.text.toList.splitOn '.' = a.parts.map String.toList := by
  rw [toList_text, List.splitOn_intercalate '.' (List.forall_mem_map.mpr ha) (List.map_eq_nil_iff.not.mpr hne)]

theorem isWithin_iff_text (ha : ∀ p ∈ a.parts, '.' ∉ p.toList) (hns : ∀ p ∈ ns.parts, '.' ∉ p.toList)
    (hne : ns.parts ≠ []) : a.isWithin ns ↔ a.text.startsWith (ns.text ++ ".") := by
  rw [isWithin_iff, String.startsWith_string_iff, String.toList_append]
  constructor
  · rintro ⟨qs, hqs, hparts⟩
    have htext : a.text = ns.text ++ "." ++ ".".intercalate qs := by
      rw [text, hparts, String.intercalate_append_of_ne_nil hne hqs]
      rfl
    rw [htext, String.toList_append, String.toList_append]
    exact List.prefix_append _ _
  · rintro ⟨rest, hrest⟩
    have hnea : a.parts ≠ [] := by
      intro hnil
      rw [a.text_eq_empty_of_nil hnil] at hrest
      simp at hrest
    -- what stands between the dots is what does in the text of the outer name, and then in the rest
    have hsplit : a.parts.map String.toList = ns.parts.map String.toList ++ rest.splitOn '.' := by
      rw [← splitOn_text ha hnea, ← splitOn_text hns hne, ← List.splitOn_append_cons_self, ← hrest, List.append_assoc]
      rfl
    obtain ⟨ps, qs, hparts, hps, hqs⟩ := List.map_eq_append_iff.mp hsplit
    obtain rfl : ps = ns.parts := List.map_injective_iff.mpr (fun _ _ => String.toList_inj.mp) hps
    refine ⟨qs, ?_, hparts⟩
    rintro rfl
    exact List.splitOn_ne_nil _ _ hqs.symm

/-- To be within another name is to come to it when last parts are taken away, once at least and at most as often as
there are parts. No name is within itself, and a name within a second one is within those that the second one is in. If
no part has a dot and the outer name has a part, then to be within it is to have a text that starts with its text and a
dot. -/
theorem isWithin_views :
    (∀ a ns : DottedName, a.isWithin ns ↔ ∃ k, 1 ≤ k ∧ k ≤ a.size ∧ parent^[k] a = ns) ∧
    (∀ a : DottedName, ¬a.isWithin a) ∧
    (∀ a b ns : DottedName, a.isWithin b → b.isWithin ns → a.isWithin ns) ∧
    ∀ a ns : DottedName, (∀ p ∈ a.parts ++ ns.parts, '.' ∉ p.toList) → ns.parts ≠ [] →
      (a.isWithin ns ↔ a.text.startsWith (ns.text ++ ".")) :=
  ⟨fun _ _ => isWithin_iff_parent, not_isWithin_self, fun _ _ _ => isWithin_trans, fun _ _ h hne =>
    isWithin_iff_text (fun p hp => h p (List.mem_append_left _ hp)) (fun p hp => h p (List.mem_append_right _ hp)) hne⟩

/-- `lart.abstract.sym` is within `lart.abstract`, and so within `lart`. It is not within `lart.abs`, the text of which
starts its own text all the same. -/
theorem isWithin_views_sym :
    DottedName.isWithin ⟨["lart", "abstract", "sym"]⟩ ⟨["lart"]⟩ ∧
    "lart.abstract.sym".startsWith "lart.abstract." ∧
    "lart.abstract.sym".startsWith "lart.abs" ∧ ¬DottedName.isWithin ⟨["lart", "abstract", "sym"]⟩ ⟨["lart", "abs"]⟩ := by
  obtain ⟨hparent, -, htrans, htext⟩ := isWithin_views
  have hwithin : DottedName.isWithin ⟨["lart", "abstract", "sym"]⟩ ⟨["lart", "abstract"]⟩ :=
    (hparent _ _).mpr ⟨1, by decide, by decide, rfl⟩
  refine ⟨htrans _ _ _ hwithin (by decide), ?_, String.startsWith_string_iff.mpr (by decide), fun h => ?_⟩
  · exact (htext ⟨["lart", "abstract", "sym"]⟩ ⟨["lart", "abstract"]⟩ (by decide) (by decide)).mp hwithin
  · exact absurd (String.startsWith_string_iff.mp ((htext _ _ (by decide) (by decide)).mp h)) (by decide)

end StackAssembler.DottedName
