import Mathlib.Data.List.Nodup
import StackAssembler.Bijection

/-! Tables in which no left and no right key occurs twice answer both look-ups with the pairs that they hold. -/
namespace StackAssembler.Bijection
variable {α β : Type} {a : α} {b : β}

/-- No two pairs share a left key or a right key. -/
structure Valid (m : Bijection α β) : Prop where
  lefts : (m.pairs.map Prod.fst).Nodup
  rights : (m.pairs.map Prod.snd).Nodup

section Right
variable [DecidableEq α] {m : Bijection α β}

theorem mem_of_right? (h : m.right? a = some b) : (a, b) ∈ m.pairs := by
  obtain ⟨p, hp, rfl⟩ := Option.map_eq_some_iff.mp h
  have hk : p.1 = a := by simpa using List.find?_some hp
  rw [← hk]
  exact List.mem_of_find?_eq_some hp

theorem isSome_right? : (m.right? a).isSome ↔ a ∈ m.pairs.map Prod.fst := by
  rw [right?, Option.isSome_map, List.find?_isSome, List.mem_map]
  simp only [decide_eq_true_eq]

theorem Valid.right?_eq_some (h : m.Valid) : m.right? a = some b ↔ (a, b) ∈ m.pairs := by
  refine ⟨mem_of_right?, fun hin => ?_⟩
  obtain ⟨c, hc⟩ := Option.isSome_iff_exists.mp (isSome_right?.mpr (List.mem_map_of_mem hin))
  have := List.inj_on_of_nodup_map h.lefts hin (mem_of_right? hc) rfl
  rw [hc, (Prod.mk.inj this).2]

end Right

section Left
variable [DecidableEq β] {m : Bijection α β}

theorem mem_of_left? (h : m.left? b = some a) : (a, b) ∈ m.pairs := by
  obtain ⟨p, hp, rfl⟩ := Option.map_eq_some_iff.mp h
  have hk : p.2 = b := by simpa using List.find?_some hp
  rw [← hk]
  exact List.mem_of_find?_eq_some hp

theorem isSome_left? : (m.left? b).isSome ↔ b ∈ m.pairs.map Prod.snd := by
  rw [left?, Option.isSome_map, List.find?_isSome, List.mem_map]
  simp only [decide_eq_true_eq]

theorem Valid.left?_eq_some (h : m.Valid) : m.left? b = some a ↔ (a, b) ∈ m.pairs := by
  refine ⟨mem_of_left?, fun hin => ?_⟩
  obtain ⟨c, hc⟩ := Option.isSome_iff_exists.mp (isSome_left?.mpr (List.mem_map_of_mem hin))
  have := List.inj_on_of_nodup_map h.rights hin (mem_of_left? hc) rfl
  rw [hc, (Prod.mk.inj this).1]

end Left

/-- Looking up in one direction undoes looking up in the other. -/
theorem Valid.right?_iff_left? [DecidableEq α] [DecidableEq β] {m : Bijection α β} (h : m.Valid) :
    m.right? a = some b ↔ m.left? b = some a := by
  rw [h.right?_eq_some, h.left?_eq_some]

end StackAssembler.Bijection
