import Mathlib.Data.Set.Card
import StackAssembler.Proofs.Bijection

/-! A table is a one-to-one relation. Whatever calls are made, it answers what the relation says, and so do two hash
maps that are changed one after the other: there is never half of a pair in them. -/
namespace StackAssembler.Bijection
variable {α β : Type}

/-- A call that may change a table. -/
inductive Call (α β : Type) where
  | insert (a : α) (b : β)
  | eraseLeft (a : α)
  | eraseRight (b : β)

/-- What a call answers. -/
inductive Answer (α β : Type) where
  | inserted (r : Except BijectionError Bool)
  | erased (p? : Option (α × β))

/-! ### Relations -/

/-- Each left key has at most one partner, and each right key. -/
structure OneToOne (R : Set (α × β)) : Prop where
  right : ∀ a b b', (a, b) ∈ R → (a, b') ∈ R → b = b'
  left : ∀ a a' b, (a, b) ∈ R → (a', b) ∈ R → a = a'

/-- What a call answers on a relation, and what it makes of it. -/
inductive Call.Means (R : Set (α × β)) : Call α β → Answer α β → Set (α × β) → Prop where
  | added {a : α} {b : β} : (∀ b', (a, b') ∉ R) → (∀ a', (a', b) ∉ R) →
      Means R (.insert a b) (.inserted (.ok true)) (R ∪ {(a, b)})
  | present {a : α} {b : β} : (a, b) ∈ R → Means R (.insert a b) (.inserted (.ok false)) R
  | leftTaken {a : α} {b b' : β} : (a, b') ∈ R → b' ≠ b →
      Means R (.insert a b) (.inserted (.error .leftTaken)) R
  | rightTaken {a a' : α} {b : β} : (∀ b', (a, b') ∉ R) → (a', b) ∈ R →
      Means R (.insert a b) (.inserted (.error .rightTaken)) R
  | erasedLeft {a : α} {b : β} : (a, b) ∈ R → Means R (.eraseLeft a) (.erased (some (a, b))) (R \ {(a, b)})
  | noLeft {a : α} : (∀ b, (a, b) ∉ R) → Means R (.eraseLeft a) (.erased none) R
  | erasedRight {a : α} {b : β} : (a, b) ∈ R → Means R (.eraseRight b) (.erased (some (a, b))) (R \ {(a, b)})
  | noRight {b : β} : (∀ a, (a, b) ∉ R) → Means R (.eraseRight b) (.erased none) R

/-- What calls answer on a relation, one after another, and what they make of it in the end. -/
inductive Call.MeanAll : Set (α × β) → List (Call α β) → List (Answer α β) → Set (α × β) → Prop where
  | nil {R : Set (α × β)} : MeanAll R [] [] R
  | cons {R S T : Set (α × β)} {c : Call α β} {cs : List (Call α β)} {r : Answer α β} {rs : List (Answer α β)} :
      Means R c r S → MeanAll S cs rs T → MeanAll R (c :: cs) (r :: rs) T

namespace OneToOne
variable {R S : Set (α × β)} {a : α} {b : β}

theorem mono (h : OneToOne R) (hS : S ⊆ R) : OneToOne S :=
  ⟨fun a b b' hb hb' => h.right a b b' (hS hb) (hS hb'), fun a a' b ha ha' => h.left a a' b (hS ha) (hS ha')⟩

theorem add (h : OneToOne R) (ha : ∀ b', (a, b') ∉ R) (hb : ∀ a', (a', b) ∉ R) : OneToOne (R ∪ {(a, b)}) := by
  constructor
  · rintro x y y' (hy | hy) (hy' | hy')
    · exact h.right x y y' hy hy'
    · exact absurd ((Prod.mk.inj hy').1 ▸ hy) (ha y)
    · exact absurd ((Prod.mk.inj hy).1 ▸ hy') (ha y')
    · rw [(Prod.mk.inj hy).2, (Prod.mk.inj hy').2]
  · rintro x x' y (hx | hx) (hx' | hx')
    · exact h.left x x' y hx hx'
    · exact absurd ((Prod.mk.inj hx').2 ▸ hx) (hb x)
    · exact absurd ((Prod.mk.inj hx).2 ▸ hx') (hb x')
    · rw [(Prod.mk.inj hx).1, (Prod.mk.inj hx').1]

/-- Of the pairs of a relation, only one has its left key. -/
theorem mem_diff_left (h : OneToOne R) (hab : (a, b) ∈ R) (x : α) (y : β) :
    (x, y) ∈ R \ {(a, b)} ↔ (x, y) ∈ R ∧ x ≠ a := by
  refine and_congr_right fun hxy => not_congr ⟨fun he => (Prod.mk.inj he).1, ?_⟩
  rintro rfl
  rw [Set.mem_singleton_iff, h.right x y b hxy hab]

/-- Of the pairs of a relation, only one has its right key. -/
theorem mem_diff_right (h : OneToOne R) (hab : (a, b) ∈ R) (x : α) (y : β) :
    (x, y) ∈ R \ {(a, b)} ↔ (x, y) ∈ R ∧ y ≠ b := by
  refine and_congr_right fun hxy => not_congr ⟨fun he => (Prod.mk.inj he).2, ?_⟩
  rintro rfl
  rw [Set.mem_singleton_iff, h.left x a y hxy hab]

end OneToOne

/-! ### What can be seen of a table -/

/-- What a table answers to those who only look. -/
structure View (α β : Type) where
  right? : α → Option β
  left? : β → Option α
  hasLeft : α → Bool
  hasRight : β → Bool
  pairs : List (α × β)
  size : Nat

/-- A view of a relation. The pairs are listed once each. -/
structure View.Shows (v : View α β) (R : Set (α × β)) : Prop where
  right : ∀ a b, v.right? a = some b ↔ (a, b) ∈ R
  left : ∀ a b, v.left? b = some a ↔ (a, b) ∈ R
  hasLeft : ∀ a, v.hasLeft a ↔ ∃ b, (a, b) ∈ R
  hasRight : ∀ b, v.hasRight b ↔ ∃ a, (a, b) ∈ R
  pairs : ∀ p, p ∈ v.pairs ↔ p ∈ R
  lefts : (v.pairs.map Prod.fst).Nodup
  rights : (v.pairs.map Prod.snd).Nodup
  size : v.size = R.ncard

section
variable {R : Set (α × β)} {ps : List (α × β)}

private theorem isSome_iff_exists_mem {γ : Type} {o : Option γ} {P : γ → Prop} (h : ∀ c, o = some c ↔ P c) :
    o.isSome ↔ ∃ c, P c := by
  rw [Option.isSome_iff_exists]
  exact exists_congr h

/-- A list without repetitions is as long as the set of its items is large. -/
private theorem length_eq_ncard (h : ps.Nodup) (hR : ∀ p, p ∈ ps ↔ p ∈ R) : ps.length = R.ncard := by
  classical
  have hset : R = (ps.toFinset : Set (α × β)) := by
    ext p
    rw [Finset.mem_coe, List.mem_toFinset, hR]
  rw [hset, Set.ncard_coe_finset, List.toFinset_card_of_nodup h]

/-- Where left keys do not repeat in a list of the pairs of a one-to-one relation, right keys do not, either. -/
private theorem nodup_rights (h : OneToOne R) (hl : (ps.map Prod.fst).Nodup) (hR : ∀ p, p ∈ ps ↔ p ∈ R) :
    (ps.map Prod.snd).Nodup := by
  refine List.Nodup.map_on (fun p hp q hq he => ?_) hl.of_map
  obtain ⟨a, b⟩ := p
  obtain ⟨a', b'⟩ := q
  obtain rfl : b = b' := he
  rw [h.left a a' b ((hR _).mp hp) ((hR _).mp hq)]

end

/-! ### Tables -/

def relation (m : Bijection α β) : Set (α × β) := {p | p ∈ m.pairs}

theorem relation_concat (m : Bijection α β) (a : α) (b : β) :
    (⟨m.pairs ++ [(a, b)]⟩ : Bijection α β).relation = m.relation ∪ {(a, b)} := by
  ext p
  simp [relation, or_comm]

theorem Valid.empty : (Bijection.empty : Bijection α β).Valid := ⟨List.nodup_nil, List.nodup_nil⟩

theorem Valid.filter {m : Bijection α β} (h : m.Valid) (q : α × β → Bool) : (⟨m.pairs.filter q⟩ : Bijection α β).Valid :=
  ⟨h.lefts.sublist (List.filter_sublist.map _), h.rights.sublist (List.filter_sublist.map _)⟩

theorem Valid.concat {m : Bijection α β} (h : m.Valid) {a : α} {b : β} (ha : ∀ b', (a, b') ∉ m.relation)
    (hb : ∀ a', (a', b) ∉ m.relation) : (⟨m.pairs ++ [(a, b)]⟩ : Bijection α β).Valid := by
  have hleft : a ∉ m.pairs.map Prod.fst := fun hin => by
    obtain ⟨⟨_, b'⟩, hp, rfl⟩ := List.mem_map.mp hin
    exact ha b' hp
  have hright : b ∉ m.pairs.map Prod.snd := fun hin => by
    obtain ⟨⟨a', _⟩, hp, rfl⟩ := List.mem_map.mp hin
    exact hb a' hp
  exact ⟨by simpa using h.lefts.concat hleft, by simpa using h.rights.concat hright⟩

theorem Valid.notMem_of_right? [DecidableEq α] {m : Bijection α β} (h : m.Valid) {a : α} (hn : m.right? a = none) (b : β) :
    (a, b) ∉ m.relation := fun hin => by
  rw [h.right?_eq_some.mpr hin] at hn
  cases hn

theorem Valid.notMem_of_left? [DecidableEq β] {m : Bijection α β} (h : m.Valid) {b : β} (hn : m.left? b = none) (a : α) :
    (a, b) ∉ m.relation := fun hin => by
  rw [h.left?_eq_some.mpr hin] at hn
  cases hn

section
variable [DecidableEq α] [DecidableEq β]

def Call.run (m : Bijection α β) : Call α β → Answer α β × Bijection α β
  | insert a b =>
    match m.insert a b with
    | .ok (added, m) => (.inserted (.ok added), m)
    | .error e => (.inserted (.error e), m)
  | eraseLeft a => (.erased (m.eraseLeft a).1, (m.eraseLeft a).2)
  | eraseRight b => (.erased (m.eraseRight b).1, (m.eraseRight b).2)

/-- The answers to calls, and the table that they leave. -/
def runAll (m : Bijection α β) : List (Call α β) → List (Answer α β) × Bijection α β
  | [] => ([], m)
  | c :: cs => ((c.run m).1 :: (runAll (c.run m).2 cs).1, (runAll (c.run m).2 cs).2)

def view (m : Bijection α β) : View α β where
  right? := m.right?
  left? := m.left?
  hasLeft a := (m.right? a).isSome
  hasRight b := (m.left? b).isSome
  pairs := m.pairs
  size := m.size

namespace Valid
variable {m : Bijection α β} (h : m.Valid)
include h

theorem oneToOne : OneToOne m.relation := by
  constructor
  · intro a b b' hb hb'
    exact Option.some.inj ((h.right?_eq_some.mpr hb).symm.trans (h.right?_eq_some.mpr hb'))
  · intro a a' b ha ha'
    exact Option.some.inj ((h.left?_eq_some.mpr ha).symm.trans (h.left?_eq_some.mpr ha'))

theorem shows_view : m.view.Shows m.relation where
  right _ _ := h.right?_eq_some
  left _ _ := h.left?_eq_some
  hasLeft _ := isSome_iff_exists_mem fun _ => h.right?_eq_some
  hasRight _ := isSome_iff_exists_mem fun _ => h.left?_eq_some
  pairs _ := Iff.rfl
  lefts := h.lefts
  rights := h.rights
  size := length_eq_ncard h.lefts.of_map fun _ => Iff.rfl

theorem means_insert (a : α) (b : β) : (Call.insert a b).Means m.relation ((Call.insert a b).run m).1
    ((Call.insert a b).run m).2.relation ∧ ((Call.insert a b).run m).2.Valid := by
  rw [Call.run, Bijection.insert]
  cases hr : m.right? a with
  | some b₀ =>
    have hin : (a, b₀) ∈ m.relation := h.right?_eq_some.mp hr
    by_cases he : b₀ = b
    · rw [he] at hin
      simpa only [he, if_pos] using ⟨.present hin, h⟩
    · simpa only [if_neg he] using ⟨.leftTaken hin he, h⟩
  | none =>
    have ha := h.notMem_of_right? hr
    cases hl : m.left? b with
    | some a' => exact ⟨.rightTaken ha (h.left?_eq_some.mp hl), h⟩
    | none =>
      have hb := h.notMem_of_left? hl
      exact ⟨relation_concat m a b ▸ .added ha hb, h.concat ha hb⟩

theorem means_eraseLeft (a : α) : (Call.eraseLeft a).Means m.relation (.erased (m.eraseLeft a).1)
    (m.eraseLeft a).2.relation := by
  have hleft (x : α) (y : β) : (x, y) ∈ (m.eraseLeft a).2.relation ↔ (x, y) ∈ m.relation ∧ x ≠ a := by
    simp [relation, eraseLeft]
  cases hf : m.pairs.find? fun p => p.1 = a with
  | some p =>
    obtain ⟨x, b⟩ := p
    obtain rfl : x = a := by simpa using List.find?_some hf
    have hin : (x, b) ∈ m.relation := List.mem_of_find?_eq_some hf
    have hrel : (m.eraseLeft x).2.relation = m.relation \ {(x, b)} := by
      ext ⟨x', y⟩
      rw [hleft, h.oneToOne.mem_diff_left hin]
    rw [hrel, eraseLeft, hf]
    exact .erasedLeft hin
  | none =>
    have hr : m.right? a = none := by rw [right?, hf, Option.map_none]
    have ha := h.notMem_of_right? hr
    have hrel : (m.eraseLeft a).2.relation = m.relation := by
      ext ⟨x, y⟩
      rw [hleft, and_iff_left_iff_imp]
      rintro hin rfl
      exact ha y hin
    rw [hrel, eraseLeft, hf]
    exact .noLeft ha

theorem means_eraseRight (b : β) : (Call.eraseRight b).Means m.relation (.erased (m.eraseRight b).1)
    (m.eraseRight b).2.relation := by
  have hright (x : α) (y : β) : (x, y) ∈ (m.eraseRight b).2.relation ↔ (x, y) ∈ m.relation ∧ y ≠ b := by
    simp [relation, eraseRight]
  cases hf : m.pairs.find? fun p => p.2 = b with
  | some p =>
    obtain ⟨a, y⟩ := p
    obtain rfl : y = b := by simpa using List.find?_some hf
    have hin : (a, y) ∈ m.relation := List.mem_of_find?_eq_some hf
    have hrel : (m.eraseRight y).2.relation = m.relation \ {(a, y)} := by
      ext ⟨x, y'⟩
      rw [hright, h.oneToOne.mem_diff_right hin]
    rw [hrel, eraseRight, hf]
    exact .erasedRight hin
  | none =>
    have hl : m.left? b = none := by rw [left?, hf, Option.map_none]
    have hb := h.notMem_of_left? hl
    have hrel : (m.eraseRight b).2.relation = m.relation := by
      ext ⟨x, y⟩
      rw [hright, and_iff_left_iff_imp]
      rintro hin rfl
      exact hb x hin
    rw [hrel, eraseRight, hf]
    exact .noRight hb

/-- A call does to the pairs of a table what it means. -/
theorem run (c : Call α β) : c.Means m.relation (c.run m).1 (c.run m).2.relation ∧ (c.run m).2.Valid := by
  cases c with
  | insert a b => exact h.means_insert a b
  | eraseLeft a => exact ⟨h.means_eraseLeft a, h.filter _⟩
  | eraseRight b => exact ⟨h.means_eraseRight b, h.filter _⟩

end Valid
end

/-! ### Two hash maps -/

section
variable [DecidableEq α] [DecidableEq β] [Hashable α] [Hashable β]

/-- Two maps, one from left to right keys and one back. -/
structure Hashed (α β : Type) [DecidableEq α] [DecidableEq β] [Hashable α] [Hashable β] where
  rights : Std.HashMap α β := ∅
  lefts : Std.HashMap β α := ∅

namespace Hashed

def insert (t : Hashed α β) (a : α) (b : β) : Except BijectionError Bool × Hashed α β :=
  match t.rights[a]? with
  | some b₀ => (if b₀ = b then .ok false else .error .leftTaken, t)
  | none =>
    if t.lefts.contains b then (.error .rightTaken, t)
    else (.ok true, ⟨t.rights.insert a b, t.lefts.insert b a⟩)

/-- If the way back is missing, the way there is gone nevertheless. -/
def eraseLeft (t : Hashed α β) (a : α) : Option (α × β) × Hashed α β :=
  match t.rights[a]? with
  | none => (none, t)
  | some b =>
    match t.lefts[b]? with
    | none => (none, { t with rights := t.rights.erase a })
    | some a => (some (a, b), ⟨t.rights.erase a, t.lefts.erase b⟩)

/-- If the way back is missing, the way there is gone nevertheless. -/
def eraseRight (t : Hashed α β) (b : β) : Option (α × β) × Hashed α β :=
  match t.lefts[b]? with
  | none => (none, t)
  | some a =>
    match t.rights[a]? with
    | none => (none, { t with lefts := t.lefts.erase b })
    | some b => (some (a, b), ⟨t.rights.erase a, t.lefts.erase b⟩)

def call (t : Hashed α β) : Call α β → Answer α β × Hashed α β
  | .insert a b => (.inserted (t.insert a b).1, (t.insert a b).2)
  | .eraseLeft a => (.erased (t.eraseLeft a).1, (t.eraseLeft a).2)
  | .eraseRight b => (.erased (t.eraseRight b).1, (t.eraseRight b).2)

def runAll (t : Hashed α β) : List (Call α β) → List (Answer α β) × Hashed α β
  | [] => ([], t)
  | c :: cs => ((t.call c).1 :: ((t.call c).2.runAll cs).1, ((t.call c).2.runAll cs).2)

def view (t : Hashed α β) : View α β where
  right? a := t.rights[a]?
  left? b := t.lefts[b]?
  hasLeft a := t.rights.contains a
  hasRight b := t.lefts.contains b
  pairs := t.rights.toList
  size := t.rights.size

/-- The maps hold the pairs of a relation, each in both directions. -/
structure Holds (t : Hashed α β) (R : Set (α × β)) : Prop where
  oneToOne : OneToOne R
  rights : ∀ a b, t.rights[a]? = some b ↔ (a, b) ∈ R
  lefts : ∀ a b, t.lefts[b]? = some a ↔ (a, b) ∈ R

namespace Holds
variable {t : Hashed α β} {R S : Set (α × β)}

theorem empty : ({} : Hashed α β).Holds ∅ :=
  ⟨⟨fun _ _ _ h => h.elim, fun _ _ _ h => h.elim⟩, by simp, by simp⟩

theorem shows_view (h : t.Holds R) : t.view.Shows R := by
  have hpairs (p : α × β) : p ∈ t.rights.toList ↔ p ∈ R :=
    Std.HashMap.mem_toList_iff_getElem?_eq_some.trans (h.rights p.1 p.2)
  have hlefts : (t.rights.toList.map Prod.fst).Nodup := by
    rw [Std.HashMap.map_fst_toList_eq_keys]
    exact Std.HashMap.nodup_keys
  exact {
    right := h.rights
    left := h.lefts
    hasLeft := fun a => by
      change t.rights.contains a ↔ _
      rw [Std.HashMap.contains_eq_isSome_getElem?]
      exact isSome_iff_exists_mem (h.rights a)
    hasRight := fun b => by
      change t.lefts.contains b ↔ _
      rw [Std.HashMap.contains_eq_isSome_getElem?]
      exact isSome_iff_exists_mem fun a => h.lefts a b
    pairs := hpairs
    lefts := hlefts
    rights := nodup_rights h.oneToOne hlefts hpairs
    size := Std.HashMap.length_toList.symm.trans (length_eq_ncard hlefts.of_map hpairs) }

theorem erase (h : t.Holds R) {a : α} {b : β} (hab : (a, b) ∈ R) :
    (⟨t.rights.erase a, t.lefts.erase b⟩ : Hashed α β).Holds (R \ {(a, b)}) where
  oneToOne := h.oneToOne.mono Set.sdiff_subset
  rights x y := by
    rw [Std.HashMap.getElem?_erase, h.oneToOne.mem_diff_left hab, ← h.rights]
    by_cases hx : a = x
    · simp [hx]
    · simp [hx, Ne.symm hx]
  lefts x y := by
    rw [Std.HashMap.getElem?_erase, h.oneToOne.mem_diff_right hab, ← h.lefts]
    by_cases hy : b = y
    · simp [hy]
    · simp [hy, Ne.symm hy]

theorem insert (h : t.Holds R) {a : α} {b : β} (ha : ∀ b', (a, b') ∉ R) (hb : ∀ a', (a', b) ∉ R) :
    (⟨t.rights.insert a b, t.lefts.insert b a⟩ : Hashed α β).Holds (R ∪ {(a, b)}) where
  oneToOne := h.oneToOne.add ha hb
  rights x y := by
    rw [Std.HashMap.getElem?_insert, Set.mem_union, Set.mem_singleton_iff, ← h.rights]
    by_cases hx : a = x
    · have hn := (h.rights x y).not.mpr (hx ▸ ha y)
      simp [hx, hn, eq_comm]
    · simp [hx, Ne.symm hx]
  lefts x y := by
    rw [Std.HashMap.getElem?_insert, Set.mem_union, Set.mem_singleton_iff, ← h.lefts]
    by_cases hy : b = y
    · have hn := (h.lefts x y).not.mpr (hy ▸ hb x)
      simp [hy, hn, eq_comm]
    · simp [hy, Ne.symm hy]

theorem right_eq_none (h : t.Holds R) {a : α} (ha : ∀ b, (a, b) ∉ R) : t.rights[a]? = none :=
  Option.eq_none_iff_forall_ne_some.mpr fun b hb => ha b ((h.rights a b).mp hb)

theorem left_eq_none (h : t.Holds R) {b : β} (hb : ∀ a, (a, b) ∉ R) : t.lefts[b]? = none :=
  Option.eq_none_iff_forall_ne_some.mpr fun a ha => hb a ((h.lefts a b).mp ha)

/-- The maps answer to a call what it means, and hold what it makes of the relation. -/
theorem call (h : t.Holds R) {c : Call α β} {r : Answer α β} (hc : c.Means R r S) :
    (t.call c).1 = r ∧ (t.call c).2.Holds S := by
  have right {a : α} {b : β} (hab : (a, b) ∈ R) : t.rights[a]? = some b := (h.rights a b).mpr hab
  have left {a : α} {b : β} (hab : (a, b) ∈ R) : t.lefts[b]? = some a := (h.lefts a b).mpr hab
  cases hc with
  | added ha hb =>
    rw [Hashed.call, Hashed.insert, h.right_eq_none ha, Std.HashMap.contains_eq_isSome_getElem?, h.left_eq_none hb]
    exact ⟨rfl, h.insert ha hb⟩
  | present hab =>
    rw [Hashed.call, Hashed.insert, right hab]
    simpa using h
  | leftTaken hab hne =>
    rw [Hashed.call, Hashed.insert, right hab]
    simpa [hne] using h
  | rightTaken ha hab =>
    rw [Hashed.call, Hashed.insert, h.right_eq_none ha, Std.HashMap.contains_eq_isSome_getElem?, left hab]
    exact ⟨rfl, h⟩
  | erasedLeft hab =>
    rw [Hashed.call, Hashed.eraseLeft, right hab]
    dsimp only
    rw [left hab]
    exact ⟨rfl, h.erase hab⟩
  | noLeft ha =>
    rw [Hashed.call, Hashed.eraseLeft, h.right_eq_none ha]
    exact ⟨rfl, h⟩
  | erasedRight hab =>
    rw [Hashed.call, Hashed.eraseRight, left hab]
    dsimp only
    rw [right hab]
    exact ⟨rfl, h.erase hab⟩
  | noRight hb =>
    rw [Hashed.call, Hashed.eraseRight, h.left_eq_none hb]
    exact ⟨rfl, h⟩

end Holds
end Hashed

/-- Calls on a table that holds the same as two maps: the answers are the same, and what they mean. -/
theorem Valid.runAll {m : Bijection α β} {t : Hashed α β} (h : m.Valid) (ht : t.Holds m.relation) (calls : List (Call α β)) :
    Call.MeanAll m.relation calls (m.runAll calls).1 (m.runAll calls).2.relation ∧ (m.runAll calls).2.Valid ∧
      (t.runAll calls).1 = (m.runAll calls).1 ∧ (t.runAll calls).2.Holds (m.runAll calls).2.relation := by
  induction calls generalizing m t with
  | nil => exact ⟨.nil, h, rfl, ht⟩
  | cons c cs ih =>
    obtain ⟨hmeans, hvalid⟩ := h.run c
    obtain ⟨hanswer, hholds⟩ := ht.call hmeans
    obtain ⟨hall, hv, hanswers, hh⟩ := ih hvalid hholds
    refine ⟨.cons hmeans hall, hv, ?_, hh⟩
    rw [Hashed.runAll, hanswer, hanswers, Bijection.runAll]

/-- Whatever is inserted into a new table and erased from it, the answers are those of a one-to-one relation that is
empty first, and the table shows what the relation has become. Two hash maps, each changed in its turn, answer the same
and show the same. -/
theorem runAll_oneToOne (calls : List (Call α β)) :
    ∃ R, Call.MeanAll ∅ calls (Bijection.empty.runAll calls).1 R ∧ OneToOne R ∧
      (Bijection.empty.runAll calls).2.view.Shows R ∧
      (Hashed.runAll {} calls).1 = (Bijection.empty.runAll calls).1 ∧ (Hashed.runAll {} calls).2.view.Shows R := by
  have hempty : (Bijection.empty : Bijection α β).relation = ∅ := by simp [relation, Bijection.empty]
  obtain ⟨hmeans, hvalid, hanswers, hholds⟩ := Valid.empty.runAll (hempty ▸ Hashed.Holds.empty) calls
  exact ⟨_, hempty ▸ hmeans, hvalid.oneToOne, hvalid.shows_view, hanswers, hholds.shows_view⟩

end
end StackAssembler.Bijection
