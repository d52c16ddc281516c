import StackAssembler.Proofs.OneToOne

/-! Tables from lists of pairs. Each pair is judged against the ones that were read before it, but whether all of them
fit is a property of the list as a set, and so is the table. -/
namespace StackAssembler.Bijection
variable {α β : Type}

/-- Two views that answer the same. The pairs may be listed in different orders. -/
structure View.Same (v w : View α β) : Prop where
  right : v.right? = w.right?
  left : v.left? = w.left?
  hasLeft : v.hasLeft = w.hasLeft
  hasRight : v.hasRight = w.hasRight
  pairs : v.pairs.Perm w.pairs
  size : v.size = w.size

/-- All there is to see of a table is its relation. -/
theorem View.Shows.same {v w : View α β} {R : Set (α × β)} (hv : v.Shows R) (hw : w.Shows R) : v.Same w where
  right := funext fun a => Option.ext fun b => (hv.right a b).trans (hw.right a b).symm
  left := funext fun b => Option.ext fun a => (hv.left a b).trans (hw.left a b).symm
  hasLeft := funext fun a => Bool.eq_iff_iff.mpr ((hv.hasLeft a).trans (hw.hasLeft a).symm)
  hasRight := funext fun b => Bool.eq_iff_iff.mpr ((hv.hasRight b).trans (hw.hasRight b).symm)
  pairs := (List.perm_ext_iff_of_nodup hv.lefts.of_map hw.lefts.of_map).mpr fun p =>
    (hv.pairs p).trans (hw.pairs p).symm
  size := hv.size.trans hw.size.symm

/-! ### One pair -/

section
variable {R S : Set (α × β)} {a : α} {b : β}

theorem Call.Means.insert_ok {added : Bool} (h : Means R (.insert a b) (.inserted (.ok added)) S) :
    S = R ∪ {(a, b)} := by
  cases h with
  | added => rfl
  | present hab => exact (Set.union_eq_self_of_subset_right (Set.singleton_subset_iff.mpr hab)).symm

theorem Call.Means.insert_error {e : BijectionError} (h : Means R (.insert a b) (.inserted (.error e)) S) :
    ¬OneToOne (R ∪ {(a, b)}) := by
  intro hone
  cases h with
  | leftTaken hab hne => exact hne (hone.right _ _ _ (.inl hab) (.inr rfl))
  | rightTaken ha hab =>
    obtain rfl := hone.left _ _ _ (.inl hab) (.inr rfl)
    exact ha _ hab

end

section
variable [DecidableEq α] [DecidableEq β] [Hashable α] [Hashable β]

namespace Hashed

/-- Two maps with one more pair, unless it does not fit. -/
def add (t : Hashed α β) (p : α × β) : Except BijectionError (Hashed α β) :=
  (t.insert p.1 p.2).1.map fun _ => (t.insert p.1 p.2).2

/-- Two maps that are filled with pairs, one after another up to the first that does not fit. -/
def ofPairs (ps : List (α × β)) : Except BijectionError (Hashed α β) := ps.foldlM add {}

end Hashed

/-- A table and two maps hold all pairs of a relation, or both were given up for the same reason and it is not
one-to-one. -/
inductive Filled (R : Set (α × β)) :
    Except BijectionError (Bijection α β) → Except BijectionError (Hashed α β) → Prop where
  | all {m : Bijection α β} {t : Hashed α β} : m.Valid → m.relation = R → t.Holds R → Filled R (.ok m) (.ok t)
  | givenUp {e : BijectionError} : ¬OneToOne R → Filled R (.error e) (.error e)

variable {m : Bijection α β} {t : Hashed α β}

theorem Valid.filled_insert (h : m.Valid) (ht : t.Holds m.relation) (p : α × β) :
    Filled (m.relation ∪ {p}) ((m.insert p.1 p.2).map Prod.snd) (t.add p) := by
  obtain ⟨a, b⟩ := p
  obtain ⟨hmeans, hvalid⟩ := h.run (.insert a b)
  obtain ⟨hanswer, hholds⟩ := ht.call hmeans
  rw [Call.run] at hmeans hvalid hanswer hholds
  have hadd : t.add (a, b) = (t.insert a b).1.map fun _ => (t.insert a b).2 := rfl
  cases hm : m.insert a b with
  | ok r =>
    obtain ⟨added, n⟩ := r
    rw [hm] at hmeans hvalid hanswer hholds
    rw [hadd, Answer.inserted.inj hanswer, ← hmeans.insert_ok]
    exact .all hvalid rfl hholds
  | error e =>
    rw [hm] at hmeans hanswer
    rw [hadd, Answer.inserted.inj hanswer]
    exact .givenUp hmeans.insert_error

/-- The run over a list is decided by the pairs that were there and those of the list. -/
theorem Valid.filled_foldlM (h : m.Valid) (ht : t.Holds m.relation) (ps : List (α × β)) :
    Filled (m.relation ∪ {p | p ∈ ps}) (ps.foldlM (fun m p => (m.insert p.1 p.2).map Prod.snd) m)
      (ps.foldlM Hashed.add t) := by
  induction ps generalizing m t with
  | nil =>
    have hrel : m.relation ∪ {p | p ∈ ([] : List (α × β))} = m.relation := by simp
    rw [hrel]
    exact .all h rfl ht
  | cons p ps ih =>
    have hstep := h.filled_insert ht p
    -- what was read and what is still to be read make up the same relation after each step
    have hrel : m.relation ∪ {q | q ∈ p :: ps} = m.relation ∪ {p} ∪ {q | q ∈ ps} := by
      ext q
      simp [or_assoc, or_left_comm]
    rw [List.foldlM_cons, List.foldlM_cons, hrel]
    generalize (m.insert p.1 p.2).map Prod.snd = filled at hstep ⊢
    generalize t.add p = added at hstep ⊢
    cases hstep with
    | all hvalid hn hholds => exact hn ▸ ih hvalid (hn ▸ hholds)
    | givenUp hnot => exact .givenUp fun hone => hnot (hone.mono Set.subset_union_left)

theorem filled_ofPairs (ps : List (α × β)) : Filled {p | p ∈ ps} (ofPairs ps) (Hashed.ofPairs ps) := by
  have hempty : (Bijection.empty : Bijection α β).relation = ∅ := by simp [relation, Bijection.empty]
  have hfilled := Valid.empty.filled_foldlM (hempty ▸ Hashed.Holds.empty) ps
  rwa [hempty, Set.empty_union] at hfilled

namespace Filled
variable {R : Set (α × β)} {r : Except BijectionError (Bijection α β)} {u : Except BijectionError (Hashed α β)}

theorem exists_ok (h : Filled R r u) : (∃ m, r = .ok m) ↔ OneToOne R := by
  cases h with
  | all hvalid hrel _ => exact ⟨fun _ => hrel ▸ hvalid.oneToOne, fun _ => ⟨_, rfl⟩⟩
  | givenUp hnot => exact ⟨nofun, fun hone => absurd hone hnot⟩

theorem shows (h : Filled R (.ok m) u) : m.view.Shows R := by
  cases h with
  | all hvalid hrel _ => exact hrel ▸ hvalid.shows_view

theorem shows_maps (h : Filled R r (.ok t)) : t.view.Shows R := by
  cases h with
  | all _ _ hholds => exact hholds.shows_view

theorem error_iff {e : BijectionError} (h : Filled R r u) : u = .error e ↔ r = .error e := by
  cases h with
  | all => exact ⟨nofun, nofun⟩
  | givenUp => rw [Except.error.injEq, Except.error.injEq]

end Filled

/-- All pairs of a list can be added to a new table if and only if no left key has two partners in the list, and no right
key. Then the table shows the pairs of the list, each of them once. So lists with the same pairs, in whatever order and
however often each, are all taken or all given up, and make tables of which the same is seen. Two hash maps that are
filled with the pairs end as the table does. -/
theorem ofPairs_unordered (ps : List (α × β)) :
    ((∃ m, ofPairs ps = .ok m) ↔ OneToOne {p | p ∈ ps}) ∧
    (∀ m, ofPairs ps = .ok m → m.view.Shows {p | p ∈ ps}) ∧
    (∀ qs : List (α × β), (∀ p, p ∈ qs ↔ p ∈ ps) →
      ((∃ n, ofPairs qs = .ok n) ↔ ∃ m, ofPairs ps = .ok m) ∧
      ∀ m n, ofPairs ps = .ok m → ofPairs qs = .ok n → n.view.Same m.view) ∧
    (∀ e, Hashed.ofPairs ps = .error e ↔ ofPairs ps = .error e) ∧
    ∀ t, Hashed.ofPairs ps = .ok t → t.view.Shows {p | p ∈ ps} := by
  have hpairs (m : Bijection α β) (hm : ofPairs ps = .ok m) : m.view.Shows {p | p ∈ ps} :=
    Filled.shows (hm ▸ filled_ofPairs ps)
  refine ⟨(filled_ofPairs ps).exists_ok, hpairs, fun qs hqs => ?_, fun e => (filled_ofPairs ps).error_iff,
    fun t ht => Filled.shows_maps (ht ▸ filled_ofPairs ps)⟩
  have hset : {p | p ∈ qs} = {p | p ∈ ps} := Set.ext hqs
  have hfilled : Filled {p | p ∈ ps} (ofPairs qs) (Hashed.ofPairs qs) := hset ▸ filled_ofPairs qs
  refine ⟨hfilled.exists_ok.trans (filled_ofPairs ps).exists_ok.symm, fun m n hm hn => ?_⟩
  exact View.Shows.same (Filled.shows (hn ▸ hfilled)) (hpairs m hm)

end

/-- Two pairs are read in one order, and in the other one with a repetition. Three pairs that share keys do not fit in
either order. -/
theorem ofPairs_unordered_letters :
    (∃ m n, ofPairs [("a", 1), ("b", 2)] = .ok m ∧ ofPairs [("b", 2), ("a", 1), ("b", 2)] = .ok n ∧
      n.view.Same m.view) ∧
    ofPairs [("a", 1), ("b", 2), ("a", 2)] = .error .leftTaken ∧
    ¬∃ n, ofPairs [("a", 2), ("b", 2), ("a", 1)] = .ok n := by
  refine ⟨⟨_, _, rfl, rfl, ?_⟩, rfl, ?_⟩
  · refine ((ofPairs_unordered [("a", 1), ("b", 2)]).2.2.1 [("b", 2), ("a", 1), ("b", 2)] ?_).2 _ _ rfl rfl
    intro p
    simp only [List.mem_cons, List.not_mem_nil, or_false]
    tauto
  · refine ((ofPairs_unordered [("a", 1), ("b", 2), ("a", 2)]).2.2.1 [("a", 2), ("b", 2), ("a", 1)] ?_).1.not.mpr ?_
    · intro p
      simp only [List.mem_cons, List.not_mem_nil, or_false]
      tauto
    · rintro ⟨m, hm⟩
      cases hm

end StackAssembler.Bijection
