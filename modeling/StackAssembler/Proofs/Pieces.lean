import Mathlib.Data.List.TakeWhile
import StackAssembler.Text.Pieces

/-! The pieces of a text. They are what stands between one delimiter and the next, but for a last piece without a
character. -/
namespace StackAssembler.Text

/-! ### Items at the ends of lists -/

section Ends
variable {α β : Type} {e : α} {l : List α}

/-- A list that is the same without its first and without its last item has one item over and over. -/
theorem eq_of_dropLast_cons (h : (e :: l).dropLast = l) : ∀ x ∈ l, x = e := by
  induction l with
  | nil => exact fun x hx => absurd hx List.not_mem_nil
  | cons b l ih =>
    rw [List.dropLast_cons_cons] at h
    obtain ⟨rfl, h⟩ := List.cons.inj h
    exact List.forall_mem_cons.mpr ⟨rfl, ih h⟩

variable [DecidableEq α] [DecidableEq β]

/-- A list without its last item, should that be `e`. -/
def withoutLast (e : α) (l : List α) : List α := if l.getLast? = some e then l.dropLast else l

/-- A list without its first item, should that be `e`. -/
def withoutFirst (e : α) (l : List α) : List α := if l.head? = some e then l.tail else l

theorem withoutLast_reverse (e : α) (l : List α) : withoutLast e l.reverse = (withoutFirst e l).reverse := by
  rw [withoutLast, withoutFirst, List.getLast?_reverse]
  split
  · rw [List.dropLast_reverse]
  · rfl

theorem map_withoutLast {f : α → β} (hf : Function.Injective f) (e : α) (l : List α) :
    (withoutLast e l).map f = withoutLast (f e) (l.map f) := by
  have hlast : (l.map f).getLast? = some (f e) ↔ l.getLast? = some e := by
    rw [List.getLast?_map, ← Option.map_some, (Option.map_injective hf).eq_iff]
  simp only [withoutLast, hlast]
  split
  · rw [List.map_dropLast]
  · rfl

theorem map_withoutFirst {f : α → β} (hf : Function.Injective f) (e : α) (l : List α) :
    (withoutFirst e l).map f = withoutFirst (f e) (l.map f) := by
  rw [← List.reverse_inj, ← withoutLast_reverse, ← List.map_reverse, ← List.map_reverse, ← withoutLast_reverse,
    map_withoutLast hf]

/-- If only one end is `e`, the lists that are left differ in length. If both are, they are the same only where nothing
else is between them. -/
theorem withoutLast_eq_withoutFirst (hne : l ≠ []) : withoutLast e l = withoutFirst e l ↔
    l.head? ≠ some e ∧ l.getLast? ≠ some e ∨ ∀ x ∈ l, x = e := by
  have hlength := List.length_pos_iff.mpr hne
  have hall (h : ∀ x ∈ l, x = e) : l = List.replicate l.length e := List.eq_replicate_iff.mpr ⟨rfl, h⟩
  have hends (h : ∀ x ∈ l, x = e) : l.head? = some e ∧ l.getLast? = some e := by
    rw [hall h, List.head?_replicate, List.getLast?_replicate, if_neg hlength.ne']
    exact ⟨rfl, rfl⟩
  rw [withoutLast, withoutFirst]
  by_cases hfirst : l.head? = some e <;> by_cases hlast : l.getLast? = some e
  · obtain ⟨rest, rfl⟩ := List.head?_eq_some_iff.mp hfirst
    rw [if_pos hfirst, if_pos hlast]
    refine ⟨fun h => .inr (List.forall_mem_cons.mpr ⟨rfl, eq_of_dropLast_cons h⟩), ?_⟩
    rintro (⟨h, -⟩ | h)
    · exact absurd hfirst h
    · rw [hall h, List.dropLast_replicate, List.tail_replicate]
  · rw [if_neg hlast, if_pos hfirst]
    refine iff_of_false (fun h => ?_) fun h => h.elim (fun h => h.1 hfirst) fun h => hlast (hends h).2
    have := congrArg List.length h
    rw [List.length_tail] at this
    omega
  · rw [if_pos hlast, if_neg hfirst]
    refine iff_of_false (fun h => ?_) fun h => h.elim (fun h => h.2 hlast) fun h => hfirst (hends h).1
    have := congrArg List.length h
    rw [List.length_dropLast] at this
    omega
  · rw [if_neg hlast, if_neg hfirst]
    exact ⟨fun _ => .inl ⟨hfirst, hlast⟩, fun _ => rfl⟩

end Ends

variable {d : Char} {p cs xs ys : List Char}

/-! ### Cuts -/

private theorem bne_of_free (h : d ∉ cs) : ∀ c ∈ cs, (c != d) = true :=
  fun _ hc => bne_iff_ne.mpr fun he => h (he ▸ hc)

theorem cutFirst_append (h : d ∉ xs) (ys : List Char) : cutFirst d (xs ++ d :: ys) = (xs, ys) := by
  rw [cutFirst, List.takeWhile_append_of_pos (bne_of_free h), List.dropWhile_append_of_pos (bne_of_free h)]
  simp

theorem cutFirst_of_free (h : d ∉ cs) : cutFirst d cs = (cs, []) := by
  rw [cutFirst, List.takeWhile_eq_self_iff.mpr (bne_of_free h), List.dropWhile_eq_nil_iff.mpr (bne_of_free h),
    List.drop_nil]

theorem cutLast_append (xs : List Char) (h : d ∉ ys) : cutLast d (xs ++ d :: ys) = (xs, ys) := by
  have hrev : (xs ++ d :: ys).reverse = ys.reverse ++ d :: xs.reverse := by simp
  rw [cutLast, hrev, cutFirst_append (List.mem_reverse.not.mpr h)]
  simp

theorem cutLast_of_free (h : d ∉ cs) : cutLast d cs = ([], cs) := by
  rw [cutLast, cutFirst_of_free (List.mem_reverse.not.mpr h), List.reverse_reverse, List.reverse_nil]

/-- A text with a delimiter has a last one. -/
theorem exists_last (h : d ∈ cs) : ∃ xs ys, cs = xs ++ d :: ys ∧ d ∉ ys := by
  obtain ⟨ys, xs, hrev, hys⟩ := List.eq_append_cons_of_mem (List.mem_reverse.mpr h)
  refine ⟨xs.reverse, ys.reverse, ?_, List.mem_reverse.not.mpr hys⟩
  rw [← List.reverse_reverse cs, hrev]
  simp

/-- A text has no delimiter, or a piece in front of a first one and a text behind it. -/
@[elab_as_elim]
theorem piece_induction {motive : List Char → Prop} (d : Char) (free : ∀ p, d ∉ p → motive p)
    (cut : ∀ p cs, d ∉ p → motive cs → motive (p ++ d :: cs)) (cs : List Char) : motive cs := by
  induction h : cs.length using Nat.strong_induction_on generalizing cs with
  | _ n ih =>
    by_cases hd : d ∈ cs
    · obtain ⟨p, rest, rfl, hp⟩ := List.eq_append_cons_of_mem hd
      refine cut p rest hp (ih rest.length ?_ rest rfl)
      simp only [List.length_append, List.length_cons] at h
      omega
    · exact free cs hd

/-! ### Between delimiters -/

theorem free_of_mem_splitOn (h : p ∈ cs.splitOn d) : d ∉ p := by
  induction cs using piece_induction d with
  | free q hq =>
    rw [List.splitOn_eq_singleton hq, List.mem_singleton] at h
    rwa [h]
  | cut q cs hq ih =>
    rw [List.splitOn_append_cons_self_of_not_mem hq] at h
    rcases List.mem_cons.mp h with rfl | h
    · exact hq
    · exact ih h

theorem length_splitOn (d : Char) (cs : List Char) : (cs.splitOn d).length = cs.count d + 1 := by
  induction cs using piece_induction d with
  | free q hq => rw [List.splitOn_eq_singleton hq, List.count_eq_zero.mpr hq, List.length_singleton]
  | cut q cs hq ih =>
    rw [List.splitOn_append_cons_self_of_not_mem hq, List.length_cons, ih, List.count_append, List.count_cons_self,
      List.count_eq_zero.mpr hq, Nat.zero_add]

theorem splitOn_reverse (d : Char) (cs : List Char) :
    cs.reverse.splitOn d = ((cs.splitOn d).map List.reverse).reverse := by
  induction cs using piece_induction d with
  | free q hq => rw [List.splitOn_eq_singleton hq, List.splitOn_eq_singleton (List.mem_reverse.not.mpr hq)]; rfl
  | cut q cs hq ih =>
    rw [List.splitOn_append_cons_self_of_not_mem hq, List.reverse_append, List.reverse_cons, List.append_assoc,
      List.singleton_append, List.splitOn_append_cons_self, ih, List.splitOn_eq_singleton (List.mem_reverse.not.mpr hq),
      List.map_cons, List.reverse_cons]

theorem head?_splitOn (d : Char) (cs : List Char) : (cs.splitOn d).head? = some [] ↔ cs = [] ∨ cs.head? = some d := by
  cases cs with
  | nil => simp
  | cons c cs =>
    obtain ⟨p, ps, hps⟩ := List.exists_cons_of_ne_nil (List.splitOn_ne_nil d cs)
    rw [List.splitOn_cons_eq_if_modifyHead, hps]
    by_cases hc : c = d <;> simp [hc]

theorem getLast?_splitOn (d : Char) (cs : List Char) : (cs.splitOn d).getLast? = some [] ↔ cs = [] ∨ cs.getLast? = some d := by
  have h := head?_splitOn d cs.reverse
  rw [splitOn_reverse, List.head?_reverse, List.getLast?_map, List.reverse_eq_nil_iff, List.head?_reverse] at h
  rw [← h, Option.map_eq_some_iff]
  simp

theorem forall_mem_splitOn (d : Char) (cs : List Char) : (∀ p ∈ cs.splitOn d, p = []) ↔ ∀ c ∈ cs, c = d := by
  induction cs with
  | nil => simp
  | cons c cs ih =>
    obtain ⟨p, ps, hps⟩ := List.exists_cons_of_ne_nil (List.splitOn_ne_nil d cs)
    rw [List.splitOn_cons_eq_if_modifyHead, List.forall_mem_cons, ← ih, hps]
    by_cases hc : c = d <;> simp [hc]

/-! ### Pieces -/

theorem pieces_of_free (h : d ∉ p) : pieces d p = if p = [] then [] else [p] := by
  induction p with
  | nil => rfl
  | cons c p ih =>
    obtain ⟨hc, hp⟩ := not_or.mp (List.mem_cons.not.mp h)
    rw [pieces, if_neg (Ne.symm hc), ih hp]
    cases p <;> rfl

theorem pieces_append (h : d ∉ p) (cs : List Char) : pieces d (p ++ d :: cs) = p :: pieces d cs := by
  induction p with
  | nil => rw [List.nil_append, pieces, if_pos rfl]
  | cons c p ih =>
    obtain ⟨hc, hp⟩ := not_or.mp (List.mem_cons.not.mp h)
    rw [List.cons_append, pieces, if_neg (Ne.symm hc), ih hp]

/-- Parts without a delimiter are the pieces of the text that joins them, but for a last one without a character. -/
theorem pieces_intercalate {ps : List (List Char)} (h : ∀ p ∈ ps, d ∉ p) :
    pieces d ([d].intercalate ps) = if ps.getLast? = some [] then ps.dropLast else ps := by
  induction ps with
  | nil => rfl
  | cons p ps ih =>
    obtain ⟨hp, hps⟩ := List.forall_mem_cons.mp h
    cases ps with
    | nil =>
      rw [List.intercalate_singleton, pieces_of_free hp]
      simp
    | cons q qs =>
      rw [List.intercalate_cons_cons, List.append_assoc, List.singleton_append, pieces_append hp, ih hps,
        List.getLast?_cons_cons, List.dropLast_cons_cons]
      split <;> rfl

/-- The pieces are what stands between delimiters, but for a last piece without a character. -/
theorem pieces_eq (d : Char) (cs : List Char) : pieces d cs = withoutLast [] (cs.splitOn d) := by
  have hfree : ∀ p ∈ cs.splitOn d, d ∉ p := fun _ => free_of_mem_splitOn
  rw [withoutLast, ← pieces_intercalate hfree, List.intercalate_splitOn]

theorem free_of_mem_pieces (h : p ∈ pieces d cs) : d ∉ p := by
  rw [pieces_eq, withoutLast] at h
  split at h
  · exact free_of_mem_splitOn (List.dropLast_subset _ h)
  · exact free_of_mem_splitOn h

/-- The pieces of a text make up the text again, but for a delimiter at its end. -/
theorem intercalate_pieces (d : Char) (cs : List Char) :
    [d].intercalate (pieces d cs) = if cs.getLast? = some d then cs.dropLast else cs := by
  induction cs with
  | nil => rfl
  | cons c cs ih =>
    cases cs with
    | nil =>
      by_cases hc : c = d
      · subst hc
        simp [pieces]
      · simp [pieces, hc]
    | cons b bs =>
      -- the pieces of what is behind the first character join to a text, with or without its last character
      have hne : pieces d (b :: bs) ≠ [] := by
        rw [pieces]
        split
        · exact List.cons_ne_nil _ _
        · split <;> exact List.cons_ne_nil _ _
      obtain ⟨p, ps, hps⟩ := List.exists_cons_of_ne_nil hne
      have hjoin : [d].intercalate (pieces d (c :: b :: bs)) = c :: [d].intercalate (p :: ps) := by
        rw [pieces, hps]
        by_cases hc : c = d
        · rw [if_pos hc, List.intercalate_cons_cons, hc]
          rfl
        · rw [if_neg hc]
          cases ps with
          | nil => rw [List.intercalate_singleton, List.intercalate_singleton]
          | cons q qs => rw [List.intercalate_cons_cons, List.intercalate_cons_cons]; rfl
      rw [hjoin, ← hps, ih, List.getLast?_cons_cons, List.dropLast_cons_cons]
      split <;> rfl

theorem pieces_cutFirst (hne : cs ≠ []) : pieces d cs = (cutFirst d cs).1 :: pieces d (cutFirst d cs).2 := by
  cases cs using piece_induction d with
  | free p hp => rw [cutFirst_of_free hp, pieces_of_free hp, if_neg hne]; rfl
  | cut p cs hp => rw [cutFirst_append hp, pieces_append hp]

theorem piecesBack_cutLast (hne : cs ≠ []) : piecesBack d cs = (cutLast d cs).2 :: piecesBack d (cutLast d cs).1 := by
  rw [piecesBack, pieces_cutFirst (List.reverse_ne_nil_iff.mpr hne), List.map_cons, cutLast, piecesBack,
    List.reverse_reverse]

end StackAssembler.Text
