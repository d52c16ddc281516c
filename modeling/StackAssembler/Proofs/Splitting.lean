import StackAssembler.Proofs.Pieces
import StackAssembler.Proofs.Slices

/-! Cutting a text up. Pieces are taken off at one end until nothing is left, so that an empty piece at the other end
never comes: front to back the last one is missed, back to front the first one. -/
namespace StackAssembler.Text

/-- What stands in a text between one delimiter and the next. There is one piece more than there are delimiters. -/
structure Between (d : Char) (s : String) (ps : List String) : Prop where
  free : ∀ p ∈ ps, d ∉ p.toList
  joined : (String.singleton d).intercalate ps = s
  length : ps.length = s.toList.count d + 1

theorem between_iff {d : Char} {s : String} {ps : List String} :
    Between d s ps ↔ ps.map String.toList = s.toList.splitOn d := by
  constructor
  · rintro ⟨hfree, rfl, hlength⟩
    have hne : ps.map String.toList ≠ [] := by
      rintro h
      rw [List.map_eq_nil_iff.mp h] at hlength
      cases hlength
    rw [String.toList_intercalate, String.toList_singleton,
      List.splitOn_intercalate d (List.forall_mem_map.mpr hfree) hne]
  · intro h
    refine ⟨fun p hp => free_of_mem_splitOn (h ▸ List.mem_map_of_mem hp), ?_, ?_⟩
    · rw [← String.toList_inj, String.toList_intercalate, String.toList_singleton, h, List.intercalate_splitOn]
    · rw [← length_splitOn, ← h, List.length_map]

/-! ### Both directions -/

section
variable (d : Char) (cs : List Char)

/-- Back to front, the pieces are what stands between delimiters, but for a first piece without a character. -/
theorem reverse_piecesBack : (piecesBack d cs).reverse = withoutFirst [] (cs.splitOn d) := by
  have hback : piecesBack d cs = withoutLast [] (cs.splitOn d).reverse := by
    rw [piecesBack, pieces_eq, map_withoutLast List.reverse_injective, splitOn_reverse, List.map_reverse, List.map_map]
    simp
  rw [hback, withoutLast_reverse, List.reverse_reverse]

/-- The two directions miss the same piece if neither misses one, or there are no other pieces than empty ones. -/
theorem pieces_eq_reverse_piecesBack : pieces d cs = (piecesBack d cs).reverse ↔
    cs.head? ≠ some d ∧ cs.getLast? ≠ some d ∨ ∀ c ∈ cs, c = d := by
  rw [pieces_eq, reverse_piecesBack, withoutLast_eq_withoutFirst (List.splitOn_ne_nil d cs), ne_eq, ne_eq,
    head?_splitOn, getLast?_splitOn, forall_mem_splitOn]
  cases cs <;> simp

end

/-! ### Piece by piece -/

/-- A text that is cut up from one of its ends. -/
structure Cutter where
  rest : String
  delimiter : Char
  fromEnd : Bool

namespace Cutter

/-- The next piece, and what is left to cut up behind it. Nothing comes when nothing is left. -/
def next? (c : Cutter) : Option (String × Cutter) :=
  if c.rest = "" then none
  else
    let halves := cut c.rest c.delimiter c.fromEnd
    if c.fromEnd then some (halves.2, { c with rest := halves.1 }) else some (halves.1, { c with rest := halves.2 })

/-- The pieces that come one after another until nothing comes any more. -/
inductive Yields : Cutter → List String → Prop where
  | done {c : Cutter} : c.next? = none → Yields c []
  | more {c c' : Cutter} {p : String} {ps : List String} : c.next? = some (p, c') → Yields c' ps → Yields c (p :: ps)

def pieces (c : Cutter) : List String := cutAll c.rest c.delimiter c.fromEnd

variable {c c' : Cutter} {p : String} {ps : List String}

theorem pieces_of_none (h : c.next? = none) : c.pieces = [] := by
  have hrest : c.rest = "" := by
    by_contra hne
    rw [next?, if_neg hne] at h
    split at h <;> cases h
  rw [pieces, cutAll, hrest]
  split <;> rfl

theorem pieces_of_some (h : c.next? = some (p, c')) : c.pieces = p :: c'.pieces := by
  obtain ⟨s, d, fromEnd⟩ := c
  rw [next?] at h
  split at h
  · cases h
  · next hs =>
    have hne : s.toList ≠ [] := String.toList_eq_nil_iff.not.mpr hs
    cases fromEnd <;> cases h
    · simp [pieces, cutAll, cut, pieces_cutFirst hne]
    · simp [pieces, cutAll, cut, piecesBack_cutLast hne]

theorem yields_iff : c.Yields ps ↔ ps = c.pieces := by
  constructor
  · intro h
    induction h with
    | done hn => exact (pieces_of_none hn).symm
    | more hn _ ih => rw [pieces_of_some hn, ih]
  · intro h
    -- each step takes one piece away, so the pieces bound the steps
    induction ps generalizing c with
    | nil =>
      refine .done (Option.eq_none_iff_forall_ne_some.mpr fun (p, c') hn => ?_)
      rw [pieces_of_some hn] at h
      cases h
    | cons p ps ih =>
      cases hn : c.next? with
      | none =>
        rw [pieces_of_none hn] at h
        cases h
      | some next =>
        obtain ⟨q, c'⟩ := next
        rw [pieces_of_some hn] at h
        obtain ⟨rfl, hps⟩ := List.cons.inj h
        exact .more hn (ih hps)

end Cutter

/-! ### Positions in bytes -/

namespace Strict

/-- What stands in front of the first `d` and behind it, or of the last one when `fromEnd` is set. -/
def halves (s : String) (d : Char) (fromEnd : Bool) : Option (String × String) :=
  (if fromEnd then cutLast d s.toList else cut d s.toList).map (Prod.map String.ofList String.ofList)

theorem cut_eq (d : Char) (cs : List Char) : cut d cs = some (cutFirst d cs) := by
  by_cases hd : d ∈ cs
  · obtain ⟨xs, ys, rfl, hxs⟩ := List.eq_append_cons_of_mem hd
    rw [cut_append (List.forall_mem_ne'.mpr hxs), cutFirst_append hxs]
  · rw [cut, position?_eq_none (List.forall_mem_ne'.mpr hd), cutFirst_of_free hd]
    rfl

theorem cutLast_eq (d : Char) (cs : List Char) : cutLast d cs = some (Text.cutLast d cs) := by
  by_cases hd : d ∈ cs
  · obtain ⟨xs, ys, rfl, hys⟩ := exists_last hd
    have hplace : lastPosition? [d] (xs ++ d :: ys) = some (Script.Lexeme.bytes xs) :=
      lastPosition?_append xs (List.forall_mem_ne'.mpr hys)
    rw [cutLast, hplace, cutLast_append xs hys]
    dsimp only
    rw [takeBytes_append, dropBytes_behind]
    rfl
  · rw [cutLast, lastPosition?_eq_none (List.forall_mem_ne'.mpr hd), cutLast_of_free hd]
    rfl

/-- There always are slices in front of a delimiter and behind it, however many bytes it has. -/
theorem halves_eq (s : String) (d : Char) (fromEnd : Bool) : halves s d fromEnd = some (Text.cut s d fromEnd) := by
  cases fromEnd
  · exact congrArg _ (cut_eq d s.toList)
  · exact congrArg _ (cutLast_eq d s.toList)

end Strict

/-! ### Strings -/

variable {s : String} {d : Char} {ps : List String}

/-- A delimiter is taken out of a text at its first or its last place. -/
theorem cut_of_mem (h : d ∈ s.toList) (fromEnd : Bool) :
    (cut s d fromEnd).1 ++ .singleton d ++ (cut s d fromEnd).2 = s ∧
      d ∉ (if fromEnd then (cut s d fromEnd).2 else (cut s d fromEnd).1).toList := by
  cases fromEnd with
  | false =>
    obtain ⟨xs, ys, hs, hxs⟩ := List.eq_append_cons_of_mem h
    have hcut : cut s d false = (String.ofList xs, String.ofList ys) := by
      simp [cut, hs, cutFirst_append hxs]
    rw [hcut, ← String.toList_inj]
    simp [hs, hxs]
  | true =>
    obtain ⟨xs, ys, hs, hys⟩ := exists_last h
    have hcut : cut s d true = (String.ofList xs, String.ofList ys) := by
      simp [cut, hs, cutLast_append xs hys]
    rw [hcut, ← String.toList_inj]
    simp [hs, hys]

private theorem toList_injective : Function.Injective String.toList := fun _ _ => String.toList_inj.mp

private theorem ofList_toList (ps : List String) : (ps.map String.toList).map String.ofList = ps := by
  simp [Function.comp_def]

theorem Between.cutAll_front (h : Between d s ps) : cutAll s d false = withoutLast "" ps := by
  have hpieces : pieces d s.toList = (withoutLast "" ps).map String.toList := by
    rw [pieces_eq, ← between_iff.mp h, map_withoutLast toList_injective]
    rfl
  rw [cutAll, if_neg Bool.false_ne_true, hpieces, ofList_toList]

theorem Between.cutAll_back (h : Between d s ps) : cutAll s d true = (withoutFirst "" ps).reverse := by
  have hpieces : piecesBack d s.toList = (withoutFirst "" ps).reverse.map String.toList := by
    rw [← List.reverse_inj, reverse_piecesBack, ← between_iff.mp h, List.map_reverse, List.reverse_reverse,
      map_withoutFirst toList_injective]
    rfl
  rw [cutAll, if_pos rfl, hpieces, ofList_toList]

/-- A text is cut up into what stands between its delimiters. Front to back, the last piece does not come if it is empty;
back to front, the first one does not. So either direction is the other one reversed if and only if the text neither
starts nor ends with the delimiter, or is made of nothing else. A single cut takes out the first or the last delimiter,
and what is sliced off by positions in bytes is the same. -/
theorem cuts_between (s : String) (d : Char) :
    (∃! ps, Between d s ps) ∧
    (∀ ps, Between d s ps →
      (∀ ys, (Cutter.mk s d false).Yields ys ↔ ys = withoutLast "" ps) ∧
      ∀ ys, (Cutter.mk s d true).Yields ys ↔ ys = (withoutFirst "" ps).reverse) ∧
    (∀ fromEnd ys, (Cutter.mk s d fromEnd).Yields ys ↔ ys = cutAll s d fromEnd) ∧
    (cutAll s d false = (cutAll s d true).reverse ↔ ¬s.startsWith d ∧ ¬s.endsWith d ∨ ∀ c ∈ s.toList, c = d) ∧
    ∀ fromEnd, Strict.halves s d fromEnd = some (cut s d fromEnd) ∧
      (d ∈ s.toList → (cut s d fromEnd).1 ++ .singleton d ++ (cut s d fromEnd).2 = s ∧
        d ∉ (if fromEnd then (cut s d fromEnd).2 else (cut s d fromEnd).1).toList) := by
  have hunique {ps qs : List String} (hp : Between d s ps) (hq : Between d s qs) : qs = ps :=
    List.map_injective_iff.mpr toList_injective ((between_iff.mp hq).trans (between_iff.mp hp).symm)
  have hexists : Between d s ((s.toList.splitOn d).map String.ofList) :=
    between_iff.mpr (by simp [Function.comp_def])
  refine ⟨⟨_, hexists, fun _ => hunique hexists⟩, fun ps hps => ⟨fun ys => ?_, fun ys => ?_⟩,
    fun fromEnd ys => Cutter.yields_iff, ?_,
    fun fromEnd => ⟨Strict.halves_eq s d fromEnd, fun h => cut_of_mem h fromEnd⟩⟩
  · rw [Cutter.yields_iff, ← hps.cutAll_front]
    rfl
  · rw [Cutter.yields_iff, ← hps.cutAll_back]
    rfl
  · have hends : (¬s.startsWith d ∧ ¬s.endsWith d) ↔ s.toList.head? ≠ some d ∧ s.toList.getLast? ≠ some d := by
      simp [String.startsWith_char_eq_head?, String.endsWith_char_eq_getLast?]
    rw [hends, ← pieces_eq_reverse_piecesBack, cutAll, cutAll, if_neg Bool.false_ne_true, if_pos rfl,
      ← List.map_reverse, (List.map_injective_iff.mpr fun _ _ => String.ofList_injective).eq_iff]

/-- An arrow of three bytes stands in front of a text, and two of them in the middle. The empty piece in the middle
comes in both directions, the one in front only front to back. -/
theorem cuts_between_arrows :
    Between '→' "→a→→b" ["", "a", "", "b"] ∧
    (Cutter.mk "→a→→b" '→' false).Yields ["", "a", "", "b"] ∧
    (Cutter.mk "→a→→b" '→' true).Yields ["b", "", "a"] ∧
    '→' ∈ "→a→→b".toList ∧ (cut "→a→→b" '→' true).1 ++ "→" ++ (cut "→a→→b" '→' true).2 = "→a→→b" := by
  have hps : Between '→' "→a→→b" ["", "a", "", "b"] := ⟨by decide, by decide, by decide⟩
  have hmem : '→' ∈ "→a→→b".toList := by decide
  obtain ⟨-, hyields, -, -, hcut⟩ := cuts_between "→a→→b" '→'
  exact ⟨hps, ((hyields _ hps).1 _).mpr rfl, ((hyields _ hps).2 _).mpr rfl, hmem, ((hcut true).2 hmem).1⟩

end StackAssembler.Text
