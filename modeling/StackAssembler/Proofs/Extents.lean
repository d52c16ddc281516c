import StackAssembler.Proofs.Parsing
import StackAssembler.Proofs.Reading

/-! Where the parts of a script stand. Tokens stand between characters of the text, and the places that a statement
records are those of phrases of its line. -/
namespace StackAssembler
open Script (PlacedToken Unreadable TokenStream)
open Script.Lexeme (bytes bytes_append bytes_toList)

namespace Span

/-- A range of bytes of a text that starts and stops between characters. -/
structure Within (source : String) (s : Span) : Prop where
  ordered : s.start ≤ s.stop
  size : s.stop ≤ source.utf8ByteSize
  start : (⟨s.start⟩ : String.Pos.Raw).IsValid source
  stop : (⟨s.stop⟩ : String.Pos.Raw).IsValid source

/-- All of a range is in another one. -/
structure Inside (s outer : Span) : Prop where
  start : outer.start ≤ s.start
  stop : s.stop ≤ outer.stop

theorem Inside.refl (s : Span) : s.Inside s := ⟨Nat.le_refl _, Nat.le_refl _⟩

end Span

section
variable {source : String} {before piece after : List Char}

/-- What is in front of a part of a text ends between characters. -/
theorem isValid_of_split (h : source.toList = before ++ after) : (⟨bytes before⟩ : String.Pos.Raw).IsValid source := by
  refine String.Pos.Raw.isValid_iff_exists_append.mpr ⟨String.ofList before, String.ofList after, ?_, ?_⟩
  · rw [← String.toList_inj, h, String.toList_append, String.toList_ofList, String.toList_ofList]
  · rw [String.rawEndPos, ← bytes_toList, String.toList_ofList]

theorem within_of_split (h : source.toList = before ++ piece ++ after) :
    Span.Within source ⟨bytes before, bytes before + bytes piece⟩ where
  ordered := Nat.le_add_right _ _
  size := by
    rw [← bytes_toList, h, bytes_append, bytes_append]
    exact Nat.le_add_right _ _
  start := isValid_of_split (by rw [h, List.append_assoc])
  stop := bytes_append before piece ▸ isValid_of_split h

end

namespace Script

/-- All that is scanned of a text stands within it. -/
theorem scan_within {source : String} (offset : Nat) (cs : List Char) :
    ∀ before, source.toList = before ++ cs → bytes before = offset →
      ∀ i ∈ Lexeme.scan offset cs, (itemSpan i).Within source := by
  -- the induction moves each piece that was scanned to the text before
  have next {before cs : List Char} {c : Char} (n : Nat) (h : source.toList = before ++ c :: cs) :
      source.toList = before ++ (c :: cs.take n) ++ cs.drop n := by
    rw [List.append_assoc, List.cons_append, List.take_append_drop, h]
  induction offset, cs using Lexeme.scan.induct with
  | case1 offset =>
    intro before _ _
    rw [Lexeme.scan]
    exact List.forall_mem_nil _
  | case2 offset c cs n lexeme stop hf ih =>
    rintro before htext rfl
    rw [Lexeme.scan, hf]
    exact ih _ (next n htext) (bytes_append _ _)
  | case3 offset c cs n lexeme stop x hf ih | case4 offset c cs n lexeme stop hf ih =>
    rintro before htext rfl
    rw [Lexeme.scan, hf]
    exact List.forall_mem_cons.mpr ⟨within_of_split (next n htext), ih _ (next n htext) (bytes_append _ _)⟩

/-- What is scanned stands behind the offset, one piece behind the other. -/
theorem scan_ordered (offset : Nat) (cs : List Char) :
    (∀ i ∈ Lexeme.scan offset cs, offset ≤ (itemSpan i).start) ∧
      (Lexeme.scan offset cs).Pairwise fun i j => (itemSpan i).stop ≤ (itemSpan j).start := by
  induction offset, cs using Lexeme.scan.induct with
  | case1 offset =>
    rw [Lexeme.scan]
    exact ⟨List.forall_mem_nil _, .nil⟩
  | case2 offset c cs n lexeme stop hf ih =>
    rw [Lexeme.scan, hf]
    exact ⟨fun i hi => (Nat.le_add_right _ _).trans (ih.1 i hi), ih.2⟩
  | case3 offset c cs n lexeme stop x hf ih | case4 offset c cs n lexeme stop hf ih =>
    rw [Lexeme.scan, hf]
    refine ⟨List.forall_mem_cons.mpr ⟨Nat.le_refl _, fun i hi => (Nat.le_add_right _ _).trans (ih.1 i hi)⟩, ?_⟩
    exact .cons ih.1 ih.2

theorem within_of_mem_places {source : String} : ∀ p ∈ (TokenStream.ofSource source).places, p.Within source := by
  refine List.forall_mem_cons.mpr ⟨?_, List.forall_mem_map.mpr (scan_within 0 source.toList [] rfl rfl)⟩
  have hend : Span.Within source ⟨bytes source.toList, bytes source.toList + bytes []⟩ :=
    within_of_split (show source.toList = source.toList ++ [] ++ [] by simp)
  rwa [bytes_toList] at hend

/-! ### The places that statements record -/

def OperandExpr.places : OperandExpr → List Span
  | .var _ s => [s]
  | _ => []

def TargetExpr.places : TargetExpr → List Span
  | .named _ s => [s]
  | .next _ => []

/-- Where the types, variables and blocks stand that a command names. -/
def Command.places : Command → List Span
  | .function _ result params _ => result.span :: params.map (·.span)
  | .alloc t _ => [t.span]
  | .load t source => t.span :: source.places
  | .store l r | .binary _ l r | .compare _ l r => l.places ++ r.places
  | .cast _ v t => t.span :: v.places
  | .phi es => es.flatMap fun e => e.1.places ++ e.2.places
  | .condBr cond t f => cond.places ++ (t.places ++ f.places)
  | .br d => d.places
  | .call _ args => args.flatMap OperandExpr.places
  | .ret (some v) | .push v => v.places
  | _ => []

namespace Grammar

/-- From where the first token starts to where the last one stops. -/
def extent : List PlacedToken → Span
  | [] => default
  | t :: ts => ⟨t.span.start, stopAfter t.span.stop ts⟩

/-- A place is that of a phrase of a line. -/
def Marks (line : List PlacedToken) (p : Span) : Prop := ∃ phrase, phrase ≠ [] ∧ phrase <:+: line ∧ p = extent phrase

section
variable {ts us line : List PlacedToken} {p : Span}

theorem Marks.self (h : ts ≠ []) : Marks ts (extent ts) := ⟨ts, h, List.infix_rfl, rfl⟩

theorem Marks.mono (h : Marks ts p) (hts : ts <:+: us) : Marks us p := by
  obtain ⟨phrase, hne, hin, hp⟩ := h
  exact ⟨phrase, hne, hin.trans hts, hp⟩

theorem Marks.left (h : Marks ts p) : Marks (ts ++ us) p := h.mono (List.prefix_append _ _).isInfix

theorem Marks.right (h : Marks us p) : Marks (ts ++ us) p := h.mono (List.suffix_append _ _).isInfix

theorem Marks.cons {t : PlacedToken} (h : Marks ts p) : Marks (t :: ts) p := h.mono (List.suffix_cons _ _).isInfix

theorem TypeForm.marks {e : TypeExpr} (h : TypeForm ts e) : Marks ts e.span := by
  cases h with
  | mk hstars => exact .self nofun

theorem TargetForm.marks {e : TargetExpr} (h : TargetForm ts e) : ∀ p ∈ e.places, Marks ts p := by
  cases h with
  | named => exact List.forall_mem_singleton.mpr (.self nofun)
  | next => exact List.forall_mem_nil _

theorem OperandForm.marks {e : OperandExpr} (h : OperandForm LiteralForm ts e) : ∀ p ∈ e.places, Marks ts p := by
  cases h with
  | var => exact List.forall_mem_singleton.mpr (.self nofun)
  | stack | arg => exact List.forall_mem_nil _
  | literal h => cases h <;> exact List.forall_mem_nil _

/-- What is marked in the items of a list is marked in the list. -/
theorem CommaList.marks {α : Type} {F : List PlacedToken → α → Prop} (places : α → List Span) {xs : List α}
    (hF : ∀ ts x, F ts x → ∀ p ∈ places x, Marks ts p) (h : CommaList F ts xs) : ∀ p ∈ xs.flatMap places, Marks ts p := by
  induction h with
  | one h => simpa using hF _ _ h
  | @more ts us x xs s h _ ih =>
    rw [List.flatMap_cons, List.forall_mem_append]
    exact ⟨fun p hp => (hF _ _ h p hp).left, fun p hp => (ih p hp).cons.right⟩

theorem ParameterForm.marks {types : List TypeExpr} {variadic : Bool} (h : ParameterForm ts types variadic) :
    ∀ p ∈ types.map (·.span), Marks ts p := by
  have list {ts : List PlacedToken} {types : List TypeExpr} (h : CommaList TypeForm ts types) :
      ∀ p ∈ types.map (·.span), Marks ts p := by
    have hmarks := h.marks (fun e => [e.span]) fun _ _ he => List.forall_mem_singleton.mpr he.marks
    exact List.forall_mem_map.mpr fun e he => hmarks _ (List.mem_flatMap.mpr ⟨e, he, .head _⟩)
  cases h with
  | none | dots => exact List.forall_mem_nil _
  | types h => exact list h
  | typesDots h => exact fun p hp => (list h p hp).left

/-- A result that is left out stands where the parenthesis is closed. -/
theorem ResultForm.marks {close : Span} {e : TypeExpr} (h : ResultForm close ts e) :
    Marks (⟨.rparen, close⟩ :: ts) e.span := by
  cases h with
  | void => exact .self nofun
  | arrow h => exact h.marks.cons.cons

theorem OptionalOperand.marks {e : OperandExpr} (h : OptionalOperand LiteralForm ts e) : ∀ p ∈ e.places, Marks ts p := by
  cases h with
  | elided => exact List.forall_mem_nil _
  | given h => exact h.marks

theorem OperandPair.marks {l r : OperandExpr} (h : OperandPair LiteralForm ts l r) :
    ∀ p ∈ l.places ++ r.places, Marks ts p := by
  cases h with
  | elided => exact List.forall_mem_nil _
  | given h h' =>
    exact List.forall_mem_append.mpr ⟨fun p hp => (h.marks p hp).left, fun p hp => (h'.marks p hp).cons.right⟩

theorem EdgeForm.marks {e : OperandExpr × TargetExpr} (h : EdgeForm LiteralForm ts e) :
    ∀ p ∈ e.1.places ++ e.2.places, Marks ts p := by
  cases h with
  | mk h h' =>
    exact List.forall_mem_append.mpr
      ⟨fun p hp => (h.marks p hp).left.cons.left, fun p hp => (h'.marks p hp).cons.right.cons.left⟩

theorem Follows.marks {k : Keyword} {c : Command} (h : Follows LiteralForm k ts c) : ∀ p ∈ c.places, Marks ts p := by
  cases h with
  | function h h' =>
    exact List.forall_mem_cons.mpr ⟨h'.marks.right.cons.cons, fun p hp => (h.marks p hp).left.cons.cons⟩
  | alloc h => exact List.forall_mem_singleton.mpr h.marks
  | allocNamed h => exact List.forall_mem_singleton.mpr h.marks.left
  | load h h' => exact List.forall_mem_cons.mpr ⟨h.marks.left, fun p hp => (h'.marks p hp).right⟩
  | store h | binary h => exact h.marks
  | cmp h => exact fun p hp => (h.marks p hp).cons
  | cast h h' => exact List.forall_mem_cons.mpr ⟨h'.marks.cons.right, fun p hp => (h.marks p hp).left⟩
  | phi h => exact h.marks _ fun _ _ => EdgeForm.marks
  | condBr h => exact List.forall_mem_append.mpr ⟨h.marks, List.forall_mem_nil _⟩
  | condBrFull h h' h'' =>
    refine List.forall_mem_append.mpr ⟨fun p hp => (h.marks p hp).left.left, List.forall_mem_append.mpr ⟨?_, ?_⟩⟩
    · exact fun p hp => (h'.marks p hp).cons.right.left
    · exact fun p hp => (h''.marks p hp).cons.right
  | condBrTargets h h' =>
    refine List.forall_mem_append.mpr ⟨List.forall_mem_nil _, List.forall_mem_append.mpr ⟨?_, ?_⟩⟩
    · exact fun p hp => (h.marks p hp).left
    · exact fun p hp => (h'.marks p hp).cons.right
  | brTarget h => exact h.marks
  | call h =>
    cases h with
    | none => exact List.forall_mem_nil _
    | some h => exact fun p hp => (h.marks OperandExpr.places (fun _ _ => OperandForm.marks) p hp).left.cons.cons
  | retValue h | push h => exact h.marks
  | _ => exact List.forall_mem_nil _

/-- A statement stands where its line does, and what it records is marked there. -/
theorem Forms.marks {st : Statement} (h : Forms LiteralForm line st) :
    line ≠ [] ∧ st.span = extent line ∧ ∀ p ∈ st.command.places, Marks line p := by
  cases h with
  | mk h => exact ⟨nofun, rfl, fun p hp => (h.marks p hp).cons⟩

end

/-! ### Phrases of a line -/

/-- Tokens that stand in a text, one behind the other. -/
structure Placed (source : String) (ts : List PlacedToken) : Prop where
  within : ∀ t ∈ ts, t.span.Within source
  ordered : ts.Pairwise fun t u => t.span.stop ≤ u.span.start

namespace Placed
variable {source : String} {t : PlacedToken} {ts us : List PlacedToken}

theorem sublist (h : Placed source us) (hts : ts.Sublist us) : Placed source ts :=
  ⟨fun t ht => h.within t (hts.subset ht), h.ordered.sublist hts⟩

/-- By induction on the tokens: the last one stops behind all others. -/
theorem inside (h : Placed source (t :: ts)) : ∀ u ∈ t :: ts, u.span.Inside (extent (t :: ts)) := by
  induction ts generalizing t with
  | nil => exact List.forall_mem_singleton.mpr (.refl _)
  | cons v vs ih =>
    obtain ⟨hbefore, -⟩ := List.pairwise_cons.mp h.ordered
    have htail := ih (h.sublist (List.sublist_cons_self _ _))
    have hv := hbefore v (.head _)
    have htv := (h.within t (.head _)).ordered
    refine List.forall_mem_cons.mpr ⟨⟨Nat.le_refl _, ?_⟩, fun u hu => ⟨?_, (htail u hu).stop⟩⟩
    · exact hv.trans ((h.within v (.tail _ (.head _))).ordered.trans (htail v (.head _)).stop)
    · exact htv.trans (hv.trans (htail u hu).start)

theorem exists_last (t : PlacedToken) (ts : List PlacedToken) : ∃ u ∈ t :: ts, (extent (t :: ts)).stop = u.span.stop := by
  induction ts generalizing t with
  | nil => exact ⟨t, .head _, rfl⟩
  | cons v vs ih =>
    obtain ⟨u, hu, hstop⟩ := ih v
    exact ⟨u, .tail _ hu, hstop⟩

theorem extent_within (h : Placed source (t :: ts)) : (extent (t :: ts)).Within source := by
  obtain ⟨u, hu, hstop⟩ := exists_last t ts
  have ht := h.inside t (.head _)
  have hwithin := h.within u hu
  exact ⟨(h.within t (.head _)).ordered.trans ht.stop, hstop ▸ hwithin.size, (h.within t (.head _)).start,
    hstop ▸ hwithin.stop⟩

/-- A place that is marked in a line is in the text, and between the ends of the line. -/
theorem marks {p : Span} (h : Placed source ts) (hp : Marks ts p) : p.Within source ∧ p.Inside (extent ts) := by
  obtain ⟨phrase, hne, hin, rfl⟩ := hp
  obtain ⟨u, us, rfl⟩ := List.exists_cons_of_ne_nil hne
  obtain ⟨w, hw, hstop⟩ := exists_last u us
  cases ts with
  | nil => exact absurd (List.eq_nil_of_infix_nil hin) hne
  | cons t ts =>
    refine ⟨(h.sublist hin.sublist).extent_within, (h.inside u (hin.subset (.head _))).start, ?_⟩
    rw [hstop]
    exact (h.inside w (hin.subset hw)).stop

end Placed
end Grammar

/-- All places that an accepted script records are in its text, and those of a statement where the statement is. -/
theorem within_of_parse {source : String} {script : List Statement} (h : Parser.parse source = .ok script) :
    ∀ s ∈ script, s.span.Within source ∧ ∀ p ∈ s.command.places, p.Within source ∧ p.Inside s.span := by
  obtain ⟨us, hscan, hforms⟩ := Parser.parse_eq_ok.mp h
  have hplaced : Grammar.Placed source us := by
    refine ⟨fun t ht => ?_, ((Lexeme.scan_iff _ _ _).mp hscan).pairwise⟩
    have hitem : .ok t ∈ Lexeme.scan 0 source.toList := by
      rw [hscan]
      exact List.mem_map_of_mem ht
    exact scan_within 0 source.toList [] rfl rfl _ hitem
  have hlines : ∀ line ∈ Grammar.lines us, Grammar.Placed source line := fun line hline =>
    hplaced.sublist (Grammar.sublist_of_mem_lines hline)
  clear hscan h hplaced
  generalize Grammar.lines us = ls at hforms hlines
  induction hforms with
  | nil => exact List.forall_mem_nil _
  | cons hform _ ih =>
    obtain ⟨hline, hlines⟩ := List.forall_mem_cons.mp hlines
    obtain ⟨hne, hspan, hmarks⟩ := hform.marks
    refine List.forall_mem_cons.mpr ⟨?_, ih hlines⟩
    rw [hspan]
    exact ⟨(hline.marks (.self hne)).1, fun p hp => hline.marks (hmarks p hp)⟩

end Script
end StackAssembler
