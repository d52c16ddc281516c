import StackAssembler.Proofs.Extents
import StackAssembler.Proofs.Lockstep

/-! Where errors are said to be. What is wrong with a text is at one of its tokens or unreadable pieces, what a statement
refers to in vain is within the statement, and what cannot be built is the statement. -/
namespace StackAssembler.Script
open IR Build

/-- Wherever lowering starts, every error is one of lowering, at a place of a kind. -/
def Faults (S : Span → Prop) {α : Type} (x : Lowering α) : Prop :=
  ∀ w, Yields (x w) (fun _ _ => True) fun e => ∃ f p, e = .lowering f p ∧ S p

variable {S : Span → Prop}

namespace Faults
variable {α β : Type}

theorem pure {a : α} : Faults S (Pure.pure a : Lowering α) := fun _ => trivial

theorem bind {x : Lowering α} {f : α → Lowering β} (h : Faults S x) (k : ∀ a, Faults S (f a)) : Faults S (x >>= f) :=
  fun w => (h w).bind fun a w' _ => k a w'

theorem get : Faults S (MonadState.get : Lowering Workspace) := fun _ => trivial

theorem fail {f : LoweringFault} {p : Span} (h : S p) : Faults S (Lowering.fail f p : Lowering α) :=
  fun _ => ⟨f, p, rfl, h⟩

theorem change {f : Context → α × Context} : Faults S (Lowering.change f) := fun _ => trivial

theorem updateNames {f : Names → Names} : Faults S (Lowering.updateNames f) := fun _ => trivial

/-! ### Parts of statements -/

theorem internPointers (n : Nat) (t : Ty) : Faults S (Lowering.internPointers n t) := by
  induction n generalizing t with
  | zero => exact change.bind fun _ => pure
  | succ n ih => exact change.bind fun _ => ih _

theorem type {e : TypeExpr} (h : S e.span) : Faults S (Lowering.type e) := by
  unfold Lowering.type
  split
  · exact fail h
  · split
    · exact fail h
    · exact internPointers _ _

theorem types {es : List TypeExpr} (h : ∀ p ∈ es.map (·.span), S p) : Faults S (Lowering.types es) := by
  induction es with
  | nil => exact pure
  | cons e es ih =>
    obtain ⟨he, hes⟩ := List.forall_mem_cons.mp h
    exact (type he).bind fun _ => (ih hes).bind fun _ => pure

theorem operand {e : OperandExpr} (h : ∀ p ∈ e.places, S p) : Faults S (Lowering.operand e) := by
  cases e with
  | var name span =>
    refine get.bind fun w => ?_
    split
    · exact pure
    · exact fail (h span (.head _))
  | stack | arg => exact pure
  | int | float => exact change.bind fun _ => pure

theorem operands {es : List OperandExpr} (h : ∀ p ∈ es.flatMap OperandExpr.places, S p) :
    Faults S (Lowering.operands es) := by
  induction es with
  | nil => exact pure
  | cons e es ih =>
    rw [List.flatMap_cons, List.forall_mem_append] at h
    exact (operand h.1).bind fun _ => (ih h.2).bind fun _ => pure

theorem knownBlock {name : String} {p : Span} (h : S p) : Faults S (Lowering.knownBlock name p) := by
  refine get.bind fun w => ?_
  split
  · exact pure
  · exact fail h

theorem target {e : TargetExpr} (h : ∀ p ∈ e.places, S p) : Faults S (Lowering.target e) := by
  cases e with
  | named name span => exact (knownBlock (h span (.head _))).bind fun _ => pure
  | next => exact pure

theorem edges {es : List (OperandExpr × TargetExpr)} (h : ∀ p ∈ es.flatMap fun e => e.1.places ++ e.2.places, S p) :
    Faults S (Lowering.edges es) := by
  induction es with
  | nil => exact pure
  | cons e es ih =>
    rw [List.flatMap_cons, List.forall_mem_append, List.forall_mem_append] at h
    obtain ⟨⟨hv, hb⟩, hes⟩ := h
    exact (operand hv).bind fun _ => (target hb).bind fun _ => (ih hes).bind fun _ => pure

theorem moduleNamed (name : String) : Faults S (Lowering.moduleNamed name) := by
  refine get.bind fun w => ?_
  split
  · exact pure
  · exact change.bind fun _ => updateNames.bind fun _ => pure

theorem functionNamed {name : String} {p : Span} (h : S p) : Faults S (Lowering.functionNamed name p) := by
  refine get.bind fun w => ?_
  dsimp only
  split
  · exact fail h
  · split
    · exact pure
    · exact fail h

/-- An error of lowering is at the statement, or at one of the places that the statement records. -/
theorem action {span : Span} {c : Command} (hspan : S span) (h : ∀ p ∈ c.places, S p) :
    Faults S (Lowering.action? span c) := by
  have two {l r : OperandExpr} {g : Operand → Operand → Action} (h : ∀ p ∈ l.places ++ r.places, S p) :
      Faults S (do
        let l ← Lowering.operand l
        return some (g l (← Lowering.operand r))) := by
    obtain ⟨hl, hr⟩ := List.forall_mem_append.mp h
    exact (operand hl).bind fun _ => (operand hr).bind fun _ => pure
  cases c with
  | module name => exact (moduleNamed name).bind fun _ => pure
  | function =>
    obtain ⟨hr, hp⟩ := List.forall_mem_cons.mp h
    exact (type hr).bind fun _ => (types hp).bind fun _ => pure
  | use => exact (functionNamed hspan).bind fun _ => pure
  | block => exact updateNames.bind fun _ => pure
  | setBlock => exact (knownBlock hspan).bind fun _ => pure
  | alloc t name =>
    have ht := type (List.forall_mem_singleton.mp h)
    cases name with
    | none => exact ht.bind fun _ => pure
    | some name => exact ht.bind fun _ => updateNames.bind fun _ => pure
  | load =>
    obtain ⟨ht, hs⟩ := List.forall_mem_cons.mp h
    exact (type ht).bind fun _ => (operand hs).bind fun _ => pure
  | store | binary | compare => exact two h
  | cast =>
    obtain ⟨ht, hv⟩ := List.forall_mem_cons.mp h
    exact (operand hv).bind fun _ => (type ht).bind fun _ => pure
  | phi => exact (edges h).bind fun _ => pure
  | condBr =>
    obtain ⟨hc, ht⟩ := List.forall_mem_append.mp h
    obtain ⟨ht, hf⟩ := List.forall_mem_append.mp ht
    exact (operand hc).bind fun _ => (target ht).bind fun _ => (target hf).bind fun _ => pure
  | br => exact (target h).bind fun _ => pure
  | call => exact (operands h).bind fun _ => pure
  | ret v =>
    cases v with
    | none => exact pure
    | some v => exact (operand h).bind fun _ => pure
  | push => exact (operand h).bind fun _ => pure
  | pop | keepStack | inspect | last => exact pure

theorem statement {s : Statement} (hspan : S s.span) (h : ∀ p ∈ s.command.places, S p) : Faults S s.lower :=
  (action hspan h).bind fun a? => by
    cases a? <;> exact pure

end Faults

/-! ### Runs -/

section
variable {p p' : Progress} {e : ScriptError}

theorem lower_error {s : Statement} (h : Run.lower s p = .error e p') (hspan : S s.span)
    (hplaces : ∀ q ∈ s.command.places, S q) : ∃ f q, e = .lowering f q ∧ S q := by
  obtain ⟨w, directives, inspections, last⟩ := p
  unfold Run.lower at h
  dsimp only at h
  have hfaults := Faults.statement hspan hplaces w
  cases hx : s.lower w with
  | ok d w' =>
    rw [hx] at h
    cases h
  | error e' w' =>
    rw [hx] at h hfaults
    cases h
    exact hfaults

theorem step_error {α : Type} {span : Span} {f : Step α} (h : Run.step span f p = .error e p') :
    ∃ cause, e = .build cause span := by
  obtain ⟨⟨m, names⟩, directives, inspections, last⟩ := p
  unfold Run.step at h
  dsimp only at h
  cases hx : f m with
  | ok a m' =>
    rw [hx] at h
    cases h
  | error cause m' =>
    rw [hx] at h
    cases h
    exact ⟨cause, rfl⟩

theorem observe_ne_error {a : Action} : Run.observe a p ≠ .error e p' := by
  unfold Run.observe
  split <;> nofun

/-- What cannot be performed is an error of the build at the statement. -/
theorem perform_error {span : Span} {d : Directive} (h : Run.perform span d p = .error e p') :
    ∃ cause, e = .build cause span := by
  cases d with
  | perform a =>
    rcases bind_error h with h | ⟨_, _, _, h⟩
    · exact step_error h
    · rcases bind_error h with h | ⟨_, _, _, h⟩
      · exact absurd h observe_ne_error
      · cases h
  | last =>
    rcases bind_error h with h | ⟨_, _, _, h⟩
    · exact step_error h
    · cases h

/-- A statement fails when it is lowered, or when it is performed. -/
theorem statement_error {s : Statement} (h : Run.statement s p = .error e p') (hspan : S s.span)
    (hplaces : ∀ q ∈ s.command.places, S q) :
    (∃ f q, e = .lowering f q ∧ S q ∧ Run.lower s p = .error e p') ∨
      ∃ cause d p₁, e = .build cause s.span ∧ Run.lower s p = .ok d p₁ ∧ Run.perform s.span d p₁ = .error e p' := by
  rcases bind_error h with hlower | ⟨d, p₁, hlower, hperform⟩
  · obtain ⟨f, q, he, hq⟩ := lower_error hlower hspan hplaces
    exact .inl ⟨f, q, he, hq, hlower⟩
  · obtain ⟨cause, he⟩ := perform_error hperform
    exact .inr ⟨cause, d, p₁, he, hlower, hperform⟩

/-- A script that fails fails at one of its statements, when all in front of it have been performed. -/
theorem script_error {script : List Statement} (h : Run.script script p = .error e p') :
    ∃ done s rest q, script = done ++ s :: rest ∧ Run.script done p = .ok () q ∧ Run.statement s q = .error e p' := by
  induction script generalizing p with
  | nil => cases h
  | cons s script ih =>
    rcases bind_error h with hs | ⟨o, p₁, hs, hrest⟩
    · exact ⟨[], s, script, p, rfl, rfl, hs⟩
    · obtain ⟨done, s', rest, q, rfl, hdone, hs'⟩ := ih hrest
      exact ⟨s :: done, s', rest, q, rfl, by rw [Run.script, bind_of_ok hs, hdone], hs'⟩

end

/-- The errors of a run come of reading, or of the first statement that fails. -/
theorem run_error {source : String} {tokensFirst : Bool} {e : ScriptError} {p : Progress}
    (h : run source tokensFirst = (.error e, p)) :
    (tokens source = .error e ∨ Parser.parse source = .error e) ∨
      ∃ done s rest q, Parser.parse source = .ok (done ++ s :: rest) ∧ Run.script done {} = .ok () q ∧
        Run.statement s q = .error e p := by
  unfold run at h
  dsimp only at h
  split at h
  · next e' hread =>
    cases h
    refine .inl ?_
    cases tokensFirst with
    | false => exact .inr hread
    | true =>
      cases ht : tokens source with
      | error e' =>
        rw [ht] at hread
        cases hread
        exact .inl rfl
      | ok ts =>
        rw [ht] at hread
        exact .inr hread
  · next script hread =>
    split at h
    · cases h
    · next e' p' hscript =>
      cases h
      obtain ⟨done, s, rest, q, rfl, hdone, hs⟩ := script_error hscript
      exact .inr ⟨done, s, rest, q, reading_ok hread, hdone, hs⟩

/-- What an error says about its place, whatever the text. It starts and stops between characters of the text. An error
of lowering is within one statement, and one of the build is at the statement that could not be performed; all statements
in front of it have been lowered and performed. -/
theorem errors_placed (source : String) (tokensFirst : Bool) :
    (∀ e, tokens source = .error e → e.span.Within source) ∧
    (∀ e, Parser.parse source = .error e → e.span.Within source) ∧
    (∀ e p, run source tokensFirst = (.error e, p) → e.span.Within source) ∧
    (∀ fault span p, run source tokensFirst = (.error (.lowering fault span), p) →
      ∃ done s rest q, Parser.parse source = .ok (done ++ s :: rest) ∧ Run.script done {} = .ok () q ∧
        Run.lower s q = .error (.lowering fault span) p ∧ s.span.Within source ∧ span.Inside s.span) ∧
    ∀ cause span p, run source tokensFirst = (.error (.build cause span), p) →
      ∃ done s rest q d q', Parser.parse source = .ok (done ++ s :: rest) ∧ Run.script done {} = .ok () q ∧
        Run.lower s q = .ok d q' ∧ Run.perform s.span d q' = .error (.build cause span) p ∧ span = s.span := by
  have reading {e : ScriptError} (h : tokens source = .error e ∨ Parser.parse source = .error e) :
      e.isTextual ∧ e.span.Within source := by
    rcases h with h | h
    · exact (tokens_fault h).imp id (within_of_mem_places _)
    · exact (Parser.parse_fault h).imp id (within_of_mem_places _)
  have running {done rest : List Statement} {s : Statement} {q p : Progress} {e : ScriptError}
      (hparse : Parser.parse source = .ok (done ++ s :: rest)) (h : Run.statement s q = .error e p) :
      s.span.Within source ∧ ((∃ f span, e = .lowering f span ∧ (span.Within source ∧ span.Inside s.span) ∧
        Run.lower s q = .error e p) ∨ ∃ cause d q', e = .build cause s.span ∧ Run.lower s q = .ok d q' ∧
        Run.perform s.span d q' = .error e p) := by
    obtain ⟨hspan, hplaces⟩ := within_of_parse hparse s (by simp)
    exact ⟨hspan, statement_error h ⟨hspan, .refl _⟩ hplaces⟩
  refine ⟨fun e h => (reading (.inl h)).2, fun e h => (reading (.inr h)).2, fun e p h => ?_, fun fault span p h => ?_,
    fun cause span p h => ?_⟩
  · rcases run_error h with h | ⟨done, s, rest, q, hparse, hdone, hs⟩
    · exact (reading h).2
    · obtain ⟨hspan, ⟨f, span, rfl, ⟨hwithin, -⟩, -⟩ | ⟨cause, d, q', rfl, -⟩⟩ := running hparse hs
      · exact hwithin
      · exact hspan
  · rcases run_error h with h | ⟨done, s, rest, q, hparse, hdone, hs⟩
    · cases (reading h).1
    · obtain ⟨hspan, ⟨f, span', he, ⟨-, hinside⟩, hlower⟩ | ⟨cause, d, q', he, -⟩⟩ := running hparse hs
      · cases he
        exact ⟨done, s, rest, q, hparse, hdone, hlower, hspan, hinside⟩
      · cases he
  · rcases run_error h with h | ⟨done, s, rest, q, hparse, hdone, hs⟩
    · cases (reading h).1
    · obtain ⟨-, ⟨f, span', he, -⟩ | ⟨cause', d, q', he, hlower, hperform⟩⟩ := running hparse hs
      · cases he
      · cases he
        exact ⟨done, s, rest, q, d, q', hparse, hdone, hlower, hperform, rfl⟩

/-- A text that is one character, a word without a name behind it, a variable that was never declared, and a sum with
nothing on the stack. -/
theorem errors_placed_samples :
    (⟨0, 2⟩ : Span).Within "é" ∧ (⟨13, 13⟩ : Span).Within "; é\nfunction" ∧ (⟨13, 15⟩ : Span).Within "; é\nload i8 %x" ∧
      (∃ s : Statement, s.span.Within "; é\nload i8 %x" ∧ (⟨13, 15⟩ : Span).Inside s.span) ∧
      ∃ done s rest q, Parser.parse "; é\nmodule m\nadd" = .ok (done ++ s :: rest) ∧ Run.script done {} = .ok () q ∧
        s.span = ⟨14, 17⟩ := by
  have failing {source : String} {e : ScriptError} (h : (run source true).1 = .error e) :
      run source true = (.error e, (run source true).2) := Prod.ext h rfl
  have htokens : tokens "é" = .error (.lexer "é" ⟨0, 2⟩) := by decide +kernel
  have hparse : Parser.parse "; é\nfunction" = .error (.parser (.unexpected .functionName .endOfInput) ⟨13, 13⟩) := by
    decide +kernel
  have hload : (run "; é\nload i8 %x" true).1 = .error (.lowering (.unknownVariable "x") ⟨13, 15⟩) := by decide +kernel
  have hadd : (run "; é\nmodule m\nadd" true).1 = .error (.build (.stackUnderflow 1 0) ⟨14, 17⟩) := by decide +kernel
  obtain ⟨-, -, hrun, hlowering, -⟩ := errors_placed "; é\nload i8 %x" true
  obtain ⟨done, s, rest, q, -, -, -, hspan, hinside⟩ := hlowering _ _ _ (failing hload)
  obtain ⟨done', s', rest', q', _, _, hscript, hdone, -, -, hstop⟩ :=
    (errors_placed "; é\nmodule m\nadd" true).2.2.2.2 _ _ _ (failing hadd)
  exact ⟨(errors_placed "é" true).1 _ htokens, (errors_placed "; é\nfunction" true).2.1 _ hparse,
    hrun _ _ (failing hload), ⟨s, hspan, hinside⟩, done', s', rest', q', hscript, hdone, hstop.symm⟩

end StackAssembler.Script
