import StackAssembler.Proofs.Lockstep
import StackAssembler.Proofs.Numbering

/-! The names that a run records for final values. They are the names at the moment, and numbers may shift until the
run has ended. -/
namespace StackAssembler.Script
open IR Build
open Context (nameText_unnamedResult numberOf_eq_iff)

/-- A later point of a run: what was built stays, values keep their names, and so does what was recorded. -/
structure Progress.Continues (p q : Progress) : Prop where
  evolves : Evolves p.workspace.machine.context q.workspace.machine.context
  values : p.workspace.machine.context.values.toList <+: q.workspace.machine.context.values.toList
  last : p.last.toList <+: q.last.toList

namespace Progress.Continues
variable {p q r : Progress}

theorem refl (p : Progress) : p.Continues p := ⟨.refl _, List.prefix_rfl, List.prefix_rfl⟩

theorem trans (h : p.Continues q) (k : q.Continues r) : p.Continues r :=
  ⟨h.evolves.trans k.evolves, h.values.trans k.values, h.last.trans k.last⟩

end Progress.Continues

/-! ### What the parts of a statement leave -/

section
variable {p q : Progress} {mentioned : List String} {s : Statement}

theorem lower_ok {d : Directive} (h : Run.lower s p = .ok d q) : q.last = p.last := by
  obtain ⟨w, directives, inspections, last⟩ := p
  unfold Run.lower at h
  dsimp only at h
  split at h
  · cases h
    rfl
  · cases h

theorem lower_last (h : s.command = .last) :
    Run.lower s p = .ok .last { p with directives := p.directives.push (s.span, .last) } := by
  unfold Run.lower Statement.lower
  rw [h]
  rfl

theorem step_ok {α : Type} {span : Span} {f : Step α} {a : α} (h : Run.step span f p = .ok a q) :
    ∃ m, f p.workspace.machine = .ok a m ∧ q = { p with workspace.machine := m } := by
  obtain ⟨⟨m, names⟩, directives, inspections, last⟩ := p
  unfold Run.step at h
  dsimp only at h ⊢
  split at h
  · next a' m' hf =>
    cases h
    exact ⟨m', hf, rfl⟩
  · cases h

theorem observe_ok {a : Action} {u : Unit} (h : Run.observe a p = .ok u q) :
    q.workspace = p.workspace ∧ q.last = p.last := by
  unfold Run.observe at h
  split at h <;> cases h <;> exact ⟨rfl, rfl⟩

/-- Performing the directive for the final value takes the topmost value and records its name. -/
theorem perform_last_ok {span : Span} {o : Outcome} (h : Run.perform span .last p = .ok o q) :
    ∃ v, p.workspace.machine.builder.stack.head? = some v ∧
      q.workspace = { p.workspace with machine := p.workspace.machine.taken 1 } ∧
      q.last = p.last.push (p.workspace.machine.context.displayName v) := by
  obtain ⟨v, p₁, hpop, h⟩ := StackAssembler.bind_ok h
  obtain ⟨m, hm, rfl⟩ := step_ok hpop
  obtain ⟨hv, _, rfl⟩ := (Step.resolve_ends .stack p.workspace.machine).of_ok hm
  cases h
  refine ⟨v, ?_, rfl, rfl⟩
  simpa [Machine.denote, List.head?_eq_getElem?] using hv

/-- A statement that succeeds performs the action that it is lowered to, or it takes the final value. -/
theorem Running.statement_ok {o : Outcome} (hr : Running p.workspace mentioned) (hs : s.command ≠ .phi [])
    (h : Run.statement s p = .ok o q) :
    (∃ a w m, Lowered p.workspace mentioned s.command a w ∧ a.execute w.machine = .ok () m ∧
      q.workspace = { w with machine := m } ∧ q.last = p.last) ∨
    ∃ v, p.workspace.machine.builder.stack.head? = some v ∧
      q.workspace = { p.workspace with machine := p.workspace.machine.taken 1 } ∧
      q.last = p.last.push (p.workspace.machine.context.displayName v) := by
  obtain ⟨d, p₁, hl, h⟩ := StackAssembler.bind_ok h
  have hd := (hr.lower hs).of_ok hl
  have hlast := lower_ok hl
  cases d with
  | perform a =>
    obtain ⟨_, p₂, hx, h⟩ := StackAssembler.bind_ok h
    obtain ⟨m, hm, rfl⟩ := step_ok hx
    obtain ⟨_, p₃, hobs, h⟩ := StackAssembler.bind_ok h
    obtain ⟨hw, hl₃⟩ := observe_ok hobs
    cases h
    exact .inl ⟨a, p₁.workspace, m, hd, hm, hw, hl₃.trans hlast⟩
  | last =>
    obtain ⟨_, hw⟩ := hd
    have hperform := perform_last_ok h
    rw [hw, hlast] at hperform
    exact .inr hperform

theorem Running.continues {o : Outcome} (hr : Running p.workspace mentioned) (hs : s.command ≠ .phi [])
    (h : Run.statement s p = .ok o q) : p.Continues q := by
  rcases hr.statement_ok hs h with ⟨a, w, m, hd, hm, hw, hlast⟩ | ⟨v, _, hw, hlast⟩
  · obtain ⟨ho, _, _⟩ := Lowered.ready hr hd
    have hleads := ((Proceeds.execute ho.sound hd.fits.knows).of_ok hm).1
    have hwithin := ho.sound.within hd.fits.knows
    rw [after, hm] at hwithin
    refine ⟨?_, ?_, ?_⟩
    · rw [hw]
      exact hd.evolves.trans hleads.evolves
    · rw [hw]
      exact hd.numbers.values.trans hwithin.values
    · exact hlast ▸ List.prefix_rfl
  · refine ⟨?_, ?_, ?_⟩
    · rw [hw]
      exact .refl _
    · rw [hw]
      exact List.prefix_rfl
    · rw [hlast]
      simp

theorem Running.script_continues {script : List Statement} (hr : Running p.workspace mentioned)
    (hs : ∀ s ∈ script, s.command ≠ .phi []) (h : Run.script script p = .ok () q) : p.Continues q := by
  induction script generalizing p mentioned with
  | nil =>
    cases h
    exact .refl _
  | cons s script ih =>
    obtain ⟨hs, hss⟩ := List.forall_mem_cons.mp hs
    obtain ⟨o, p₁, h₁, h⟩ := StackAssembler.bind_ok h
    exact (hr.continues hs h₁).trans (ih ((hr.statement hs).of_ok h₁) hss h)

end

/-! ### Names of final values -/

/-- A statement of a script asks for the final value when the run has come to a point, and the value on top of the
stack is taken. -/
structure Asked (source : String) (p : Progress) (v : ValueId) : Prop where
  script : ∃ done s rest, Parser.parse source = .ok (done ++ s :: rest) ∧ s.command = .last ∧
    Run.script done {} = .ok () p
  top : p.workspace.machine.builder.stack.head? = some v

theorem script_append {xs ys : List Statement} {p q : Progress} (h : Run.script xs p = .ok () q) :
    Run.script (xs ++ ys) p = Run.script ys q := by
  induction xs generalizing p with
  | nil =>
    cases h
    rfl
  | cons s xs ih =>
    obtain ⟨o, p₁, h₁, h⟩ := StackAssembler.bind_ok h
    rw [List.cons_append, Run.script, bind_of_ok h₁, ih h]

/-- If a script runs to its end, so does every first part of it. -/
theorem script_of_append {xs ys : List Statement} {p r : Progress} (h : Run.script (xs ++ ys) p = .ok () r) :
    Run.script xs p = .ok () (after (Run.script xs) p) := by
  induction xs generalizing p with
  | nil => rfl
  | cons s xs ih =>
    obtain ⟨o, p₁, h₁, h⟩ := StackAssembler.bind_ok h
    unfold after
    rw [Run.script, bind_of_ok h₁, ih h]

/-- A run that succeeds parses its script and runs all of it. -/
theorem run_ok {source : String} {tokensFirst : Bool} {out : Output} {q : Progress}
    (h : run source tokensFirst = (.ok out, q)) :
    ∃ script, Parser.parse source = .ok script ∧ Run.script script {} = .ok () q ∧ out.last = q.last.toList := by
  unfold run at h
  dsimp only at h
  split at h
  · cases h
  · next script hread =>
    split at h
    · next p hp =>
      cases h
      exact ⟨script, reading_ok hread, hp, rfl⟩
    · cases h

/-- From a point where the final value is asked for, the run goes on with its name on record. -/
theorem Asked.continues {source : String} {tokensFirst : Bool} {out : Output} {p q : Progress} {v : ValueId}
    (h : Asked source p v) (hrun : run source tokensFirst = (.ok out, q)) :
    Progress.Continues {} p ∧ p.Continues q ∧
      out.last[p.last.size]? = some (p.workspace.machine.context.displayName v) := by
  obtain ⟨done, s, rest, hparse, hlast, hdone⟩ := h.script
  obtain ⟨script, hparse', hscript, hout⟩ := run_ok hrun
  obtain rfl : script = done ++ s :: rest := Except.ok.inj (hparse'.symm.trans hparse)
  have hs := Parser.parse_ok hparse
  obtain ⟨hs₁, hs₂, hs₃⟩ : (∀ s ∈ done, s.command ≠ .phi []) ∧ s.command ≠ .phi [] ∧
      ∀ s ∈ rest, s.command ≠ .phi [] := by
    rwa [List.forall_mem_append, List.forall_mem_cons] at hs
  have start : Running ({} : Progress).workspace [] := .empty
  have hr := (start.script hs₁).of_ok hdone
  rw [script_append hdone] at hscript
  obtain ⟨o, p₁, h₁, hrest⟩ := StackAssembler.bind_ok hscript
  have hcont := hr.continues hs₂ h₁
  have hfinal := ((hr.statement hs₂).of_ok h₁).script_continues hs₃ hrest
  obtain ⟨d, p₀, hl, hx⟩ := StackAssembler.bind_ok h₁
  rw [lower_last hlast] at hl
  cases hl
  obtain ⟨u, hu, _, hrecorded⟩ := perform_last_ok hx
  obtain rfl : v = u := Option.some.inj (h.top.symm.trans hu)
  refine ⟨start.script_continues hs₁ hdone, hcont.trans hfinal, ?_⟩
  obtain ⟨later, hlater⟩ := hfinal.last
  rw [hout, ← hlater, hrecorded]
  simp

/-- The name on record for an unnamed result is the one that it has at the moment. The final text has it under the same
name if and only if the result already stood in a function, and no result that goes by a number was later added to a
block of the function in front of its own. -/
theorem recorded_name {source : String} {tokensFirst : Bool} {out : Output} {p q : Progress} {v : ValueId} {b : BlockId}
    (hrun : run source tokensFirst = (.ok out, q)) (asked : Asked source p v)
    (hv : p.workspace.machine.context.UnnamedResult v b) :
    out.last[p.last.size]? = some (p.workspace.machine.context.localName v) ∧
      ∀ f, q.workspace.machine.context.functionOf? v = some f →
        (out.last[p.last.size]? =
            some (q.workspace.machine.context.nameText (q.workspace.machine.context.spelling f) v) ↔
          p.workspace.machine.context.functionOf? v = some f ∧
            p.workspace.machine.context.Unshifted q.workspace.machine.context f b) := by
  obtain ⟨hbegin, hcont, hrecorded⟩ := asked.continues hrun
  have hc : Coherent p.workspace.machine.context := (Coherent.empty default).evolve hbegin.evolves
  have hd : Coherent q.workspace.machine.context := hc.evolve hcont.evolves
  have he := hcont.evolves.keeps
  have hv' := hv.later hcont.values
  rw [hrecorded, hv.displayName_eq]
  refine ⟨rfl, fun f hf => ?_⟩
  rw [hv'.functionOf?_eq] at hf
  rw [nameText_unnamedResult hd hf hv', hv.functionOf?_eq, Option.some_inj]
  cases hg : (p.workspace.machine.context.block b).function with
  | none =>
    rw [hv.localName_detached hg]
    exact ⟨fun h => absurd h.symm (number_ne_position _ _), fun h => nomatch h.1⟩
  | some g =>
    have hbg : (q.workspace.machine.context.block b).function = some g :=
      (he.block (hc.hasBlock ((hc.adopted.listed g b).mpr hg))).function g hg
    obtain rfl : g = f := Option.some.inj (hbg.symm.trans hf)
    rw [hv.localName_eq hc hg]
    have hnumber := numberOf_eq_iff he hcont.values hc hg hv
    constructor
    · intro h
      exact ⟨rfl, hnumber.mp (number_inj h).symm⟩
    · rintro ⟨_, h⟩
      rw [hnumber.mpr h]

/-! Two results, the second of which is put in front of the first when that one is already on record. -/

def Statement.overtaking : String :=
  "module m\nfunction @f(i8) -> i8\nblock head\nblock tail\nadd $0, $0\nlast\nset_block head\nadd $0, $0\nlast\n"

def Statement.overtaken : List Statement :=
  [⟨.module "m", ⟨0, 8⟩⟩, ⟨.function "f" ⟨"i8", 0, ⟨28, 30⟩⟩ [⟨"i8", 0, ⟨21, 23⟩⟩] false, ⟨9, 30⟩⟩,
    ⟨.block "head", ⟨31, 41⟩⟩, ⟨.block "tail", ⟨42, 52⟩⟩, ⟨.binary .add (.arg 0) (.arg 0), ⟨53, 63⟩⟩, ⟨.last, ⟨64, 68⟩⟩,
    ⟨.setBlock "head", ⟨69, 83⟩⟩, ⟨.binary .add (.arg 0) (.arg 0), ⟨84, 94⟩⟩, ⟨.last, ⟨95, 99⟩⟩]

theorem parse_overtaking : Parser.parse Statement.overtaking = .ok Statement.overtaken :=
  eq_ok_of_toOption (by decide +kernel)

/-- The run after so many statements. -/
def Progress.overtaken (n : Nat) : Progress := after (Run.script (Statement.overtaken.take n)) {}

theorem run_overtaken (n : Nat) : Run.script (Statement.overtaken.take n) {} = .ok () (Progress.overtaken n) := by
  have hall : Run.script Statement.overtaken {} = .ok () _ := eq_ok_of_failure? (by decide +kernel)
  rw [← List.take_append_drop n Statement.overtaken] at hall
  exact script_of_append hall

theorem run_overtaking : ∃ out, run Statement.overtaking false = (.ok out, Progress.overtaken 9) := by
  unfold run
  dsimp only
  rw [if_neg Bool.false_ne_true, parse_overtaking]
  dsimp only
  rw [show Run.script Statement.overtaken {} = _ from run_overtaken 9]
  exact ⟨_, rfl⟩

theorem asked_overtaken {n : Nat} {v : ValueId} (hlast : (Statement.overtaken[n]?).map (·.command) = some .last)
    (top : (Progress.overtaken n).workspace.machine.builder.stack.head? = some v) :
    Asked Statement.overtaking (Progress.overtaken n) v := by
  obtain ⟨s, hs, hlast⟩ := Option.map_eq_some_iff.mp hlast
  obtain ⟨hn, rfl⟩ := List.getElem?_eq_some_iff.mp hs
  refine ⟨⟨_, _, Statement.overtaken.drop (n + 1), ?_, hlast, run_overtaken n⟩, top⟩
  rw [← List.drop_eq_getElem_cons hn, List.take_append_drop, parse_overtaking]

/-- The result that was recorded last keeps its name. -/
theorem recorded_name_overtaking : ∃ out, run Statement.overtaking false = (.ok out, Progress.overtaken 9) ∧
    Asked Statement.overtaking (Progress.overtaken 8) ⟨3⟩ ∧
    out.last[1]? = some "%1" ∧
    out.last[1]? = some ((Progress.overtaken 9).workspace.machine.context.nameText
      ((Progress.overtaken 9).workspace.machine.context.spelling ⟨0⟩) ⟨3⟩) := by
  obtain ⟨out, hrun⟩ := run_overtaking
  have asked : Asked Statement.overtaking (Progress.overtaken 8) ⟨3⟩ := asked_overtaken (by decide) (by decide +kernel)
  have hv : (Progress.overtaken 8).workspace.machine.context.UnnamedResult ⟨3⟩ ⟨0⟩ :=
    ⟨⟨.binary .add ⟨1⟩ ⟨1⟩, by decide +kernel⟩, by decide +kernel, by decide +kernel⟩
  have hindex : (Progress.overtaken 8).last.size = 1 := by decide +kernel
  obtain ⟨hrecorded, hfinal⟩ := recorded_name hrun asked hv
  have hname : (Progress.overtaken 8).workspace.machine.context.localName ⟨3⟩ = "%1" := by decide +kernel
  have hunshifted : (Progress.overtaken 8).workspace.machine.context.Unshifted
      (Progress.overtaken 9).workspace.machine.context ⟨0⟩ ⟨0⟩ := by
    have hfront : (Progress.overtaken 9).workspace.machine.context.blocksBefore ⟨0⟩ ⟨0⟩ = [] := by decide +kernel
    intro k hk
    rw [hfront] at hk
    cases hk
  have hsame := (hfinal ⟨0⟩ (by decide +kernel)).mpr ⟨by decide +kernel, hunshifted⟩
  rw [hindex] at hrecorded hsame
  exact ⟨out, hrun, asked, hname ▸ hrecorded, hsame⟩

/-- The result that was recorded first is `%1` on record, but `%2` in the final text. -/
theorem recorded_name_overtaken : ∃ out, run Statement.overtaking false = (.ok out, Progress.overtaken 9) ∧
    Asked Statement.overtaking (Progress.overtaken 5) ⟨2⟩ ∧
    (Progress.overtaken 5).workspace.machine.context.UnnamedResult ⟨2⟩ ⟨1⟩ ∧
    (Progress.overtaken 9).workspace.machine.context.functionOf? ⟨2⟩ = some ⟨0⟩ ∧
    out.last[(Progress.overtaken 5).last.size]? = some "%1" ∧
    (Progress.overtaken 9).workspace.machine.context.nameText
      ((Progress.overtaken 9).workspace.machine.context.spelling ⟨0⟩) ⟨2⟩ = "%2" := by
  obtain ⟨out, hrun⟩ := run_overtaking
  have asked : Asked Statement.overtaking (Progress.overtaken 5) ⟨2⟩ := asked_overtaken (by decide) (by decide +kernel)
  have hv : (Progress.overtaken 5).workspace.machine.context.UnnamedResult ⟨2⟩ ⟨1⟩ :=
    ⟨⟨.binary .add ⟨1⟩ ⟨1⟩, by decide +kernel⟩, by decide +kernel, by decide +kernel⟩
  have hname : (Progress.overtaken 5).workspace.machine.context.displayName ⟨2⟩ = "%1" := by decide +kernel
  exact ⟨out, hrun, asked, hv, by decide +kernel, hname ▸ (asked.continues hrun).2.2, by decide +kernel⟩

end StackAssembler.Script
