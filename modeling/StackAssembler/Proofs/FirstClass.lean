import StackAssembler.Proofs.FinalNames
import StackAssembler.Proofs.OperandTypes

/-! Operands of scripts. They are of first-class types, but for the edges of phis and for arguments that are passed
without a type or as `void`. -/
namespace StackAssembler.Script
open IR Build

/-! ### Runs -/

section
variable {p q : Progress} {mentioned : List String} {s : Statement}

/-- Lowering adds numbers, and writes down ordinary types and literals only. -/
theorem Lowered.proper {w w' : Workspace} {c : Command} {a : Action} (h : Lowered w mentioned c a w')
    (hp : w.machine.Proper) :
    w'.machine.Proper ∧ (∀ t ∈ a.types, t.Ordinary) ∧ ∀ o ∈ a.operands, o.Serves w'.machine.context := by
  refine ⟨⟨hp.context.numbers h.numbers h.functions, ?_, ?_⟩, fun t ht => (h.fits.types t ht).ordinary,
    fun o ho v hv => ?_⟩
  · rw [h.builder]
    exact fun v hv => (hp.stack v hv).later h.numbers.values
  · rw [h.builder]
    exact fun v hv => (hp.vars v hv).later h.numbers.values
  · have hfits := h.fits.operands o ho
    obtain ⟨c, hc⟩ := hfits.literal v hv
    refine .of_kind (hfits.known v hv) fun op b hk => ?_
    cases hc.symm.trans hk

theorem Running.proper {o : Outcome} (hr : Running p.workspace mentioned) (hs : s.command ≠ .phi [])
    (hp : p.workspace.machine.Proper) (h : Run.statement s p = .ok o q) : q.workspace.machine.Proper := by
  rcases hr.statement_ok hs h with ⟨a, w, m, hd, hm, hw, _⟩ | ⟨v, _, hw, _⟩
  · obtain ⟨ho, _, _⟩ := Lowered.ready hr hd
    obtain ⟨hp₁, htypes, hoperands⟩ := Lowered.proper hd hp
    have hleads := ((Proceeds.execute ho.sound hd.fits.knows).of_ok hm).1
    rw [hw]
    exact ((a.execute_ends _).of_ok hm).proper hp₁ ho.sound hleads.sound htypes hoperands
  · rw [hw]
    exact hp.taken 1

theorem Running.script_proper {script : List Statement} (hr : Running p.workspace mentioned)
    (hs : ∀ s ∈ script, s.command ≠ .phi []) (hp : p.workspace.machine.Proper) (h : Run.script script p = .ok () q) :
    q.workspace.machine.Proper := by
  induction script generalizing p mentioned with
  | nil =>
    cases h
    exact hp
  | cons s script ih =>
    obtain ⟨hs, hss⟩ := List.forall_mem_cons.mp hs
    obtain ⟨o, p₁, h₁, h⟩ := StackAssembler.bind_ok h
    exact ih ((hr.statement hs).of_ok h₁) hss (hr.proper hs hp h₁) h

end

/-- After a run, no operand of an instruction is a store or a return. The operands are of first-class types, except that
the edges of a phi, and arguments that a function takes as `void` or beyond its parameters, may be void. -/
theorem operands_first_class {source : String} {tokensFirst : Bool} {out : Output} {q : Progress}
    (hrun : run source tokensFirst = (.ok out, q)) {v u : ValueId} {op : Operation} {b : BlockId}
    (hv : (q.workspace.machine.context.value v).kind = .instruction op b) (hu : u ∈ op.operands) :
    q.workspace.machine.context.Serves u ∧
      ((q.workspace.machine.context.typeOf u).isFirstClass ∨
        q.workspace.machine.context.typeOf u = .void ∧ q.workspace.machine.context.Vacant u op) := by
  obtain ⟨script, hparse, hscript, _⟩ := run_ok hrun
  have hs := Parser.parse_ok hparse
  have start : Running ({} : Progress).workspace [] := .empty
  have empty : ({} : Progress).workspace.machine.Proper := ⟨.empty _, List.forall_mem_nil _, List.forall_mem_nil _⟩
  have hp := (start.script_proper hs empty hscript).context
  have ht : Typed q.workspace.machine.context :=
    (Typed.empty default).evolve (.empty default) (start.script_continues hs hscript).evolves
  refine ⟨hp.operands v op b hv u hu, ?_⟩
  by_cases hvoid : q.workspace.machine.context.typeOf u = .void
  · exact .inr ⟨hvoid, (ht v op b hv).2.2.vacant hp hu hvoid⟩
  · have hdata := (hp.types u).data
    left
    cases htype : q.workspace.machine.context.typeOf u with
    | void => exact absurd htype hvoid
    | function => rw [htype] at hdata; cases hdata
    | _ => rfl

/-- A phi of a branch. -/
def Statement.emptyEdge : String :=
  "module m\nfunction @f()\npop\nblock a\nblock b\nset_block a\nbr b\nset_block b\nphi [_, a]\nret\n"

/-- The run succeeds, with a branch in the first block and a phi of it in the second. -/
theorem run_emptyEdge : ∃ out q, run Statement.emptyEdge false = (.ok out, q) ∧
    q.workspace.machine.context.functionOf? ⟨2⟩ = some ⟨0⟩ ∧
    q.workspace.machine.context.value ⟨1⟩ = ⟨.void, none, .instruction (.br ⟨1⟩) ⟨0⟩⟩ ∧
    q.workspace.machine.context.value ⟨2⟩ = ⟨.void, none, .instruction (.phi [(⟨1⟩, ⟨0⟩)]) ⟨1⟩⟩ := by
  have hbuilt : (run Statement.emptyEdge false).1.toOption.isSome ∧
      (run Statement.emptyEdge false).2.workspace.machine.context.functionOf? ⟨2⟩ = some ⟨0⟩ ∧
      (run Statement.emptyEdge false).2.workspace.machine.context.value ⟨1⟩ =
        ⟨.void, none, .instruction (.br ⟨1⟩) ⟨0⟩⟩ ∧
      (run Statement.emptyEdge false).2.workspace.machine.context.value ⟨2⟩ =
        ⟨.void, none, .instruction (.phi [(⟨1⟩, ⟨0⟩)]) ⟨1⟩⟩ := by
    decide +kernel
  obtain ⟨out, hout⟩ := Option.isSome_iff_exists.mp hbuilt.1
  exact ⟨out, _, Prod.ext (eq_ok_of_toOption hout) rfl, hbuilt.2⟩

/-- What the phi reads is no store and no return, and it is void only because it is an edge. -/
theorem operands_first_class_edge : ∃ out q, run Statement.emptyEdge false = (.ok out, q) ∧
    q.workspace.machine.context.Serves ⟨1⟩ ∧ q.workspace.machine.context.Vacant ⟨1⟩ (.phi [(⟨1⟩, ⟨0⟩)]) := by
  obtain ⟨out, q, hrun, _, hbranch, hphi⟩ := run_emptyEdge
  obtain ⟨hserves, htype⟩ := operands_first_class hrun (congrArg Value.kind hphi) (u := ⟨1⟩) List.mem_cons_self
  rw [Context.typeOf, hbranch] at htype
  exact ⟨out, q, hrun, hserves, (htype.resolve_left Bool.false_ne_true).2⟩

/-- The run succeeds, and yet a phi of the function reads a branch, which is not of a first-class type. -/
theorem phi_of_branch : ∃ out q, run Statement.emptyEdge false = (.ok out, q) ∧
    q.workspace.machine.context.functionOf? ⟨2⟩ = some ⟨0⟩ ∧
    (q.workspace.machine.context.value ⟨2⟩).kind = .instruction (.phi [(⟨1⟩, ⟨0⟩)]) ⟨1⟩ ∧
    (q.workspace.machine.context.value ⟨1⟩).kind = .instruction (.br ⟨1⟩) ⟨0⟩ ∧
    (q.workspace.machine.context.typeOf ⟨1⟩).isFirstClass = false := by
  obtain ⟨out, q, hrun, hfunction, hbranch, hphi⟩ := run_emptyEdge
  refine ⟨out, q, hrun, hfunction, congrArg Value.kind hphi, congrArg Value.kind hbranch, ?_⟩
  rw [Context.typeOf, hbranch]
  rfl

end StackAssembler.Script
