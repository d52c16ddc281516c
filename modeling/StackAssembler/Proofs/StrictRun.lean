import StackAssembler.Proofs.Lockstep
import StackAssembler.Proofs.StrictPrinter
import StackAssembler.Proofs.StrictReading

/-! Running scripts within the domains of all operations. No script makes a look-up miss its entry or an operation leave
its domain, and at the end of each of its statements all handles refer to entries. -/
namespace StackAssembler.Script
open IR Build
open Guarded (look state)

instance : Holder Progress := ⟨fun p => Holder.context p.workspace, fun p => Holder.handles p.workspace⟩

namespace Strict

/-- A stretch of a run that looks at entries, or has no result. -/
abbrev Run := Guarded ScriptError Progress

namespace Run

def lower (s : Statement) : Run Directive := fun p =>
  match p with
  | ⟨w, directives, inspections, last⟩ =>
    match Strict.lower s w with
    | none => none
    | some (.ok d w) => some (.ok d ⟨w, directives.push (s.span, d), inspections, last⟩)
    | some (.error e w) => some (.error e ⟨w, directives, inspections, last⟩)

def step {α : Type} (span : Span) (f : Build.Strict.Step α) : Run α := fun p =>
  match p with
  | ⟨⟨m, names⟩, directives, inspections, last⟩ =>
    match f m with
    | none => none
    | some (.ok a m) => some (.ok a ⟨⟨m, names⟩, directives, inspections, last⟩)
    | some (.error e m) => some (.error (.build e span) ⟨⟨m, names⟩, directives, inspections, last⟩)

def perform (span : Span) : Directive → Run Outcome
  | .perform a => do
    step span (Build.Strict.execute a)
    liftM (Script.Run.observe a)
    return .performed a.name
  | .last => do
    let v ← step span (liftM Build.Step.pop)
    let text ← look fun p => IR.Strict.displayName p.workspace.machine.context v
    liftM (modify fun p => { p with last := p.last.push text } : Script.Run PUnit)
    return .last text

def statement (s : Statement) : Run Outcome := do
  let d ← lower s
  perform s.span d

def script : List Statement → Run Unit
  | [] => return ()
  | s :: rest => do
    let _ ← statement s
    script rest

end Run

/-- The statements of a script, all of which is cut into tokens before when this is asked for. -/
def read (source : String) (tokensFirst : Bool) : Option (Except ScriptError (List Statement)) := do
  if tokensFirst then
    match ← tokens source with
    | .ok _ => parse source
    | .error e => return .error e
  else parse source

def run (source : String) (tokensFirst : Bool) : Option (Except ScriptError Output × Progress) := do
  match ← read source tokensFirst with
  | .error e => return (.error e, {})
  | .ok statements =>
    match ← Run.script statements {} with
    | .ok () p =>
      let texts ← p.modules.mapM (IR.Strict.printModule p.workspace.machine.context)
      return (.ok ⟨"\n".intercalate texts, p.last.toList⟩, p)
    | .error e p => return (.error e, p)

/-! ### Statements -/

section
variable {p : Progress}

theorem lower_run_faithful {s : Statement} (hn : s.command.Narrow) (hp : Intact p) :
    Faithful (Run.lower s) (Script.Run.lower s) p fun d p' => p'.workspace.machine.context.Knows d.handles := by
  obtain ⟨w, directives, inspections, last⟩ := p
  obtain ⟨hx, hf⟩ := lower_faithful (w := w) hn ⟨hp.closed, hp.known⟩
  unfold Faithful Run.lower Script.Run.lower
  dsimp only
  rw [hx]
  cases hr : s.lower w with
  | ok d w' =>
    rw [hr] at hf
    exact ⟨rfl, ⟨⟨hf.1.intact.closed, hf.1.intact.known⟩, hf.1.retains⟩, hf.2⟩
  | error e w' =>
    rw [hr] at hf
    exact ⟨rfl, ⟨hf.intact.closed, hf.intact.known⟩, hf.retains⟩

theorem step_faithful {α : Type} {x : Build.Strict.Step α} {f : Step α} {P : α → Machine → Prop} (span : Span)
    (hp : Intact p) (h : Faithful x f p.workspace.machine P) :
    Faithful (Run.step span x) (Script.Run.step span f) p fun a p' => P a p'.workspace.machine := by
  obtain ⟨⟨m, names⟩, directives, inspections, last⟩ := p
  obtain ⟨hx, hf⟩ := h
  -- what the names of modules stand for is still known
  have intact {m' : Machine} (hb : Becomes m m') : Becomes (σ := Progress)
      ⟨⟨m, names⟩, directives, inspections, last⟩ ⟨⟨m', names⟩, directives, inspections, last⟩ := by
    have known := hb.retains _ hp.known
    refine ⟨⟨hb.intact.closed, { hb.intact.known with modules := fun k hk => ?_ }⟩, hb.retains⟩
    rcases List.mem_append.mp hk with hk | hk
    · exact known.modules k (List.mem_append_left _ hk)
    · exact hb.intact.known.modules k hk
  unfold Faithful Run.step Script.Run.step
  dsimp only
  rw [hx]
  cases hr : f m with
  | ok a m' =>
    rw [hr] at hf
    exact ⟨rfl, intact hf.1, hf.2⟩
  | error e m' =>
    rw [hr] at hf
    exact ⟨rfl, intact hf⟩

theorem intact_machine (hp : Intact p) : Intact p.workspace.machine :=
  ⟨hp.closed, { hp.known with modules := fun k hk => hp.known.modules k (List.mem_append_right _ hk) }⟩

theorem perform_faithful (span : Span) {d : Directive} (hp : Intact p)
    (hd : p.workspace.machine.context.Knows d.handles) :
    Faithful (Run.perform span d) (Script.Run.perform span d) p fun _ _ => True := by
  cases d with
  | perform a =>
    refine (step_faithful span hp (Build.Strict.execute_faithful (intact_machine hp) hd)).bind fun _ p₁ h₁ _ => ?_
    have observed : Faithful (liftM (Script.Run.observe a)) (Script.Run.observe a) p₁ fun _ _ => True := by
      refine .lift ?_
      unfold Script.Run.observe
      split <;> exact ⟨⟨⟨h₁.intact.closed, h₁.intact.known⟩, .refl _⟩, trivial⟩
    exact observed.bind fun _ p₂ h₂ _ => .pure h₂.intact trivial
  | last =>
    refine (step_faithful span hp (Build.Strict.pop_faithful (intact_machine hp))).bind fun v p₁ h₁ hv => ?_
    refine .get (.look (IR.Strict.displayName_eq h₁.intact.closed hv) ?_)
    have recorded (text : String) :
        Faithful (ε := ScriptError) (liftM (modify fun p => { p with last := p.last.push text } : Script.Run PUnit))
          (modify fun p => { p with last := p.last.push text }) p₁ fun _ _ => True :=
      .lift ⟨⟨⟨h₁.intact.closed, h₁.intact.known⟩, .refl _⟩, trivial⟩
    exact (recorded _).bind fun _ p₂ h₂ _ => .pure h₂.intact trivial

theorem statement_faithful {s : Statement} (hn : s.command.Narrow) (hp : Intact p) :
    Faithful (Run.statement s) (Script.Run.statement s) p fun _ _ => True :=
  (lower_run_faithful hn hp).bind fun _ _ h₁ hd => perform_faithful s.span h₁.intact hd

theorem script_faithful {script : List Statement} (hn : ∀ s ∈ script, s.command.Narrow) (hp : Intact p) :
    Faithful (Run.script script) (Script.Run.script script) p fun _ _ => True := by
  induction script generalizing p with
  | nil => exact .pure hp trivial
  | cons s script ih =>
    obtain ⟨hs, hss⟩ := List.forall_mem_cons.mp hn
    exact (statement_faithful hs hp).bind fun _ p₁ h₁ _ => ih hss h₁.intact

end

/-! ### Scripts -/

theorem intact_empty : Intact ({} : Progress) := ⟨.empty, Context.knows_nothing⟩

theorem read_eq (source : String) (tokensFirst : Bool) : read source tokensFirst = some (do
    if tokensFirst then
      let _ ← Script.tokens source
    Parser.parse source) := by
  unfold read
  rw [tokens_eq, parse_eq]
  cases tokensFirst with
  | false => rfl
  | true => cases Script.tokens source <;> rfl

theorem moduleTexts_eq {p : Progress} (hp : Intact p) :
    p.modules.mapM (IR.Strict.printModule p.workspace.machine.context) = some p.moduleTexts :=
  IR.Strict.mapM_eq fun m hm => IR.Strict.printModule_eq hp.closed
    (hp.known.modules m (List.mem_append_left _ (List.mem_append_right _ hm)))

end Strict

/-- Each script has a result, in which no operation was used outside of its domain. And after any part of a script that
can be read, whether or not it failed, all handles refer to entries of the context. -/
theorem run_within_domains (source : String) (tokensFirst : Bool) :
    Strict.run source tokensFirst = some (run source tokensFirst) ∧
      ∀ done rest, Parser.parse source = .ok (done ++ rest) → Intact (after (Run.script done) {}) := by
  have start := Strict.intact_empty
  constructor
  · unfold Strict.run run
    rw [Strict.read_eq, Option.bind_eq_bind, Option.bind_some]
    dsimp only
    cases hread : (if tokensFirst then do
        let _ ← tokens source
        Parser.parse source
      else Parser.parse source) with
    | error e => rfl
    | ok script =>
      obtain ⟨hx, hrun⟩ := Strict.script_faithful (Strict.narrow_of_parse (reading_ok hread)) start
      dsimp only
      rw [hx, Option.bind_eq_bind, Option.bind_some]
      cases hr : Run.script script {} with
      | ok _ p =>
        rw [hr] at hrun
        dsimp only
        rw [Strict.moduleTexts_eq hrun.1.intact]
        rfl
      | error e p => rfl
  · intro done rest hparse
    have hn : ∀ s ∈ done, s.command.Narrow := fun s hs => Strict.narrow_of_parse hparse s (List.mem_append_left _ hs)
    have hrun := (Strict.script_faithful hn start).2
    unfold after
    cases hr : Run.script done {} with
    | ok _ p => rw [hr] at hrun; exact hrun.1.intact
    | error e p => rw [hr] at hrun; exact hrun.intact

/-- A shift by more than the width, and a branch to a block of a function in another module. -/
def Strict.sample : String :=
  "module m\nfunction @f(i8) -> i8\nblock head\nshl 200_i8, 9_i8\nmodule k\nfunction @g() -> void\nblock tail\nlast\nbr head\n"

def Strict.sampled : List Statement :=
  [⟨.module "m", ⟨0, 8⟩⟩, ⟨.function "f" ⟨"i8", 0, ⟨28, 30⟩⟩ [⟨"i8", 0, ⟨21, 23⟩⟩] false, ⟨9, 30⟩⟩,
    ⟨.block "head", ⟨31, 41⟩⟩, ⟨.binary .shl (.int 200 8) (.int 9 8), ⟨42, 58⟩⟩, ⟨.module "k", ⟨59, 67⟩⟩,
    ⟨.function "g" ⟨"void", 0, ⟨85, 89⟩⟩ [] false, ⟨68, 89⟩⟩, ⟨.block "tail", ⟨90, 100⟩⟩, ⟨.last, ⟨101, 105⟩⟩,
    ⟨.br (.named "head" ⟨109, 113⟩), ⟨106, 113⟩⟩]

theorem run_within_domains_across :
    (Strict.run Strict.sample true).isSome ∧ Parser.parse Strict.sample = .ok Strict.sampled ∧
      failure? (Run.script Strict.sampled) {} = none ∧ Intact (after (Run.script Strict.sampled) {}) ∧
      (after (Run.script Strict.sampled) {}).last = #["g"] := by
  have hparse : Parser.parse Strict.sample = .ok (Strict.sampled ++ []) := eq_ok_of_toOption (by decide +kernel)
  obtain ⟨hrun, hintact⟩ := run_within_domains Strict.sample true
  exact ⟨hrun ▸ rfl, hparse, by decide +kernel, hintact _ _ hparse, by decide +kernel⟩

end StackAssembler.Script
