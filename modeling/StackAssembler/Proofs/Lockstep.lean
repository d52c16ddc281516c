import StackAssembler.Script.Run
import StackAssembler.Proofs.Lowering
import StackAssembler.Proofs.Reading

/-! Scripts and builders in step. The names that a script has introduced are those that the builder has, and so
there are errors of the build that no script can run into. -/
namespace StackAssembler.Script
open IR Build

/-- The names of the script are those of the builder, and the modules those that were mentioned. -/
structure InStep (w : Workspace) (mentioned : List String) : Prop where
  vars : ∀ name, name ∈ w.names.vars ↔ (w.machine.builder.var? name).isSome
  blocks : ∀ name, name ∈ w.names.blocks ↔ (w.machine.builder.block? name).isSome
  modules : Tabled w mentioned
  injective : ∀ name other m, w.names.modules.lookup name = some m → w.names.modules.lookup other = some m → name = other

/-- What holds between the statements of a run. Until a function is created there is none in the context. -/
structure Running (w : Workspace) (mentioned : List String) : Prop where
  orderly : w.machine.Orderly
  settled : w.machine.context.functions.size = 0 ∨ w.machine.Settled
  inStep : InStep w mentioned

/-! ### Actions -/

section
variable {m m' : Machine} {a : Action}

/-- The variables after an action are those before and the one that it binds. -/
theorem var?_done (h : Done m a m') (name : String) :
    (m'.builder.var? name).isSome ↔ a.newVar? = some name ∨ (m.builder.var? name).isSome := by
  obtain ⟨_, vs, r, m₁, _, he, rfl⟩ := h
  have hb : ((a.binds (m.taken (a.operands.count .stack)).context).map Prod.fst) = a.newVar?.toList := by
    cases a with
    | alloc t name => cases name <;> rfl
    | _ => rfl
  have hv : (m₁.pushed r).builder.vars.map Prod.fst = a.newVar?.toList ++ m.builder.vars.map Prod.fst := by
    change m₁.builder.vars.map Prod.fst = _
    rw [he.vars, List.map_append, hb]
    rfl
  rw [Builder.var?, isSome_lookup, hv, List.mem_append, Builder.var?, isSome_lookup, Option.mem_toList]

/-- The blocks after an action are those before and the one that it creates. -/
theorem block?_arranged (h : Arranges m a m') (name : String) :
    (m'.builder.block? name).isSome ↔ a.newBlock? = some name ∨ (m.builder.block? name).isSome := by
  have same (ht : m'.builder.blocks = m.builder.blocks) (hb : a.newBlock? = none) :
      (m'.builder.block? name).isSome ↔ a.newBlock? = some name ∨ (m.builder.block? name).isSome := by
    rw [Builder.block?, ht, hb]
    simp [Builder.block?]
  cases h with
  | @created other _ _ _ ht =>
    rw [Builder.block?, Bijection.isSome_right?, ht, Builder.block?, Bijection.isSome_right?]
    simp [Machine.withBlock, Action.newBlock?, or_comm, eq_comm]
  | adopted _ _ _ _ _ ht => exact same ht rfl
  | kept ha _ _ ht =>
    refine same ht ?_
    cases a <;> first | rfl | cases ha

/-- Functions only come from their creation, after which no block of the builder is detached. -/
theorem settled_arranged (ho : m.Orderly) (hs : m.context.functions.size = 0 ∨ m.Settled) (h : Arranges m a m') :
    m'.context.functions.size = 0 ∨ m'.Settled := by
  rcases hs with hs | hs
  · cases h with
    | created _ hc =>
      have hf : m.builder.activeFunction? = none := by
        cases hf : m.builder.activeFunction? with
        | none => rfl
        | some f =>
          have hlt : f.index < m.context.functions.size := ho.sound.known.functions f (List.mem_of_head? hf)
          omega
      refine Or.inl ?_
      rw [hc, Machine.withBlock, hf]
      exact hs
    | @adopted spec _ _ _ hu hb hk hn hc ht hl hp hf =>
      have ha : Arranges m (.createFunction spec) m' := .adopted hu hb hk hn hc ht hl hp hf
      exact Or.inr (.created ho ha)
    | kept _ _ hc => exact Or.inl (hc.trans hs)
  · exact Or.inr (hs.arranged ho h)

end

/-! ### Statements -/

/-- What lowering leaves when the machine is about to perform the action. -/
theorem Lowered.ready {w w' : Workspace} {mentioned : List String} {c : Command} {a : Action}
    (hr : Running w mentioned) (h : Lowered w mentioned c a w') :
    w'.machine.Orderly ∧ (w'.machine.context.functions.size = 0 ∨ w'.machine.Settled) ∧ w'.machine.Meets a := by
  have hu : Unmoved w.machine.context w'.machine.context :=
    ⟨fun f => by rw [Context.function, h.functions]; rfl, fun b => by rw [Context.block, h.blocks]; rfl⟩
  have hm : w'.machine = { w.machine with context := w'.machine.context } := by
    change w'.machine = ⟨w'.machine.context, w.machine.builder⟩
    rw [← h.builder]
  have ho : w'.machine.Orderly := hm ▸ hr.orderly.edited h.evolves hu
  have hs : w'.machine.context.functions.size = 0 ∨ w'.machine.Settled := by
    rcases hr.settled with hs | hs
    · exact Or.inl (by rw [h.functions, hs])
    · exact Or.inr (hm ▸ hs.edited hu)
  refine ⟨ho, hs, ?_⟩
  constructor
  · intro o hin name hn
    rw [h.builder]
    exact (hr.inStep.vars name).mp ((h.fits.operands o hin).named name hn)
  · intro t hin name hn
    rw [h.builder]
    exact (hr.inStep.blocks name).mp ((h.fits.targets t hin).named name hn)
  · intro name ha
    rw [h.builder]
    exact (hr.inStep.blocks name).mp (h.fits.goto name ha)
  · exact h.fits.edges
  · -- A function is active only after one was created, and then the current block is in a function.
    intro hf b hb
    rcases hs with hs | hs
    · obtain ⟨f, fs, hfs⟩ := List.exists_cons_of_ne_nil hf
      have hlt : f.index < w'.machine.context.functions.size := ho.sound.known.functions f (by simp [Builder.handles, hfs])
      omega
    · exact hs.owned b (ho.ordered.current b hb)

theorem Running.perform {w w' : Workspace} {mentioned : List String} {c : Command} {a : Action} {m : Machine}
    (hr : Running w mentioned) (h : Lowered w mentioned c a w') (hx : a.execute w'.machine = .ok () m) :
    Running { w' with machine := m } (mentioned ++ c.module?.toList) := by
  obtain ⟨ho, hs, _⟩ := h.ready hr
  have hdone := (a.execute_ends w'.machine).of_ok hx
  have harr := Done.arranges ho.sound h.fits.knows hdone
  have hl : w'.machine.Leads m := ((Proceeds.execute ho.sound h.fits.knows).of_ok hx).1
  have hact : m.Orderly := by
    have := ho.act h.fits.knows
    rwa [after, hx] at this
  have ht : Tabled { w' with machine := m } (mentioned ++ c.module?.toList) := h.modules.mono rfl rfl hl.evolves
  refine ⟨hact, settled_arranged ho hs harr, ?_, ?_, ht, fun _ _ _ => ht.injective⟩
  · intro name
    change name ∈ w'.names.vars ↔ _
    rw [var?_done hdone, h.varNames, h.builder, List.mem_append, Option.mem_toList, hr.inStep.vars]
  · intro name
    change name ∈ w'.names.blocks ↔ _
    rw [block?_arranged harr, h.blockNames, h.builder, List.mem_append, Option.mem_toList, hr.inStep.blocks]

/-- Taking the final value only changes the stack. -/
theorem Running.pop {w : Workspace} {mentioned : List String} {v : ValueId} {m : Machine} (hr : Running w mentioned)
    (hx : Step.pop w.machine = .ok v m) : Running { w with machine := m } mentioned := by
  obtain ⟨_, _, hm⟩ := (Step.resolve_ends .stack w.machine).of_ok hx
  rw [hm]
  obtain ⟨hv, hb, ht, hi⟩ := hr.inStep
  exact ⟨⟨(hr.orderly.sound.taken _).sound, hr.orderly.adopted, hr.orderly.ordered⟩,
    hr.settled.imp id fun hs => ⟨hs.active, hs.owned⟩, hv, hb, ⟨ht.keys, ht.listed, ht.once, ht.named⟩, hi⟩

/-! ### Runs -/

section
variable {p : Progress} {mentioned : List String} {s : Statement}

/-- What a statement asks for, in the workspace that lowering leaves. -/
def Directs (w : Workspace) (mentioned : List String) (c : Command) (d : Directive) (w' : Workspace) : Prop :=
  match d with
  | .perform a => Lowered w mentioned c a w'
  | .last => c.module? = none ∧ w' = w

theorem Running.lower (hr : Running p.workspace mentioned) (hs : s.command ≠ .phi []) :
    Yields (Run.lower s p) (fun d p' => Directs p.workspace mentioned s.command d p'.workspace)
      fun e => e.isPrecluded = false := by
  obtain ⟨w, directives, inspections, last⟩ := p
  have hl : Yields (s.lower w) (Directs w mentioned s.command) fun e => e.isPrecluded = false := by
    refine (Lowers.action hr.orderly.sound hr.inStep.modules s.span hs).bind fun a? w' ha => ?_
    cases a? with
    | some a => exact ha
    | none => exact ha
  unfold Run.lower
  dsimp only
  cases hx : s.lower w with
  | ok d w' => rw [hx] at hl; exact hl
  | error e w' => rw [hx] at hl; exact hl

theorem step_yields {α : Type} {f : Step α} {P : α → Machine → Prop} (span : Span) (h : Plainly (f p.workspace.machine) P) :
    Yields (Run.step span f p)
      (fun a p' => ∃ m, f p.workspace.machine = .ok a m ∧ p'.workspace = { p.workspace with machine := m })
      fun e => e.isPrecluded = false := by
  obtain ⟨⟨m, names⟩, directives, inspections, last⟩ := p
  unfold Run.step
  dsimp only at h ⊢
  cases hx : f m with
  | ok a m' => exact ⟨m', rfl, rfl⟩
  | error e m' => rw [hx] at h; exact h

theorem observe_yields (a : Action) (p : Progress) :
    Yields (Run.observe a p) (fun _ p' => p'.workspace = p.workspace) fun e => e.isPrecluded = false := by
  unfold Run.observe
  split <;> exact rfl

/-- One statement. -/
theorem Running.statement (hr : Running p.workspace mentioned) (hs : s.command ≠ .phi []) :
    Yields (Run.statement s p) (fun _ p' => Running p'.workspace (mentioned ++ s.command.module?.toList))
      fun e => e.isPrecluded = false := by
  refine (hr.lower hs).bind fun d p₁ hd => ?_
  cases d with
  | perform a =>
    obtain ⟨_, _, hmeets⟩ := Lowered.ready hr hd
    refine (step_yields s.span hmeets.execute).bind fun _ p₂ ⟨m, hx, hw₂⟩ => ?_
    refine (observe_yields a p₂).bind fun _ p₃ hw₃ => ?_
    change Running p₃.workspace _
    rw [hw₃, hw₂]
    exact hr.perform hd hx
  | last =>
    obtain ⟨hm, hw⟩ := hd
    have hpop : Plainly (Step.pop p₁.workspace.machine) fun _ m' => ∃ k, m' = p₁.workspace.machine.taken k :=
      Step.resolve_plainly (o := .stack) nofun
    refine (step_yields s.span hpop).bind fun v p₂ ⟨m, hx, hw₂⟩ => ?_
    change Running p₂.workspace _
    rw [hm, Option.toList_none, List.append_nil, hw₂]
    exact Running.pop (hw ▸ hr) hx

/-- The modules that statements mention. -/
def mentions (script : List Statement) : List String := script.filterMap (·.command.module?)

theorem Running.script {script : List Statement} (hr : Running p.workspace mentioned)
    (hs : ∀ s ∈ script, s.command ≠ .phi []) :
    Yields (Run.script script p) (fun _ p' => Running p'.workspace (mentioned ++ mentions script))
      fun e => e.isPrecluded = false := by
  induction script generalizing p mentioned with
  | nil =>
    change Running p.workspace (mentioned ++ [])
    rw [List.append_nil]
    exact hr
  | cons s script ih =>
    obtain ⟨hs, hss⟩ := List.forall_mem_cons.mp hs
    refine (hr.statement hs).bind fun _ p₁ h₁ => (ih h₁ hss).mono fun _ p₂ h₂ => ?_
    have hm : mentions (s :: script) = s.command.module?.toList ++ mentions script := by
      unfold mentions
      cases hc : s.command.module? <;> simp [hc]
    rw [hm, ← List.append_assoc]
    exact h₂

end

theorem Running.empty : Running {} [] where
  orderly := .empty _
  settled := Or.inl rfl
  inStep := ⟨by simp [Builder.var?], by simp [Builder.block?, Bijection.right?, Bijection.empty],
    ⟨.nil, rfl, List.nodup_nil, List.forall_mem_nil _⟩, nofun⟩

/-! What is read is what is parsed, with or without a look at all tokens before. -/

theorem reading_ok {source : String} {tokensFirst : Bool} {script : List Statement}
    (h : (if tokensFirst then do
        let _ ← tokens source
        Parser.parse source
      else Parser.parse source) = .ok script) : Parser.parse source = .ok script := by
  cases tokensFirst with
  | false => exact h
  | true =>
    cases ht : tokens source with
    | ok ts =>
      rw [ht] at h
      exact h
    | error e =>
      rw [ht] at h
      cases h

private theorem reading_error {source : String} {tokensFirst : Bool} {e : ScriptError}
    (h : (if tokensFirst then do
        let _ ← tokens source
        Parser.parse source
      else Parser.parse source) = .error e) : e.isTextual := by
  cases tokensFirst with
  | false => exact Parser.parse_error h
  | true =>
    cases ht : tokens source with
    | ok ts =>
      rw [ht] at h
      exact Parser.parse_error h
    | error e' =>
      rw [ht] at h
      cases h
      exact tokens_error ht

/-- After any part of a script that can be read and run, script and builder are in step. And no script runs into an
unknown variable or block, a phi without edges, a return in a detached block, a block that a new function cannot take up,
a call that the emitter finds to have too many or too few arguments, or an error of a request that is never made. -/
theorem run_in_step (source : String) (tokensFirst : Bool) :
    (∀ done rest p, Parser.parse source = .ok (done ++ rest) → Run.script done {} = .ok () p →
      InStep p.workspace (mentions done)) ∧
    ∀ cause span p, run source tokensFirst = (.error (.build cause span), p) → cause.isPrecluded = false := by
  have start : Running ({} : Progress).workspace [] := .empty
  constructor
  · intro done rest p hparse hrun
    have hs : ∀ s ∈ done, s.command ≠ .phi [] := fun s hin => Parser.parse_ok hparse s (List.mem_append_left _ hin)
    exact ((start.script hs).of_ok hrun).inStep
  · intro cause span p hrun
    unfold run at hrun
    dsimp only at hrun
    split at hrun
    · next e he =>
      have ht := reading_error he
      obtain ⟨he, _⟩ := Prod.mk.inj hrun
      rw [Except.error.inj he] at ht
      cases ht
    · next statements he =>
      have hs := Parser.parse_ok (reading_ok he)
      split at hrun
      · cases hrun
      · next e p' hx =>
        have hp := (start.script hs).of_error hx
        obtain ⟨he, _⟩ := Prod.mk.inj hrun
        rwa [Except.error.inj he] at hp

/-- Two modules, the first of which is mentioned again, and a function that takes up a block. -/
def Statement.sample : String :=
  "module m\nblock head\nfunction @f(i32) -> i32\nset_block head\nalloc i32 %x\nmodule k\nmodule m\n"

/-- The statements of the sample. -/
def Statement.sampled : List Statement := (Parser.parse Statement.sample).toOption.getD []

theorem run_in_step_sample :
    InStep (after (Run.script Statement.sampled) {}).workspace (mentions Statement.sampled) ∧
      mentions Statement.sampled = ["m", "k", "m"] ∧
      (after (Run.script Statement.sampled) {}).workspace.names =
        ⟨[("k", ⟨1⟩), ("m", ⟨0⟩)], [⟨0⟩, ⟨1⟩], ["head"], ["x"]⟩ := by
  have hparse : Parser.parse Statement.sample = .ok (Statement.sampled ++ []) := by
    rw [List.append_nil]
    unfold Statement.sampled
    cases h : Parser.parse Statement.sample with
    | ok script => rfl
    | error e =>
      have hok : (Parser.parse Statement.sample).isOk := by decide +kernel
      rw [h] at hok
      cases hok
  have hrun : Run.script Statement.sampled {} = .ok () _ := eq_ok_of_failure? (by decide +kernel)
  exact ⟨(run_in_step Statement.sample true).1 _ _ _ hparse hrun, by decide +kernel, by decide +kernel⟩

end StackAssembler.Script
