import Manuscript.Proofs.Lockstep

namespace Manuscript

namespace Pass

variable {α : Type}

theorem lookalike_eq : Lookalike (fun _ => false) Eq where
  find? h _ := by rw [h]
  count h _ := by rw [h]
  set h _ _ := by rw [h]
  shadow _ _ _ _ hname := by cases hname
  setCount h _ _ := by rw [h]

theorem resolution_of_alike {s s' : PassState} (h : s.Alike Eq s') :
    s.resolution = s'.resolution := by
  obtain ⟨⟨store, warnings⟩, trace⟩ := s
  obtain ⟨rfl, rfl⟩ := h
  rfl

theorem run_applyElements_of_tracing (grammar : Grammar) (tracing tracing' : Bool) (s : PassState)
    (elements : List Element) :
    (runFrom s (applyElements ⟨grammar, tracing⟩ elements)).1 =
        (runFrom s (applyElements ⟨grammar, tracing'⟩ elements)).1 ∧
      (runFrom s (applyElements ⟨grammar, tracing⟩ elements)).2.resolution =
        (runFrom s (applyElements ⟨grammar, tracing'⟩ elements)).2.resolution := by
  have habreast := abreast_of_lookalike lookalike_eq grammar tracing tracing'
  have hmeet := (habreast.applyElements elements elements (Element.varies_refl _)).meet s s ⟨rfl, rfl⟩
  generalize runFrom s (applyElements ⟨grammar, tracing⟩ elements) = first at hmeet
  generalize runFrom s (applyElements ⟨grammar, tracing'⟩ elements) = second at hmeet
  cases hmeet with
  | ok hvaries hs =>
    exact ⟨congrArg Except.ok (Element.eq_of_forall₂_varies (fun _ => rfl) hvaries), resolution_of_alike hs⟩
  | error hs => exact ⟨rfl, resolution_of_alike hs⟩

def drafted (document : Document) : Except Fault (List Element) × PassState →
    Except Fault (Draft × List Record)
  | (.error fault, _) => .error fault
  | (.ok elements, state) =>
      let (elements, footnotes) := (Footnotes.replace elements).run ⟨[], state.resolution.warnings⟩
      .ok (⟨state.resolution.store.snapshot, document.frontMatter, elements, footnotes.notes,
        footnotes.warnings⟩, state.trace)

theorem run_of_prepare (setting : Setting) {document : Document} {configuration : Configuration}
    {store : Store} {elements : List Element}
    (h : prepare document configuration = .ok (store, elements)) :
    run setting document configuration =
      drafted document (runFrom ⟨⟨store, []⟩, []⟩ (applyElements setting elements)) := by
  rw [run, h]
  change (match runFrom ⟨⟨store, []⟩, []⟩ (applyElements setting elements) with
    | (.error fault, _) => throw fault
    | (.ok elements, state) => _) = drafted document _
  cases runFrom ⟨⟨store, []⟩, []⟩ (applyElements setting elements) with
  | mk outcome state => cases outcome <;> rfl

theorem run_of_prepare_error (setting : Setting) {document : Document}
    {configuration : Configuration} {fault : Fault}
    (h : prepare document configuration = .error fault) :
    run setting document configuration = .error fault := by
  rw [run, h]
  rfl

theorem map_fst_drafted {document : Document} {outcome : Except Fault (List Element)}
    {state state' : PassState} (h : state.resolution = state'.resolution) :
    (drafted document (outcome, state)).map (·.1) =
      (drafted document (outcome, state')).map (·.1) := by
  cases outcome with
  | error fault => rfl
  | ok elements =>
    rw [drafted, drafted, h]
    rfl

theorem substitute_eq_map_trace (grammar : Grammar) (document : Document)
    (configuration : Configuration) :
    substitute grammar document configuration =
      (trace grammar document configuration).map (·.1) := by
  rw [substitute, trace]
  cases hprepare : prepare document configuration with
  | error fault => rw [run_of_prepare_error _ hprepare, run_of_prepare_error _ hprepare]
  | ok prepared =>
    rw [run_of_prepare _ hprepare, run_of_prepare _ hprepare]
    obtain ⟨houtcome, hresolution⟩ :=
      run_applyElements_of_tracing grammar false true ⟨⟨prepared.1, []⟩, []⟩ prepared.2
    rw [← Prod.eta (runFrom _ (applyElements ⟨grammar, false⟩ _)), houtcome]
    exact map_fst_drafted hresolution

theorem exists_trace_of_substitute {grammar : Grammar} {document : Document}
    {configuration : Configuration} {draft : Draft}
    (h : substitute grammar document configuration = .ok draft) :
    ∃ records, trace grammar document configuration = .ok (draft, records) := by
  rw [substitute_eq_map_trace] at h
  cases htrace : trace grammar document configuration with
  | error fault => rw [htrace] at h; cases h
  | ok traced =>
    rw [htrace] at h
    cases h
    exact ⟨traced.2, rfl⟩

def recording : Setting := ⟨Fragment.parse, true⟩

variable {block : String} {index : Nat} {step : Step} {lines after : List Line}
  {s s' : PassState} {document : Document} {configuration : Configuration} {draft : Draft}
  {records : List Record}

def takeStep (setting : Setting) (block : String) (index : Nat) (step : Step)
    (lines : List Line) : Run (List Line) := do
  let after ← applyStep setting block step lines
  recordStep setting ⟨block, index, step, after⟩
  return after

theorem applySteps_cons (setting : Setting) (rest : List Step) :
    applySteps setting block index (step :: rest) lines =
      takeStep setting block index step lines >>= applySteps setting block (index + 1) rest := by
  simp only [applySteps, takeStep, bind_assoc, pure_bind]

theorem applySteps_append (setting : Setting) (block : String) (index : Nat)
    (steps others : List Step) (lines : List Line) :
    applySteps setting block index (steps ++ others) lines =
      applySteps setting block index steps lines >>=
        applySteps setting block (index + steps.length) others := by
  induction steps generalizing index lines with
  | nil => exact (pure_bind _ _).symm
  | cons step rest ih =>
    rw [List.cons_append, applySteps_cons, applySteps_cons, bind_assoc, List.length_cons,
      Nat.add_comm rest.length, ← Nat.add_assoc]
    exact congrArg _ (funext fun after => ih (index + 1) after)

theorem applyLines_singleton (setting : Setting) (steps : List Step) (block : String) (line : Line) :
    applyLines setting steps block [line] = applySteps setting block 0 steps [line] :=
  if_neg Bool.false_ne_true

theorem applySteps_untraced {grammar : Grammar} {rest : List Step} {middle : List Line}
    (h : runFrom s (applyStep ⟨grammar, false⟩ block step lines) = (.ok middle, s')) :
    runFrom s (applySteps ⟨grammar, false⟩ block index (step :: rest) lines) =
      runFrom s' (applySteps ⟨grammar, false⟩ block (index + 1) rest middle) :=
  runFrom_bind_ok h _

theorem applyStep_cases {setting : Setting} {rule : Rule} (hrule : step.rule? = some rule)
    (h : runFrom s (applyStep setting block step lines) = (.ok after, s')) :
    ∃ line, reread setting.grammar rule (optionsOf s.resolution.store) lines = .ok line ∧
      ((step ≠ .attributes ∧ after = [line] ∧ s' = s) ∨
        (step = .attributes ∧ ∃ resolved resolution,
          runFrom s.resolution (resolve line) = (.ok resolved, resolution) ∧
            after = [resolved] ∧ s' = { s with resolution })) := by
  rw [applyStep, hrule] at h
  obtain ⟨current, s₁, hstore, h⟩ := runFrom_bind_eq_ok.mp h
  cases hstore
  obtain ⟨line, s₂, hline, h⟩ := runFrom_bind_eq_ok.mp h
  cases hread : reread setting.grammar rule (optionsOf s.resolution.store) lines with
  | error fault => rw [hread] at hline; cases hline
  | ok line' =>
    rw [hread] at hline
    cases hline
    refine ⟨line, rfl, ?_⟩
    by_cases hstep : step = .attributes
    · rw [if_pos hstep] at h
      obtain ⟨resolved, s₃, hresolve, h⟩ := runFrom_bind_eq_ok.mp h
      cases h
      rw [runFrom_resolving] at hresolve
      obtain ⟨hresolved, rfl⟩ := Prod.mk.inj hresolve
      exact .inr ⟨hstep, resolved, _, Prod.ext hresolved rfl, rfl, rfl⟩
    · rw [if_neg hstep] at h
      cases h
      exact .inl ⟨hstep, rfl, rfl⟩

theorem cases_applySteps_cons {setting : Setting} {steps : List Step}
    (h : runFrom s (applySteps setting block index (step :: steps) lines) = (.ok after, s')) :
    ∃ middle s₁ s₂, runFrom s (applyStep setting block step lines) = (.ok middle, s₁) ∧
      s₂.resolution = s₁.resolution ∧
      runFrom s₂ (applySteps setting block (index + 1) steps middle) = (.ok after, s') := by
  rw [applySteps] at h
  obtain ⟨middle, s₁, hstep, h⟩ := runFrom_bind_eq_ok.mp h
  obtain ⟨_, s₂, hrecord, h⟩ := runFrom_bind_eq_ok.mp h
  refine ⟨middle, s₁, s₂, hstep, ?_, h⟩
  rw [recordStep] at hrecord
  split at hrecord <;> cases hrecord <;> rfl

theorem holds_of_applySteps {setting : Setting} {steps : List Step}
    {I : Resolution → List Line → Prop}
    (hstep : ∀ step ∈ steps, ∀ {s s' : PassState} {lines after : List Line},
      I s.resolution lines → runFrom s (applyStep setting block step lines) = (.ok after, s') →
        I s'.resolution after)
    (hlines : I s.resolution lines)
    (h : runFrom s (applySteps setting block index steps lines) = (.ok after, s')) :
    I s'.resolution after := by
  induction steps generalizing index lines s with
  | nil =>
    cases h
    exact hlines
  | cons step rest ih =>
    obtain ⟨hfirst, hrest⟩ := List.forall_mem_cons.mp hstep
    obtain ⟨middle, s₁, s₂, hmiddle, hsame, h⟩ := cases_applySteps_cons h
    exact ih hrest (hsame ▸ hfirst hlines hmiddle) h

theorem runFrom_ofExcept_mapError {outcome : Except Fault α} {a : α} (f : Fault → Fault)
    (h : outcome = .ok a) : runFrom s (ofExcept (outcome.mapError f)) = (.ok a, s) := by
  rw [h]
  rfl

theorem runFrom_applyStep (block : String) {setting : Setting} {rule : Rule} {line : Line}
    (hrule : step.rule? = some rule) (hstep : step ≠ .attributes)
    (hread : reread setting.grammar rule (optionsOf s.resolution.store) lines = .ok line) :
    runFrom s (applyStep setting block step lines) = (.ok [line], s) := by
  have hstore : runFrom s store = (.ok s.resolution.store, s) := rfl
  rw [applyStep, hrule]
  refine (runFrom_bind_ok hstore _).trans ?_
  refine (runFrom_bind_ok (runFrom_ofExcept_mapError _ hread) _).trans ?_
  rw [if_neg hstep]
  rfl

theorem runFrom_applyStep_attributes (block : String) {setting : Setting} {line resolved : Line}
    {resolution : Resolution}
    (hread : reread setting.grammar .attributes (optionsOf s.resolution.store) lines = .ok line)
    (hresolve : runFrom s.resolution (resolve line) = (.ok resolved, resolution)) :
    runFrom s (applyStep setting block .attributes lines) =
      (.ok [resolved], { s with resolution }) := by
  have hstore : runFrom s store = (.ok s.resolution.store, s) := rfl
  have hresolving : runFrom s (resolving (resolve line)) = (.ok resolved, { s with resolution }) := by
    rw [runFrom_resolving, hresolve]
  rw [applyStep]
  refine (runFrom_bind_ok hstore _).trans ?_
  refine (runFrom_bind_ok (runFrom_ofExcept_mapError _ hread) _).trans ?_
  exact runFrom_bind_ok hresolving _

theorem runFrom_applyStep_splitLines (setting : Setting) (block : String) (line : Line)
    (s : PassState) :
    runFrom s (applyStep setting block .splitLines [line]) = (.ok (splitLine line), s) :=
  congrArg (fun lines => (Except.ok lines, s)) (List.flatMap_singleton _ _)

theorem runFrom_takeStep (block : String) (index : Nat)
    (h : runFrom s (applyStep recording block step lines) = (.ok after, s')) :
    runFrom s (takeStep recording block index step lines) =
      (.ok after, { s' with trace := s'.trace ++ [⟨block, index, step, after⟩] }) :=
  runFrom_bind_ok h _

theorem trace_of_applyStep {setting : Setting}
    (h : runFrom s (applyStep setting block step lines) = (.ok after, s')) : s'.trace = s.trace := by
  cases hrule : step.rule? with
  | none =>
    rw [applyStep, hrule] at h
    cases h
    rfl
  | some rule =>
    obtain ⟨line, -, ⟨-, -, rfl⟩ | ⟨-, resolved, resolution, -, -, rfl⟩⟩ := applyStep_cases hrule h
    · rfl
    · rfl

inductive Recorded (setting : Setting) (block : String) :
    Nat → List Step → List Line → List Record → List Line → Prop
  | nil {index : Nat} {lines : List Line} : Recorded setting block index [] lines [] lines
  | cons {index : Nat} {step : Step} {steps : List Step} {lines middle after : List Line}
      {records : List Record} {s s' : PassState} :
      runFrom s (applyStep setting block step lines) = (.ok middle, s') →
      Recorded setting block (index + 1) steps middle records after →
      Recorded setting block index (step :: steps) lines (⟨block, index, step, middle⟩ :: records)
        after

theorem recorded_of_applySteps {grammar : Grammar} {steps : List Step}
    (h : runFrom s (applySteps ⟨grammar, true⟩ block index steps lines) = (.ok after, s')) :
    ∃ records, s'.trace = s.trace ++ records ∧
      Recorded ⟨grammar, true⟩ block index steps lines records after := by
  induction steps generalizing index lines s with
  | nil =>
    cases h
    exact ⟨[], (List.append_nil _).symm, .nil⟩
  | cons step rest ih =>
    rw [applySteps] at h
    obtain ⟨middle, s₁, hstep, h⟩ := runFrom_bind_eq_ok.mp h
    obtain ⟨_, s₂, hrecord, h⟩ := runFrom_bind_eq_ok.mp h
    cases hrecord
    obtain ⟨records, htrace, hrest⟩ := ih h
    refine ⟨⟨block, index, step, middle⟩ :: records, ?_, .cons hstep hrest⟩
    rw [htrace, ← trace_of_applyStep hstep]
    exact List.append_assoc ..

theorem recorded_of_applyLines {grammar : Grammar} {steps : List Step}
    (h : runFrom s (applyLines ⟨grammar, true⟩ steps block lines) = (.ok after, s')) :
    ∃ records, s'.trace = s.trace ++ records ∧
      ((lines = [] ∧ after = [] ∧ records = []) ∨
        lines ≠ [] ∧ Recorded ⟨grammar, true⟩ block 0 steps lines records after) := by
  rw [applyLines] at h
  split at h
  · next hempty =>
    cases h
    exact ⟨[], (List.append_nil _).symm, .inl ⟨List.isEmpty_iff.mp hempty, rfl, rfl⟩⟩
  · next hsome =>
    obtain ⟨records, htrace, hrecorded⟩ := recorded_of_applySteps h
    exact ⟨records, htrace, .inr ⟨hsome ∘ List.isEmpty_iff.mpr, hrecorded⟩⟩

inductive Through (R : Step → List Line → List Line → Prop) :
    List Step → List Line → List Line → Prop
  | nil {lines : List Line} : Through R [] lines lines
  | cons {step : Step} {steps : List Step} {lines middle after : List Line} :
      R step lines middle → Through R steps middle after → Through R (step :: steps) lines after

def Takes (setting : Setting) (block : String) (step : Step) (before after : List Line) : Prop :=
  ∃ s s', runFrom s (applyStep setting block step before) = (.ok after, s')

theorem through_of_applySteps {setting : Setting} {steps : List Step}
    (h : runFrom s (applySteps setting block index steps lines) = (.ok after, s')) :
    Through (Takes setting block) steps lines after := by
  induction steps generalizing index lines s with
  | nil =>
    cases h
    exact .nil
  | cons step rest ih =>
    obtain ⟨middle, s₁, s₂, hstep, -, hrest⟩ := cases_applySteps_cons h
    exact .cons ⟨s, s₁, hstep⟩ (ih hrest)

theorem Through.imp {R S : Step → List Line → List Line → Prop} {steps : List Step}
    (h : Through R steps lines after) (hRS : ∀ step before after, R step before after →
      S step before after) : Through S steps lines after := by
  induction h with
  | nil => exact .nil
  | cons hstep _ ih => exact .cons (hRS _ _ _ hstep) ih

theorem runFrom_applySteps_of_through {grammar : Grammar} {steps : List Step}
    (h : Through (fun step before after =>
      runFrom s (applyStep ⟨grammar, false⟩ block step before) = (.ok after, s)) steps lines after) :
    runFrom s (applySteps ⟨grammar, false⟩ block index steps lines) = (.ok after, s) := by
  induction h generalizing index with
  | nil => rfl
  | cons hstep _ ih => exact (applySteps_untraced hstep).trans ih

theorem runFrom_applyLines_normalSteps (block : String) {grammar : Grammar} {options : Options}
    {line passed escaped quoted referring replaced built broken : Line}
    (hoptions : optionsOf s.resolution.store = options)
    (hpassthroughs : reread grammar .passthroughs options [line] = .ok passed)
    (hspecials : reread grammar .specials options [passed] = .ok escaped)
    (hquotes : reread grammar .quotes options [escaped] = .ok quoted)
    (hattributes : reread grammar .attributes options [quoted] = .ok referring)
    (hresolve : runFrom s.resolution (resolve referring) = (.ok referring, s.resolution))
    (hreplacements : reread grammar .replacements options [referring] = .ok replaced)
    (hmacros : reread grammar .macros options [replaced] = .ok built)
    (hpostReplacements : reread grammar .postReplacements options [built] = .ok broken) :
    runFrom s (applyLines ⟨grammar, false⟩ (normalSteps ++ [.splitLines]) block [line]) =
      (.ok (splitLine broken), s) := by
  subst hoptions
  rw [applyLines_singleton]
  refine runFrom_applySteps_of_through ?_
  refine .cons (runFrom_applyStep block rfl (by decide) hpassthroughs) ?_
  refine .cons (runFrom_applyStep block rfl (by decide) hspecials) ?_
  refine .cons (runFrom_applyStep block rfl (by decide) hquotes) ?_
  refine .cons (runFrom_applyStep_attributes block hattributes hresolve) ?_
  refine .cons (runFrom_applyStep block rfl (by decide) hreplacements) ?_
  refine .cons (runFrom_applyStep block rfl (by decide) hmacros) ?_
  refine .cons (runFrom_applyStep block rfl (by decide) hpostReplacements) ?_
  exact .cons (runFrom_applyStep_splitLines ⟨grammar, false⟩ block broken s) .nil

theorem run_cases {setting : Setting}
    (h : run setting document configuration = .ok (draft, records)) :
    ∃ store elements substituted state,
      prepare document configuration = .ok (store, elements) ∧
      runFrom ⟨⟨store, []⟩, []⟩ (applyElements setting elements) = (.ok substituted, state) ∧
      ∃ final footnotes,
        (Footnotes.replace substituted).run ⟨[], state.resolution.warnings⟩ = (final, footnotes) ∧
        draft = ⟨state.resolution.store.snapshot, document.frontMatter, final, footnotes.notes,
          footnotes.warnings⟩ ∧ records = state.trace := by
  cases hprepare : prepare document configuration with
  | error fault => rw [run_of_prepare_error _ hprepare] at h; cases h
  | ok prepared =>
    obtain ⟨store, elements⟩ := prepared
    rw [run_of_prepare _ hprepare] at h
    cases hrun : runFrom ⟨⟨store, []⟩, []⟩ (applyElements setting elements) with
    | mk outcome state =>
      rw [hrun] at h
      cases outcome with
      | error fault => cases h
      | ok substituted =>
        cases h
        exact ⟨store, elements, substituted, state, rfl, hrun, _, _, rfl, rfl, rfl⟩

theorem run_of_ok {setting : Setting} {store : Store} {elements substituted : List Element}
    {state : PassState} (hprepare : prepare document configuration = .ok (store, elements))
    (hrun : runFrom ⟨⟨store, []⟩, []⟩ (applyElements setting elements) = (.ok substituted, state)) :
    ∃ draft, run setting document configuration = .ok (draft, state.trace) := by
  rw [run_of_prepare _ hprepare, hrun]
  exact ⟨_, rfl⟩

end Pass

end Manuscript
