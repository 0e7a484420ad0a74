import Manuscript.Proofs.Run

namespace Manuscript

namespace Pass

variable {block : String} {index : Nat} {lines after : List Line} {s s' : PassState}
  {document : Document} {configuration : Configuration} {draft : Draft} {records : List Record}

structure Complete (block : String) (steps : List Step) (after : List Line) (records : List Record) :
    Prop where
  entries : records.map (fun record => (record.block, record.index, record.step)) =
    steps.zipIdx.map fun (step, index) => (block, index, step)
  last : ∀ record ∈ records.getLast?, record.lines = after

theorem Recorded.entries {setting : Setting} {steps : List Step}
    (h : Recorded setting block index steps lines records after) :
    records.map (fun record => (record.block, record.index, record.step)) =
      (steps.zipIdx index).map fun (step, index) => (block, index, step) := by
  induction h with
  | nil => rfl
  | cons _ _ ih => rw [List.map_cons, ih, List.zipIdx_cons, List.map_cons]

theorem Recorded.last {setting : Setting} {steps : List Step}
    (h : Recorded setting block index steps lines records after) :
    ∀ record ∈ records.getLast?, record.lines = after := by
  induction h with
  | nil => exact fun record hr => by cases hr
  | @cons index step steps lines middle after records s s' _ hrest ih =>
    cases hrest with
    | nil =>
      rintro record hr
      cases hr
      rfl
    | cons => exact fun record hr => ih record (by simpa using hr)

theorem Recorded.complete {setting : Setting} {steps : List Step}
    (h : Recorded setting block 0 steps lines records after) : Complete block steps after records :=
  ⟨h.entries, h.last⟩

inductive Runs (setting : Setting) : List Record → Prop
  | nil : Runs setting []
  | append {block : String} {steps : List Step} {lines after : List Line}
      {records others : List Record} :
      Runs setting others → lines ≠ [] → Recorded setting block 0 steps lines records after →
      Runs setting (others ++ records)

theorem runs_of_applyLines {grammar : Grammar} {steps : List Step}
    (hs : Runs ⟨grammar, true⟩ s.trace)
    (h : runFrom s (applyLines ⟨grammar, true⟩ steps block lines) = (.ok after, s')) :
    Runs ⟨grammar, true⟩ s'.trace := by
  obtain ⟨records, htrace, ⟨-, -, rfl⟩ | ⟨hlines, hrecorded⟩⟩ := recorded_of_applyLines h
  · rwa [htrace, List.append_nil]
  · rw [htrace]
    exact .append hs hlines hrecorded

theorem abreast_runs (grammar : Grammar) :
    Abreast (fun _ => false) (fun s s' => s = s' ∧ Runs ⟨grammar, true⟩ s.trace) (fun _ _ => True)
      ⟨grammar, true⟩ ⟨grammar, true⟩ where
  grammar := rfl
  fails _ := trivial
  find? h _ := by rw [h.1]
  lines steps block lines := .of_keeps fun s after s' hs h => runs_of_applyLines hs h
  resolve x := .of_keeps fun s y s' hs h => by
    rw [runFrom_resolving] at h
    obtain ⟨-, rfl⟩ := Prod.mk.inj h
    exact hs
  declared _ _ hname := by cases hname

theorem runs_of_applyElements {grammar : Grammar} {elements substituted : List Element}
    (hs : Runs ⟨grammar, true⟩ s.trace)
    (h : runFrom s (applyElements ⟨grammar, true⟩ elements) = (.ok substituted, s')) :
    Runs ⟨grammar, true⟩ s'.trace := by
  have hmeet := ((abreast_runs grammar).applyElements elements elements
    (Element.varies_refl elements)).meet s s ⟨rfl, hs⟩
  rw [h] at hmeet
  cases hmeet with
  | ok _ hs' => exact hs'.2

theorem runs_of_trace {grammar : Grammar}
    (h : trace grammar document configuration = .ok (draft, records)) :
    Runs ⟨grammar, true⟩ records := by
  obtain ⟨store, elements, substituted, state, -, hrun, _, _, -, -, rfl⟩ := run_cases h
  exact runs_of_applyElements .nil hrun

/-- Recording does not show in the draft nor in the fault. What is recorded are the lines that went through
steps, with a record for each step in turn. -/
theorem tracing_faithful (grammar : Grammar) (document : Document) (configuration : Configuration) :
    substitute grammar document configuration =
        (trace grammar document configuration).map (·.1) ∧
      (∀ draft records, trace grammar document configuration = .ok (draft, records) →
        Runs ⟨grammar, true⟩ records) ∧
      ∀ steps block lines s after s',
        runFrom s (applyLines ⟨grammar, true⟩ steps block lines) = (.ok after, s') →
        ∃ records, s'.trace = s.trace ++ records ∧
          ((lines = [] ∧ records = []) ∨ (lines ≠ [] ∧ Complete block steps after records)) := by
  refine ⟨substitute_eq_map_trace grammar document configuration, fun _ _ h => runs_of_trace h, ?_⟩
  intro steps block lines s after s' h
  obtain ⟨records, htrace, hrecords⟩ := recorded_of_applyLines h
  refine ⟨records, htrace, hrecords.imp ?_ ?_⟩
  · rintro ⟨hlines, -, hnone⟩
    exact ⟨hlines, hnone⟩
  · rintro ⟨hlines, hrecorded⟩
    exact ⟨hlines, hrecorded.complete⟩

section LessThan

def lessThan : Document :=
  ⟨none, [.paragraph (Dict.ofList [("subs", .string "specialcharacters")]) [[.text "<"]]]⟩

def lessThanRecords : List Record :=
  [⟨"paragraph", 0, .specials, [[.special "<"]]⟩, ⟨"paragraph", 1, .splitLines, [[.special "<"]]⟩]

theorem trace_lessThan :
    trace Fragment.parse lessThan Configuration.empty =
      .ok (⟨∅, none, [.paragraph (Dict.ofList [("subs", .string "specialcharacters")])
        [[.special "<"]]], [], []⟩, lessThanRecords) := by
  with_unfolding_all rfl

theorem applyLines_lessThan :
    runFrom ⟨⟨⟨∅, ∅, ∅⟩, []⟩, []⟩ (applyLines recording [.specials, .splitLines] "paragraph"
      [[.text "<"]]) = (.ok [[.special "<"]], ⟨⟨⟨∅, ∅, ∅⟩, []⟩, lessThanRecords⟩) := by
  with_unfolding_all rfl

theorem tracing_faithful_lessThan :
    substitute Fragment.parse lessThan Configuration.empty =
        .ok ⟨∅, none, [.paragraph (Dict.ofList [("subs", .string "specialcharacters")])
          [[.special "<"]]], [], []⟩ ∧
      Runs recording lessThanRecords ∧
      Complete "paragraph" [.specials, .splitLines] [[.special "<"]] lessThanRecords := by
  obtain ⟨hsame, hruns, hlines⟩ :=
    tracing_faithful Fragment.parse lessThan Configuration.empty
  rw [trace_lessThan] at hsame
  refine ⟨hsame, hruns _ _ trace_lessThan, ?_⟩
  obtain ⟨records, htrace, ⟨hnone, -⟩ | ⟨-, hcomplete⟩⟩ := hlines _ _ _ _ _ _ applyLines_lessThan
  · cases hnone
  · obtain rfl : lessThanRecords = records := htrace
    exact hcomplete

end LessThan

end Pass

end Manuscript
