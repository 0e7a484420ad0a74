import Manuscript.Proofs.Escaping.Counters
import Manuscript.Proofs.Markup.Kinds
import Manuscript.Proofs.Placeholder.Gathering
import Manuscript.Proofs.Rereading.Regular
import Manuscript.Proofs.Run

namespace Manuscript

open Event Pending

def Event.asks : Event → Bool
  | .reference _ | .count _ => true
  | .declare _ _ | .reset _ => false

def Element.asked? (x : Element) : Option Event :=
  (ofElement? x).filter Event.asks

theorem Element.asked?_withChildren (x : Element) (sequences : List (List Element)) :
    (x.withChildren sequences).asked? = x.asked? :=
  congrArg (Option.filter Event.asks) (x.ofElement?_withChildren sequences)

theorem Element.asked?_eq_none_iff {x : Element} : x.asked? = none ↔
    (∀ name, x ≠ .attributeReference name) ∧ ∀ use, x ≠ .counter use := by
  cases x <;> simp [asked?, ofElement?, Event.asks]

theorem asks_of_asked? {x : Element} {event : Event} (h : ofElement? x = some event)
    (hasked : x.asked? = none) : event.asks = false := by
  rw [Element.asked?, h, Option.filter_some] at hasked
  cases hasks : event.asks with
  | false => rfl
  | true => rw [hasks] at hasked; cases hasked

inductive Answered : List Element → Prop
  | intro {elements : List Element} : Merged elements → (∀ x ∈ elements, x.asked? = none) →
      (∀ x ∈ elements, ∀ s ∈ x.children, Answered s) → Answered elements

theorem Answered.merged {elements : List Element} (h : Answered elements) : Merged elements := by
  obtain ⟨hmerged, -, -⟩ := h
  exact hmerged

theorem Answered.of_visited {elements : List Element} {x : Element} (h : Answered elements)
    (hx : Visited x elements) : x.asked? = none ∧ ∀ s ∈ x.children, Answered s := by
  induction hx with
  | here hmem =>
    obtain ⟨-, hasked, hchildren⟩ := h
    exact ⟨hasked _ hmem, hchildren _ hmem⟩
  | inside hy hs _ ih =>
    obtain ⟨-, -, hchildren⟩ := h
    exact ih (hchildren _ hy _ hs)

theorem Answered.gather_eq_nil {elements : List Element} (h : Answered elements) :
    gather Element.asked? elements = [] :=
  (gather_eq_nil_iff _).mpr fun _ hx => (h.of_visited hx).1

section Result

variable {r r' : Resolution} {elements outcomes result : List Element}

theorem asked?_of_turn {store : Store} {event : Event} {turn : Turn}
    (h : event.turn store = .ok turn) :
    turn.element.asked? = none ∧ turn.element.children = [] := by
  unfold Event.turn at h
  repeat' split at h
  all_goals first | (cases h; exact ⟨rfl, rfl⟩) | cases h

theorem answered_of_filled (h : Filled ofElement? merge elements outcomes result)
    (houtcomes : ∀ o ∈ outcomes, o.asked? = none ∧ o.children = []) : Answered result := by
  induction elements using sequence_induction generalizing outcomes result with
  | step elements ih =>
    obtain @⟨_, _, results, hparts⟩ := h
    have hresults : ∀ y ∈ results, y.asked? = none ∧ ∀ s ∈ y.children, Answered s := by
      refine (hparts.imp fun x hx own y hy hown => ?_).forall_mem houtcomes
      cases hy with
      | event hevent =>
        obtain ⟨hasked, hchildren⟩ := hown y List.mem_cons_self
        exact ⟨hasked, fun s hs => absurd (hchildren ▸ hs) List.not_mem_nil⟩
      | @inside _ _ sequences hnone hsequences =>
        rw [Element.asked?_withChildren, Element.children_withChildren hsequences.length_eq]
        refine ⟨by rw [Element.asked?, hnone]; rfl, ?_⟩
        exact (hsequences.imp fun s hs _ _ ht => ih x hx s hs ht).forall_mem hown
    have hmerged : ∀ y ∈ merge results, y.asked? = none ∧ ∀ s ∈ y.children, Answered s := by
      intro y hy
      cases htext : y.isText with
      | false => exact hresults y (mem_of_mem_merge hy htext)
      | true =>
        obtain ⟨s, rfl⟩ := eq_text_of_isText htext
        exact ⟨rfl, fun _ hs => absurd hs List.not_mem_nil⟩
    exact .intro (merged_merge results) (fun y hy => (hmerged y hy).1) fun y hy => (hmerged y hy).2

theorem answered_of_resolve (h : (runFrom r (resolve elements)).1 = .ok result) :
    Answered result := by
  obtain ⟨-, hfilled⟩ := filled_of_runFrom_resolve h
  refine answered_of_filled hfilled (List.forall_mem_map.mpr fun turn hturn => ?_)
  obtain ⟨before, hbefore⟩ := turn_of_mem_replay hturn
  exact asked?_of_turn hbefore

end Result

section Again

variable {elements : List Element}

theorem turn_of_not_asks {event : Event} (h : event.asks = false) (store : Store) :
    ∃ live, event.turn store = .ok ⟨event, event.element, { store with live }, none⟩ := by
  cases event with
  | declare name value => exact ⟨_, rfl⟩
  | reset name => exact ⟨_, rfl⟩
  | reference name => cases h
  | count use => cases h

theorem replayed_of_not_asks {events : List Event} (h : ∀ event ∈ events, event.asks = false)
    (r : Resolution) : ∃ live, replayed r events =
      (.ok (events.map Event.element), { r with store := { r.store with live } }) := by
  induction events generalizing r with
  | nil => exact ⟨r.store.live, replayed_nil r⟩
  | cons event rest ih =>
    obtain ⟨hevent, hrest⟩ := List.forall_mem_cons.mp h
    obtain ⟨live, hturn⟩ := turn_of_not_asks hevent r.store
    rw [replayed_of_ok hturn, Resolution.after_silent]
    obtain ⟨final, hreplayed⟩ := ih hrest { r with store := { r.store with live } }
    exact ⟨final, by rw [hreplayed]; rfl⟩

theorem Answered.asks_of_mem_gather (h : Answered elements) {event : Event}
    (hevent : event ∈ gather ofElement? elements) : event.asks = false := by
  obtain ⟨x, hx, hof⟩ := visited_of_mem_gather _ hevent
  exact asks_of_asked? hof (h.of_visited hx).1

theorem Answered.substituted_eq_self (h : Answered elements) :
    substituted ofElement? merge Event.element elements = elements := by
  induction elements using sequence_induction with
  | step elements ih =>
    obtain ⟨hmerged, -, hchildren⟩ := h
    refine (substituted_eq ..).trans ((congrArg merge ?_).trans hmerged.merge_eq)
    refine (List.map_congr_left fun x hx => ?_).trans (List.map_id' elements)
    cases hof : ofElement? x with
    | some event => exact (eq_element_of_ofElement? hof).symm
    | none =>
      have hall : x.children.map (substituted ofElement? merge Event.element) = x.children :=
        (List.map_congr_left fun s hs => ih x hx s hs (hchildren x hx s hs)).trans (List.map_id' _)
      exact (congrArg x.withChildren hall).trans x.withChildren_children

theorem Answered.runFrom_resolve_of_replayed (h : Answered elements) {r r' : Resolution}
    (hreplayed : replayed r (gather ofElement? elements) =
      (.ok ((gather ofElement? elements).map Event.element), r')) :
    runFrom r (resolve elements) = (.ok elements, r') := by
  rw [runFrom_resolve, hreplayed]
  exact Prod.ext (congrArg Except.ok ((rebuild_map ..).trans h.substituted_eq_self)) rfl

theorem runFrom_resolve_of_answered (h : Answered elements) (r : Resolution) :
    ∃ live, runFrom r (resolve elements) =
      (.ok elements, { r with store := { r.store with live } }) := by
  obtain ⟨live, hreplayed⟩ := replayed_of_not_asks (fun _ => h.asks_of_mem_gather) r
  exact ⟨live, h.runFrom_resolve_of_replayed hreplayed⟩

end Again

theorem standing_asked? : Standing Element.asked? where
  text _ := rfl
  quoted _ _ _ := rfl
  quotation _ _ := rfl
  blankLine := rfl
  withChildren x sequences h := (x.asked?_withChildren sequences).trans h

theorem gather_asked?_parse {rule : Rule} (hrule : rule ≠ .attributes) {options : Options}
    {text : String} {parsed : List Element} (h : Fragment.parse rule options text = .ok parsed) :
    gather Element.asked? parsed = [] := by
  refine (gather_eq_nil_iff _).mpr fun x hx => ?_
  have hmakes : rule.Makes x := (throughout_of_visited (Fragment.makes_parse h) hx).1
  cases x <;> first | rfl | cases rule <;> first | exact absurd rfl hrule | cases hmakes

namespace Pass

variable {tracing : Bool} {block : String} {index : Nat} {step : Step} {steps : List Step}
  {lines after : List Line} {s s' : PassState}

theorem gather_asked?_applyStep (hlines : step ≠ .attributes → gather Element.asked? lines.flatten = [])
    (h : runFrom s (applyStep ⟨Fragment.parse, tracing⟩ block step lines) = (.ok after, s')) :
    gather Element.asked? after.flatten = [] := by
  cases hrule : step.rule? with
  | none =>
    have hstep : step ≠ .attributes := by
      rintro rfl
      cases hrule
    rw [applyStep, hrule] at h
    cases h
    rw [gather_splitLines standing_asked?.text]
    exact hlines hstep
  | some rule =>
    obtain ⟨line, hread, ⟨hstep, rfl, -⟩ | ⟨-, resolved, resolution, hresolve, rfl, -⟩⟩ :=
      applyStep_cases hrule h
    · have hattributes : rule ≠ .attributes := Step.rule_ne_of_ne hstep hrule rfl
      have hsubset := standing_asked?.gather_subset_of_reread
        (fun _ _ => gather_asked?_parse hattributes) hread
      rw [hlines hstep] at hsubset
      rw [List.flatten_singleton]
      exact List.subset_nil.mp hsubset
    · rw [List.flatten_singleton]
      exact (answered_of_resolve (congrArg Prod.fst hresolve)).gather_eq_nil

theorem gather_asked?_applySteps
    (hlines : .attributes ∉ steps → gather Element.asked? lines.flatten = [])
    (h : runFrom s (applySteps ⟨Fragment.parse, tracing⟩ block index steps lines) = (.ok after, s')) :
    gather Element.asked? after.flatten = [] := by
  induction steps generalizing index lines s with
  | nil =>
    cases h
    exact hlines List.not_mem_nil
  | cons step rest ih =>
    obtain ⟨middle, s₁, s₂, hstep, -, hrest⟩ := cases_applySteps_cons h
    refine ih (fun hnot => ?_) hrest
    refine gather_asked?_applyStep (fun hne => hlines ?_) hstep
    exact List.not_mem_cons_of_ne_of_not_mem hne.symm hnot

theorem gather_asked?_applyLines (hsteps : .attributes ∈ steps)
    (h : runFrom s (applyLines ⟨Fragment.parse, tracing⟩ steps block lines) = (.ok after, s')) :
    gather Element.asked? after.flatten = [] := by
  rw [applyLines] at h
  split at h
  · cases h
    exact gather_nil _
  · exact gather_asked?_applySteps (fun hnot => absurd hsteps hnot) h

/-- A result has no references and no counters, at any depth, and resolves to itself. Once lines went through the
step for attributes, the steps after it leave none either. -/
theorem nothing_left_unresolved :
    (∀ (elements : List Element) (r r' : Resolution) (result : List Element),
      runFrom r (resolve elements) = (.ok result, r') →
        Merged result ∧
        (∀ x, Visited x result → (∀ name, x ≠ .attributeReference name) ∧ (∀ use, x ≠ .counter use) ∧
          ∀ s ∈ x.children, Merged s) ∧
        ∀ t : Resolution, ∃ live,
          runFrom t (resolve result) = (.ok result, { t with store := { t.store with live } })) ∧
    ∀ (tracing : Bool) (steps : List Step) (block : String) (lines after : List Line)
      (s s' : PassState), .attributes ∈ steps →
      runFrom s (applyLines ⟨Fragment.parse, tracing⟩ steps block lines) = (.ok after, s') →
        ∀ line ∈ after, ∀ x, Visited x line →
          (∀ name, x ≠ .attributeReference name) ∧ ∀ use, x ≠ .counter use := by
  constructor
  · intro elements r r' result h
    have hanswered := answered_of_resolve (congrArg Prod.fst h)
    refine ⟨hanswered.merged, fun x hx => ?_, runFrom_resolve_of_answered hanswered⟩
    obtain ⟨hasked, hchildren⟩ := hanswered.of_visited hx
    obtain ⟨hreference, hcounter⟩ := Element.asked?_eq_none_iff.mp hasked
    exact ⟨hreference, hcounter, fun s hs => (hchildren s hs).merged⟩
  · intro tracing steps block lines after s s' hsteps h line hline x hx
    have hnil := gather_asked?_applyLines hsteps h
    rw [gather_flatten, List.flatMap_eq_nil_iff] at hnil
    exact Element.asked?_eq_none_iff.mp ((gather_eq_nil_iff _).mp (hnil line hline) x hx)

def asking : List Element :=
  [.text "a", .attributeReference "name", .quoted .bold ∅
    [.counter ⟨"n", false, none⟩, .text "b", .attributeReference "gone"]]

def answered : List Element :=
  [.text "ax<", .quoted .bold ∅ [.text "1b\x7bgone\x7d"]]

def answers : Store := ⟨Dict.ofList [("name", .string "x<")], ∅, ∅⟩

theorem resolve_asking : runFrom ⟨answers, []⟩ (resolve asking) =
    (.ok answered,
      ⟨{ answers with counters := Dict.ofList [("n", .number 1)] }, [.missingAttribute "gone"]⟩) := by
  with_unfolding_all rfl

theorem reread_asking :
    reread Fragment.parse .attributes ⟨none⟩ [[.text "a", .attributeReference "name"]] =
      .ok [.text "a", .attributeReference "name"] := by
  have hserialized : serialized [[.text "a", .attributeReference "name"]] = "a\uFFFD1\uFFFD" := by
    decide +kernel
  have hparse : Fragment.parse .attributes ⟨none⟩ "a\uFFFD1\uFFFD" =
      .ok [.text "a", .placeholder 1] := by with_unfolding_all rfl
  refine (reread_eq_ok (by decide) rfl (hserialized ▸ hparse) ?_).trans ?_
  · simp [ExactlyOnce, references, gather_eq, Element.gather, placeholder?, Element.children,
      setAside, Element.isText]
  · rw [putBack, substituted_eq]
    rfl

theorem applyLines_asking : runFrom ⟨⟨answers, []⟩, []⟩
    (applyLines ⟨Fragment.parse, false⟩ [.attributes, .specials] "paragraph"
      [[.text "a", .attributeReference "name"]]) =
    (.ok [[.text "ax", .special "<"]], ⟨⟨answers, []⟩, []⟩) := by
  have hresolve : runFrom ⟨answers, []⟩ (resolve [.text "a", .attributeReference "name"]) =
      (.ok [.text "ax<"], ⟨answers, []⟩) := by with_unfolding_all rfl
  have hescape : reread Fragment.parse .specials ⟨none⟩ [[.text "ax<"]] =
      .ok [.text "ax", .special "<"] := by with_unfolding_all rfl
  exact runFrom_applySteps_of_through
    (.cons (runFrom_applyStep_attributes _ reread_asking hresolve)
      (.cons (runFrom_applyStep _ rfl (by decide) hescape) .nil))

theorem nothing_left_unresolved_asking :
    (Merged answered ∧ ∃ live, runFrom ⟨answers, []⟩ (resolve answered) =
      (.ok answered, ⟨{ answers with live }, []⟩)) ∧
    Step.attributes ∈ [Step.attributes, .specials] ∧
    ∀ x, Visited x [.text "ax", .special "<"] →
      (∀ name, x ≠ .attributeReference name) ∧ ∀ use, x ≠ .counter use := by
  obtain ⟨hresults, hlines⟩ := nothing_left_unresolved
  obtain ⟨hmerged, -, hagain⟩ := hresults _ _ _ _ resolve_asking
  have hsteps : Step.attributes ∈ [Step.attributes, .specials] := by decide
  exact ⟨⟨hmerged, hagain ⟨answers, []⟩⟩, hsteps,
    hlines _ _ _ _ _ _ _ hsteps applyLines_asking _ List.mem_cons_self⟩

end Pass

end Manuscript
