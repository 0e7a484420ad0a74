import Manuscript.Proofs.Footnotes
import Manuscript.Proofs.Line
import Manuscript.Proofs.Markup.Inline
import Manuscript.Proofs.Placeholder.Gathering
import Manuscript.Proofs.Resolution.Replay
import Manuscript.Proofs.Steady

namespace Manuscript

open Event Footnotes Glyph Pending Reader

namespace Footnotes

theorem note?_text (s : String) : note? (.text s) = none := rfl

def Noteless (elements : List Element) : Prop :=
  gather note? elements = []

theorem noteless_nil : Noteless [] := gather_nil ..

theorem noteless_of_everywhere {elements : List Element}
    (h : Everywhere (fun x => note? x = none) elements) : Noteless elements := by
  induction h with
  | intro hnone _ ih =>
    rw [Noteless, gather_eq, List.flatMap_eq_nil_iff]
    intro x hx
    exact (Element.gather_eq_nil_iff note?).mpr
      ⟨hnone x hx, (List.forall_mem_append.mp (ih x hx)).1⟩

theorem noteless_parse {rule : Rule} (hrule : rule ≠ .macros) {options : Options} {text : String}
    {parsed : List Element} (h : Fragment.parse rule options text = .ok parsed) :
    Noteless parsed := by
  refine noteless_of_everywhere ((Fragment.makes_parse h).mono fun x hx => ?_)
  cases x <;> first | rfl | cases rule <;> first | exact absurd rfl hrule | cases hx

theorem standing_note? : Standing note? where
  text := note?_text
  quoted _ _ _ := rfl
  quotation _ _ := rfl
  blankLine := rfl
  withChildren := note?_withChildren

def Unnested (elements : List Element) : Prop :=
  ∀ note ∈ gather note? elements, Noteless note.content

theorem Unnested.of_subset {elements others : List Element} (h : Unnested elements)
    (hsubset : gather note? others ⊆ gather note? elements) : Unnested others :=
  fun note hnote => h note (hsubset hnote)

theorem unnested_iff {elements : List Element} : Unnested elements ↔
    ∀ x ∈ elements, ∀ note ∈ x.gather note?, Noteless note.content := by
  rw [Unnested, gather_eq, List.forall_mem_flatMap]

theorem noteless_iff {elements : List Element} :
    Noteless elements ↔ ∀ x ∈ elements, x.gather note? = [] := by
  rw [Noteless, gather_eq, List.flatMap_eq_nil_iff]

section Filled

variable {ε : Type} {event? : Element → Option ε} {finish : List Element → List Element}
  {elements outcomes result : List Element}

theorem noteless_of_filled
    (hfinish : ∀ elements, gather note? (finish elements) = gather note? elements)
    (h : Filled event? finish elements outcomes result) (hnone : Noteless elements)
    (houtcomes : ∀ o ∈ outcomes, o.gather note? = []) : Noteless result := by
  induction elements using sequence_induction generalizing outcomes result with
  | step elements ih =>
    obtain ⟨hparts⟩ := h
    refine (hfinish _).trans (noteless_iff.mpr ?_)
    refine (hparts.imp fun x hx own y hy hown => ?_).forall_mem houtcomes
    obtain ⟨hnote, hchildren⟩ := (Element.gather_eq_nil_iff note?).mp (noteless_iff.mp hnone x hx)
    cases hy with
    | event hevent => exact hown y List.mem_cons_self
    | @inside _ _ sequences hevent hsequences =>
      rw [Element.gather, note?_withChildren x sequences hnote,
        Element.children_withChildren hsequences.length_eq]
      refine List.flatMap_eq_nil_iff.mpr ((hsequences.imp fun s hs _ t ht => ?_).forall_mem hown)
      exact ih x hx s hs ht (hchildren s hs)

theorem unnested_of_filled
    (hfinish : ∀ elements, gather note? (finish elements) = gather note? elements)
    (h : Filled event? finish elements outcomes result) (hunnested : Unnested elements)
    (houtcomes : ∀ o ∈ outcomes, o.gather note? = []) : Unnested result := by
  induction elements using sequence_induction generalizing outcomes result with
  | step elements ih =>
    obtain ⟨hparts⟩ := h
    rw [Unnested, hfinish]
    refine unnested_iff.mpr ((hparts.imp fun x hx own y hy hown => ?_).forall_mem houtcomes)
    have hall := unnested_iff.mp hunnested x hx
    cases hy with
    | event hevent =>
      rw [hown y List.mem_cons_self]
      exact fun _ hn => absurd hn List.not_mem_nil
    | @inside _ _ sequences hevent hsequences =>
      cases hnote : note? x with
      | none =>
        rw [Element.gather, hnote] at hall
        rw [Element.gather, note?_withChildren x sequences hnote,
          Element.children_withChildren hsequences.length_eq]
        refine List.forall_mem_flatMap.mpr ((hsequences.imp fun s hs _ t ht => ?_).forall_mem hown)
        exact ih x hx s hs ht (List.forall_mem_flatMap.mp hall s hs)
      | some note =>
        -- The content of a footnote is its only sequence, and without footnotes it stays so.
        rw [Element.gather, hnote, List.forall_mem_singleton] at hall
        cases x
        case footnote reference content =>
          cases hnote
          obtain _ | ⟨hcontent, hrest⟩ := hsequences
          cases hrest
          rw [List.append_nil] at hown
          refine List.forall_mem_singleton.mpr ?_
          exact noteless_of_filled hfinish hcontent hall hown
        all_goals cases hnote

end Filled

theorem gather_event (event : Event) : event.element.gather note? = [] := by
  cases event <;> rfl

theorem unnested_of_resolve {r : Resolution} {line resolved : Line} (h : Unnested line)
    (hresolve : (runFrom r (resolve line)).1 = .ok resolved) : Unnested resolved := by
  obtain ⟨outcomes, hfilled, houtcomes⟩ := outcomes_of_runFrom_resolve hresolve
  refine unnested_of_filled (gather_merge note?_text) hfilled h fun o ho => ?_
  rcases houtcomes o ho with ⟨s, rfl⟩ | ⟨event, -, rfl⟩
  · rfl
  · exact gather_event event

end Footnotes

namespace Pass

variable {block : String} {index : Nat} {step : Step} {steps : List Step} {lines after : List Line}
  {records : List Record} {s s' : PassState}

theorem unnested_applyStep (hstep : step ≠ .macros)
    (h : runFrom s (applyStep recording block step lines) = (.ok after, s'))
    (hlines : Unnested lines.flatten) : Unnested after.flatten := by
  cases hrule : step.rule? with
  | none =>
    rw [applyStep, hrule] at h
    cases h
    rwa [Unnested, gather_splitLines note?_text]
  | some rule =>
    obtain ⟨line, hread, hcases⟩ := applyStep_cases hrule h
    have hmacros : rule ≠ .macros := Step.rule_ne_of_ne hstep hrule rfl
    have hline : Unnested line :=
      hlines.of_subset (standing_note?.gather_subset_of_reread (fun _ _ => noteless_parse hmacros) hread)
    rcases hcases with ⟨-, rfl, -⟩ | ⟨-, resolved, resolution, hresolve, rfl, -⟩
    · rwa [List.flatten_singleton]
    · rw [List.flatten_singleton]
      exact unnested_of_resolve hline (congrArg Prod.fst hresolve)

theorem inline_of_recorded (h : Recorded recording block index steps lines records after)
    (hlines : ∀ line ∈ lines, Everywhere Element.Inline line) :
    ∀ line ∈ after, Everywhere Element.Inline line := by
  induction h with
  | nil => exact hlines
  | cons hstep _ ih => exact ih (steady_inline.applyStep hlines hstep)

theorem unnested_of_recorded (h : Recorded recording block index steps lines records after)
    (hlines : Unnested lines.flatten)
    (hmacros : ∀ record ∈ records, record.step = .macros → Unnested record.lines.flatten) :
    ∀ record ∈ records, Unnested record.lines.flatten := by
  induction h with
  | nil => exact fun _ hr => absurd hr List.not_mem_nil
  | @cons _ step _ _ middle _ _ _ _ hstep _ ih =>
    obtain ⟨hfirst, hrest⟩ := List.forall_mem_cons.mp hmacros
    have hmiddle : Unnested middle.flatten := by
      by_cases h : step = .macros
      · exact hfirst h
      · exact unnested_applyStep h hstep hlines
    exact List.forall_mem_cons.mpr ⟨hmiddle, ih hmiddle hrest⟩

def linesAfter (step : Step) (records : List Record) : List Line :=
  (records.filter (·.step = step)).flatMap (·.lines)

theorem linesAfter_append (step : Step) (first second : List Record) :
    linesAfter step (first ++ second) = linesAfter step first ++ linesAfter step second := by
  rw [linesAfter, List.filter_append, List.flatMap_append]
  rfl

theorem linesAfter_of_recorded {setting : Setting} {before : List Step} {last : Step}
    (h : Recorded setting block index steps lines records after)
    (hsteps : steps = before ++ [last]) (hlast : last ∉ before) :
    linesAfter last records = after := by
  induction h generalizing before with
  | nil => simp at hsteps
  | @cons index step steps lines middle after records _ _ _ hrest ih =>
    cases before with
    | nil =>
      obtain ⟨rfl, rfl⟩ := List.cons.inj hsteps
      cases hrest
      simp [linesAfter]
    | cons first before =>
      obtain ⟨rfl, rfl⟩ := List.cons.inj hsteps
      obtain ⟨hne, hnot⟩ := not_or.mp (List.mem_cons.not.mp hlast)
      rw [← ih rfl hnot, linesAfter, List.filter_cons_of_neg]
      · rfl
      · simpa using Ne.symm hne

end Pass

end Manuscript
