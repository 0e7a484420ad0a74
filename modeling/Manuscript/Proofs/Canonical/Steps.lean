import Manuscript.Proofs.Canonical.Reading
import Manuscript.Proofs.Steady

namespace Manuscript

open Event Pending Pass

theorem textual_compact : Textual Element.Compact where
  merge _ := compact_merge
  quoted hmerged hcompact := by
    obtain ⟨-, hattributes⟩ := List.forall_mem_cons.mp hcompact
    exact List.forall_mem_cons.mpr ⟨hmerged, hattributes⟩
  quotation hmerged _ := compact_of_children (List.forall_mem_singleton.mpr hmerged) rfl
  blankLine := compact_leaf rfl rfl

theorem throughout_compact_iff {x : Element} : x.Throughout Element.Compact ↔
    ∀ s ∈ x.children ++ x.held, Canonical s := by
  constructor
  · rintro ⟨hcompact, hchildren, hheld⟩ s hs
    exact ⟨hcompact s hs, (List.mem_append.mp hs).elim (hchildren s) (hheld s)⟩
  · intro h
    exact ⟨fun s hs => (h s hs).merged, fun s hs => (h s (List.mem_append_left _ hs)).inside,
      fun s hs => (h s (List.mem_append_right _ hs)).inside⟩

theorem canonical_iff {xs : List Element} : Canonical xs ↔
    Merged xs ∧ ∀ x ∈ xs, ∀ s ∈ x.children ++ x.held, Canonical s := by
  simp only [← throughout_compact_iff, ← everywhere_iff]
  exact ⟨fun h => ⟨h.merged, h.inside⟩, fun h => ⟨h.1, h.2⟩⟩

theorem canonical_withChildren {x : Element} {sequences : List (List Element)}
    (hlength : sequences.length = x.children.length) (hx : x.Throughout Element.Compact)
    (h : ∀ s ∈ sequences, Canonical s) :
    (x.withChildren sequences).Throughout Element.Compact := by
  rw [throughout_compact_iff] at hx ⊢
  rw [Element.children_withChildren hlength, Element.held_withChildren]
  exact List.forall_mem_append.mpr ⟨h, (List.forall_mem_append.mp hx).2⟩

section Reread

variable {grammar : Grammar} {rule : Rule} {options : Options} {lines : List Line} {line : Line}

theorem canonical_putBack {original : UInt32 → Element}
    (htext : ∀ reference, (original reference).isText = false)
    (horiginal : ∀ reference, (original reference).Throughout Element.Compact)
    {elements : List Element} (h : Canonical elements) : Canonical (putBack original elements) := by
  induction elements using sequence_induction with
  | step elements ih =>
    obtain ⟨hmerged, hinside⟩ := canonical_iff.mp h
    rw [putBack, substituted_eq, id]
    refine ⟨hmerged.map fun x hx => ?_, everywhere_iff.mpr (List.forall_mem_map.mpr fun x hx => ?_)⟩
    · cases hplaceholder : placeholder? x with
      | some reference =>
        have hkind : x.isText = false := not_isText_of_ne fun s he => by
          rw [he] at hplaceholder
          cases hplaceholder
        exact .inr ⟨hkind, htext reference⟩
      | none =>
        cases hkind : x.isText with
        | true =>
          obtain ⟨s, rfl⟩ := eq_text_of_isText hkind
          exact .inl rfl
        | false => exact .inr ⟨rfl, (x.isText_withChildren _).trans hkind⟩
    · cases hplaceholder : placeholder? x with
      | some reference => exact horiginal reference
      | none =>
        refine canonical_withChildren (List.length_map ..) (throughout_compact_iff.mpr (hinside x hx))
          (List.forall_mem_map.mpr fun s hs => ih x hx s hs (hinside x hx s ?_))
        exact List.mem_append_left _ hs

def Grammar.Canonical (grammar : Grammar) : Prop :=
  ∀ rule options s parsed, grammar rule options s = .ok parsed → Manuscript.Canonical parsed

variable (hgrammar : grammar.Canonical)
include hgrammar

theorem throughout_of_parsePayload {x y : Element} (hx : x.Throughout Element.Compact)
    (h : parsePayload (grammar rule options) x = .ok y) : y.Throughout Element.Compact := by
  have hparse (s : String) (parsed : List Element) (_ : (Element.text s).Compact)
      (hs : grammar rule options s = .ok parsed) :
      Around Element.Compact (fun _ => (none : Option Unit)) parsed :=
    (hgrammar _ _ _ _ hs).inside.around
  rw [← everywhere_singleton, everywhere_iff_around_none] at hx ⊢
  exact around_parsePayload textual_compact.around (fun _ => id) hparse x hx y h

theorem canonical_reread (hlines : ∀ line ∈ lines, Everywhere Element.Compact line)
    (h : reread grammar rule options lines = .ok line) : Canonical line := by
  obtain ⟨payloads, hpayloads⟩ := exists_payloads_of_reread h
  obtain ⟨parsed, hparsed⟩ := exists_parsed_of_reread h hpayloads
  obtain rfl := eq_of_reread h hpayloads hparsed
  have haside (x : Element) (hx : x ∈ setAside lines) :
      x.isText = false ∧ x.Throughout Element.Compact := by
    obtain ⟨line, hline, hmem⟩ := mem_of_mem_setAside hx
    exact ⟨by simpa using (List.mem_filter.mp hx).2, everywhere_iff.mp (hlines line hline) x hmem⟩
  have hall : ∀ y ∈ payloads, y.isText = false ∧ y.Throughout Element.Compact :=
    forall_of_mapM_ok (fun x y ⟨htext, hx⟩ hy => ⟨(isText_of_parsePayload hy).trans htext,
      throughout_of_parsePayload hgrammar hx hy⟩) hpayloads haside
  have horiginal (reference : UInt32) : ((handedOut payloads).original reference).isText = false ∧
      ((handedOut payloads).original reference).Throughout Element.Compact := by
    rcases original_handedOut_cases payloads reference with hmem | hblank
    · exact hall _ hmem
    · rw [hblank]
      exact ⟨rfl, (throughout_of_leaf rfl rfl).mpr (compact_leaf rfl rfl)⟩
  refine canonical_merge (canonical_putBack (fun reference => (horiginal reference).1)
    (fun reference => (horiginal reference).2) (hgrammar _ _ _ _ hparsed)).inside

end Reread

section Resolve

variable {ε : Type} {event? : Element → Option ε} {elements outcomes result : List Element}
  {r : Resolution}

theorem canonical_of_filled (h : Filled event? merge elements outcomes result)
    (helements : Everywhere Element.Compact elements)
    (houtcomes : ∀ o ∈ outcomes, o.Throughout Element.Compact) : Canonical result := by
  induction elements using sequence_induction generalizing outcomes result with
  | step elements ih =>
    obtain ⟨hparts⟩ := h
    refine canonical_merge (everywhere_iff.mpr ?_)
    refine (hparts.imp fun x hx own y hy hown => ?_).forall_mem houtcomes
    cases hy with
    | event hevent => exact hown y List.mem_cons_self
    | inside hnone hsequences =>
      have hthroughout := everywhere_iff.mp helements x hx
      refine canonical_withChildren hsequences.length_eq hthroughout ?_
      exact (hsequences.imp fun s hs _ _ ht => fun hown =>
        ih x hx s hs ht (hthroughout.2.1 s hs) hown).forall_mem hown

theorem canonical_resolve (h : Everywhere Element.Compact elements)
    (hresolve : (runFrom r (resolve elements)).1 = .ok result) : Canonical result := by
  obtain ⟨outcomes, hfilled, houtcomes⟩ := outcomes_of_runFrom_resolve hresolve
  refine canonical_of_filled hfilled h fun o ho => ?_
  rcases houtcomes o ho with ⟨s, rfl⟩ | ⟨event, hevent, rfl⟩
  · exact throughout_text.mpr (compact_text s)
  · obtain ⟨x, hx, hfound⟩ := visited_of_mem_gather _ hevent
    exact eq_element_of_ofElement? hfound ▸ throughout_of_visited h hx

end Resolve

section Split

variable {line start : Line} {lines before after : List Line} {x : Element}

def StartsApart (lines : List Line) : Prop :=
  ∀ line ∈ lines.head?, ∀ x ∈ line.head?, x.isText = false

theorem merged_joinLines (hbefore : ∀ line ∈ before, Merged line)
    (hafter : ∀ line ∈ after, Merged line) (hapart : StartsApart after) :
    ∀ line ∈ joinLines before after, Merged line :=
  forall_mem_joinLines (fun _ hstart line hline h => hstart.append h (hapart line hline))
    hbefore hafter

theorem startsApart_splitLine (h : ∀ x ∈ line.head?, x.isText = false) :
    StartsApart (splitLine line) := by
  cases line with
  | nil => exact fun _ hline => Option.some.inj hline ▸ fun _ => nofun
  | cons x rest =>
    have hx : x.isText = false := h x rfl
    rw [splitLine.eq_3 _ _ (ne_text_of_not_isText hx)]
    cases splitLine rest <;>
      exact fun _ hline => Option.some.inj hline ▸ fun _ hy => Option.some.inj hy ▸ hx

theorem merged_splitLine (h : Merged line) : ∀ part ∈ splitLine line, Merged part := by
  fun_induction splitLine line with
  | case1 => exact List.forall_mem_singleton.mpr .nil
  | case2 s rest ih =>
    obtain ⟨-, hhead, hrest⟩ := Merged.cons_iff.mp h
    have hapart : ∀ y ∈ rest.head?, y.isText = false := fun y hy =>
      (hhead y hy).resolve_left (by simp [Element.isText])
    exact merged_joinLines (List.forall_mem_map.mpr fun part _ => merged_fragment part) (ih hrest)
      (startsApart_splitLine hapart)
  | case3 x rest hnot ih =>
    have hx : x.isText = false := not_isText_of_ne hnot
    have hrest := ih h.tail
    cases hsplit : splitLine rest with
    | nil => exact List.forall_mem_singleton.mpr (.cons_other hx .nil)
    | cons first others =>
      rw [hsplit] at hrest
      obtain ⟨hfirst, hothers⟩ := List.forall_mem_cons.mp hrest
      exact List.forall_mem_cons.mpr ⟨.cons_other hx hfirst, hothers⟩

theorem compact_splitLines (h : ∀ line ∈ lines, Everywhere Element.Compact line) :
    ∀ line ∈ splitLines lines, Everywhere Element.Compact line :=
  everywhere_splitLines (fun _ part _ _ => compact_text part) h

theorem canonical_splitLines (h : ∀ line ∈ lines, Canonical line) :
    ∀ line ∈ splitLines lines, Canonical line := by
  have hmerged : ∀ part ∈ splitLines lines, Merged part :=
    List.forall_mem_flatMap.mpr fun line hline => merged_splitLine (h line hline).merged
  exact fun part hpart =>
    ⟨hmerged part hpart, compact_splitLines (fun line hline => (h line hline).inside) part hpart⟩

end Split

namespace Pass

variable {grammar : Grammar} {tracing : Bool} {block : String} {index : Nat} {step : Step}
  {steps : List Step} {lines after : List Line} {s s' : PassState}

section

variable (hgrammar : grammar.Canonical)
include hgrammar

theorem canonical_applyStep_of_rule (hrule : step.rule?.isSome)
    (hlines : ∀ line ∈ lines, Everywhere Element.Compact line)
    (h : runFrom s (applyStep ⟨grammar, tracing⟩ block step lines) = (.ok after, s')) :
    ∀ line ∈ after, Canonical line := by
  obtain ⟨rule, hrule⟩ := Option.isSome_iff_exists.mp hrule
  obtain ⟨line, hread, hcases⟩ := applyStep_cases hrule h
  have hline := canonical_reread hgrammar hlines hread
  rcases hcases with ⟨-, rfl, -⟩ | ⟨-, resolved, resolution, hresolve, rfl, -⟩
  · exact List.forall_mem_singleton.mpr hline
  · exact List.forall_mem_singleton.mpr
      (canonical_resolve hline.inside (congrArg Prod.fst hresolve))

theorem compact_applyStep (hlines : ∀ line ∈ lines, Everywhere Element.Compact line)
    (h : runFrom s (applyStep ⟨grammar, tracing⟩ block step lines) = (.ok after, s')) :
    ∀ line ∈ after, Everywhere Element.Compact line := by
  cases hrule : step.rule? with
  | none =>
    rw [applyStep, hrule] at h
    cases h
    exact compact_splitLines hlines
  | some rule =>
    have hsome : step.rule?.isSome := Option.isSome_iff_exists.mpr ⟨rule, hrule⟩
    exact fun line hline => (canonical_applyStep_of_rule hgrammar hsome hlines h line hline).inside

theorem canonical_applyStep (hlines : ∀ line ∈ lines, Canonical line)
    (h : runFrom s (applyStep ⟨grammar, tracing⟩ block step lines) = (.ok after, s')) :
    ∀ line ∈ after, Canonical line := by
  cases hrule : step.rule? with
  | none =>
    rw [applyStep, hrule] at h
    cases h
    exact canonical_splitLines hlines
  | some rule =>
    exact canonical_applyStep_of_rule hgrammar (Option.isSome_iff_exists.mpr ⟨rule, hrule⟩)
      (fun line hline => (hlines line hline).inside) h

theorem canonical_applySteps (hlines : ∀ line ∈ lines, Canonical line)
    (h : runFrom s (applySteps ⟨grammar, tracing⟩ block index steps lines) = (.ok after, s')) :
    ∀ line ∈ after, Canonical line :=
  holds_of_applySteps (I := fun _ lines => ∀ line ∈ lines, Canonical line)
    (fun _ _ _ _ _ _ => canonical_applyStep hgrammar) hlines h

theorem canonical_applySteps_of_rule (hsteps : ∃ step ∈ steps, step.rule?.isSome)
    (hlines : ∀ line ∈ lines, Everywhere Element.Compact line)
    (h : runFrom s (applySteps ⟨grammar, tracing⟩ block index steps lines) = (.ok after, s')) :
    ∀ line ∈ after, Canonical line := by
  induction steps generalizing index lines s with
  | nil =>
    obtain ⟨_, hstep, -⟩ := hsteps
    cases hstep
  | cons step rest ih =>
    obtain ⟨middle, s₁, s₂, hstep, -, hrest⟩ := cases_applySteps_cons h
    cases hrule : step.rule?.isSome with
    | true =>
      exact canonical_applySteps hgrammar (canonical_applyStep_of_rule hgrammar hrule hlines hstep) hrest
    | false =>
      have hlater : ∃ later ∈ rest, later.rule?.isSome := by
        obtain ⟨later, hmem, hlater⟩ := hsteps
        rcases List.mem_cons.mp hmem with rfl | hmem
        · rw [hrule] at hlater
          cases hlater
        · exact ⟨later, hmem, hlater⟩
      exact ih hlater (compact_applyStep hgrammar hlines hstep) hrest

end

/-- Whatever is read is in normal form, in itself and at any depth, and so are the lines that come from lines of
texts once a step has read them. -/
theorem results_canonical :
    (∀ (rule : Rule) (options : Options) (text : String) (parsed : List Element),
      Fragment.parse rule options text = .ok parsed → Canonical parsed) ∧
    ∀ (tracing : Bool) (steps : List Step) (block : String) (lines after : List Line)
      (s s' : PassState), (∃ step ∈ steps, step.rule?.isSome) →
      (∀ line ∈ lines, ∀ x ∈ line, x.isText) →
      runFrom s (applyLines ⟨Fragment.parse, tracing⟩ steps block lines) = (.ok after, s') →
        ∀ line ∈ after, Canonical line := by
  refine ⟨fun _ _ _ _ => Fragment.canonical_parse, ?_⟩
  intro tracing steps block lines after s s' hsteps htexts h
  rw [applyLines] at h
  split at h
  · cases h
    exact List.forall_mem_nil _
  · refine canonical_applySteps_of_rule (fun _ _ _ _ => Fragment.canonical_parse) hsteps
      (fun line hline => everywhere_iff.mpr fun x hx => ?_) h
    obtain ⟨s, rfl⟩ := eq_text_of_isText (htexts line hline x hx)
    exact throughout_text.mpr (compact_text s)

def scattered : List Line :=
  [[.text "+a", .text "+", .text ""]]

theorem applyLines_scattered : runFrom ⟨⟨⟨∅, ∅, ∅⟩, []⟩, []⟩
    (applyLines ⟨Fragment.parse, false⟩ [.splitLines, .passthroughs] "paragraph" scattered) =
    (.ok [[.passthrough .singlePlus [.text "a"]]], ⟨⟨⟨∅, ∅, ∅⟩, []⟩, []⟩) := by
  with_unfolding_all rfl

theorem parse_shielded : Fragment.parse .passthroughs ⟨none⟩ "+a+" =
    .ok [.passthrough .singlePlus [.text "a"]] := by
  with_unfolding_all rfl

theorem results_canonical_scattered :
    Canonical [.passthrough .singlePlus [.text "a"]] ∧
    (∃ step ∈ [Step.splitLines, .passthroughs], step.rule?.isSome) ∧
    (∀ line ∈ scattered, ∀ x ∈ line, x.isText) ∧
    ∀ line ∈ [[.passthrough .singlePlus [.text "a"]]], Canonical line := by
  obtain ⟨hparse, hrun⟩ := results_canonical
  have hsteps : ∃ step ∈ [Step.splitLines, .passthroughs], step.rule?.isSome := by decide
  have htexts : ∀ line ∈ scattered, ∀ x ∈ line, x.isText := by
    simp [scattered, Element.isText]
  exact ⟨hparse _ _ _ _ parse_shielded, hsteps, htexts,
    hrun _ _ _ _ _ _ _ hsteps htexts applyLines_scattered⟩

end Pass

end Manuscript
