import Manuscript.Proofs.Places
import Manuscript.Substitution.Identifier

namespace Manuscript

open Footnotes Pass

section PlainText

variable {x : Element} {xs ys outcomes : List Element} {sequences : List Line} {ε : Type}
  {event? : Element → Option ε}

theorem plain_withChildren
    (h : List.Forall₂ (fun xs ys => plainText ys = plainText xs) x.children sequences) :
    (x.withChildren sequences).plain = x.plain := by
  cases x
  case quoted =>
    obtain _ | ⟨hcontent, -⟩ := h
    exact hcontent
  case link location _ =>
    obtain _ | ⟨hpath, -⟩ := h
    exact congrArg (location.scheme ++ ·) hpath
  case quotation | passthrough | indexTerm =>
    obtain _ | ⟨hcontent, _ | _⟩ := h
    exact hcontent
  case documentReference =>
    obtain _ | ⟨-, _ | ⟨hlabel, _ | _⟩⟩ := h
    exact hlabel
  all_goals rcases sequences with _ | ⟨_, _ | ⟨_, _ | ⟨_, _⟩⟩⟩ <;> rfl

theorem plainText_eq_of_forall₂ (h : List.Forall₂ (fun x y => y.plain = x.plain) xs ys) :
    plainText ys = plainText xs := by
  induction h with
  | nil => rfl
  | cons hxy _ ih => rw [plainText, plainText, hxy, ih]

theorem plainText_of_filled (hevents : ∀ x event, event? x = some event → x.plain = "")
    (houtcomes : ∀ o ∈ outcomes, o.plain = "") (h : Filled event? id xs outcomes ys) :
    plainText ys = plainText xs := by
  induction xs using sequence_induction generalizing outcomes ys with
  | step xs ih =>
    obtain ⟨hparts⟩ := h
    refine plainText_eq_of_forall₂ ((hparts.imp fun x hx own y hfilled hown => ?_).forall₂ houtcomes)
    cases hfilled with
    | event hevent => rw [hown _ List.mem_cons_self, hevents x _ hevent]
    | inside _ hsequences =>
      exact plain_withChildren ((hsequences.imp fun s hs own t hst ho => ih x hx s hs ho hst).forall₂ hown)

theorem plainText_of_referenced (h : Referenced xs ys) : plainText ys = plainText xs := by
  obtain ⟨outcomes, hreferred, hfilled⟩ := h
  refine plainText_of_filled (fun x note hnote => ?_) (fun o ho => ?_) hfilled
  · cases x <;> cases hnote
    rfl
  · obtain ⟨_, _, _, rfl⟩ := hreferred o ho
    rfl

end PlainText

section Sections

variable {level : UInt8} {attributes attributes' : Attributes} {title title' : Line}
  {elements : List Element} {x : Element}

theorem Noted.of_sectionBlock (h : Noted x (.sectionBlock level attributes title elements)) :
    ∃ title' elements', x = .sectionBlock level attributes title' elements' ∧ Referenced title' title := by
  generalize hsection : Element.sectionBlock level attributes title elements = y at h
  cases h with
  | reference => cases hsection
  | @around sequences hsequences =>
    cases x
    case sectionBlock =>
      obtain _ | ⟨htitle, _ | ⟨-, _ | _⟩⟩ := hsequences
      cases hsection
      exact ⟨_, _, rfl, htitle⟩
    all_goals rcases sequences with _ | ⟨_, _ | ⟨_, _ | ⟨_, _⟩⟩⟩ <;> cases hsection

theorem Credited.of_sectionBlock (h : Credited x (.sectionBlock level attributes title elements)) :
    ∃ given, x = .sectionBlock level given title elements ∧ ∀ name, name ≠ "authors" →
      name ≠ "revision" → attributes.find? name = given.find? name := by
  obtain h | h := h
  · exact ⟨attributes, h.symm, fun _ _ _ => rfl⟩
  · cases x <;> cases h
    refine ⟨_, rfl, fun name hauthors hrevision => ?_⟩
    rw [Dict.find?_erase, if_neg hrevision.symm, Dict.find?_erase, if_neg hauthors.symm]

theorem assign_of_applyTitle {setting : Setting} {steps : List Step} {s t : PassState}
    (h : runFrom s (applyTitle setting steps attributes title) = (.ok (attributes', title'), t)) :
    runFrom s (applyInline setting steps "section title" title) = (.ok title', t) ∧
      attributes' = Identifier.assign t.resolution.store attributes title' := by
  obtain ⟨read, s₁, hread, h⟩ := runFrom_bind_eq_ok.mp h
  cases h
  exact ⟨hread, rfl⟩

end Sections

namespace Identifier

def ReadTitle (grammar : Grammar) (document : Document) (configuration : Configuration)
    (path : List Nat) (title read : Line) (t : PassState) : Prop :=
  ∃ store last s,
    prepare document configuration = .ok (store, afterHeader document.elements) ∧
    Comes ⟨grammar, false⟩ none ⟨⟨store, []⟩, []⟩ (afterHeader document.elements) path last s ∧
    runFrom s (applyInline ⟨grammar, false⟩ (last.getD normalSteps) "section title" title) =
      (.ok read, t)

theorem ReadTitle.unique {grammar : Grammar} {document : Document} {configuration : Configuration}
    {path : List Nat} {title read read' : Line} {t t' : PassState}
    (h : ReadTitle grammar document configuration path title read t)
    (h' : ReadTitle grammar document configuration path title read' t') : read' = read ∧ t' = t := by
  obtain ⟨store, last, s, hprepare, hcomes, hread⟩ := h
  obtain ⟨store', last', s', hprepare', hcomes', hread'⟩ := h'
  cases hprepare.symm.trans hprepare'
  obtain ⟨rfl, rfl⟩ := hcomes.unique hcomes'
  cases hread.symm.trans hread'
  exact ⟨rfl, rfl⟩

theorem slug_congr {title title' : Line} (h : plainText title' = plainText title) (separator : String) :
    slug title' separator = slug title separator := by
  rw [slug, slug, h]

theorem isCustom_congr {attributes given : Attributes}
    (h : attributes.find? "@customID" = given.find? "@customID") :
    isCustom attributes = isCustom given := by
  rw [isCustom, isCustom, h]

theorem isCustom_assign (store : Store) (attributes : Attributes) (title : Line) :
    isCustom (assign store attributes title) = isCustom attributes := by
  rw [assign]
  split
  · rfl
  · exact isCustom_congr ((Dict.find?_insert ..).trans (if_neg (by decide)))

theorem find?_assign (store : Store) (attributes : Attributes) (title : Line) :
    (assign store attributes title).find? "id" =
      if isCustom attributes then attributes.find? "id"
      else some (.string (store.textD "idprefix" "_" ++
        slug title (store.textD "idseparator" "_"))) := by
  rw [assign]
  split
  · rfl
  · exact Dict.find?_insert_self ..

/-- References in place of footnotes leave the visible text as it is. So the identifier of a section matches
its title in the draft, with the prefix and the separator in force when its title was read, unless
the document gave it one. -/
theorem identifiers_match :
    (∀ elements f, plainText ((replace elements).run f).1 = plainText elements) ∧
      ∀ grammar document configuration draft,
        substitute grammar document configuration = .ok draft →
        ∀ path level attributes title elements,
          blockAt draft.elements path = some (.sectionBlock level attributes title elements) →
          ∃ given title₀ elements₀ read t,
            blockAt document.elements path = some (.sectionBlock level given title₀ elements₀) ∧
            ReadTitle grammar document configuration path title₀ read t ∧
            plainText title = plainText read ∧ isCustom attributes = isCustom given ∧
            attributes.find? "id" =
              if isCustom given then given.find? "id"
              else some (.string (t.resolution.store.textD "idprefix" "_" ++
                slug title (t.resolution.store.textD "idseparator" "_"))) := by
  refine ⟨fun elements f => plainText_of_referenced (referenced_replace elements f), ?_⟩
  intro grammar document configuration draft h path level attributes title elements hsection
  obtain ⟨store, hprepare, hplaces⟩ := blockAt_draft h
  obtain ⟨x, hx, x', hcredited, y, ⟨last, s, s', hcomes, htreat⟩, hnoted⟩ :=
    exists_left_of_rel (hsection ▸ hplaces path)
  obtain ⟨read, elements', rfl, htitle⟩ := hnoted.of_sectionBlock
  cases treated_of_treat htreat with
  | sectionBlock hread _ =>
    obtain ⟨hinline, rfl⟩ := assign_of_applyTitle hread
    obtain ⟨given, rfl, hgiven⟩ := hcredited.of_sectionBlock
    have hplain := plainText_of_referenced htitle
    have hcustom := isCustom_congr (hgiven "@customID" (by decide) (by decide))
    refine ⟨given, _, _, read, _, hx, ⟨store, last, s, hprepare, hcomes, hinline⟩, hplain, ?_, ?_⟩
    · rw [isCustom_assign, hcustom]
    · rw [find?_assign, hcustom, hgiven "id" (by decide) (by decide), slug_congr hplain]
  | leaf _ hleaf => exact hleaf.elim

section Annotated

def annotated : Document :=
  ⟨none, [.declaration "idprefix" (.string "s-"),
    .elementBlock .exampleBlock (Dict.ofList [("subs", .string "none")])
      [.sectionBlock 1 ∅ [.text "A", .footnote none [.text "n"]] []]]⟩

def annotatedDraft : Draft :=
  ⟨Dict.ofList [("idprefix", .string "s-")], none,
    [.declaration "idprefix" (.string "s-"),
      .elementBlock .exampleBlock (Dict.ofList [("subs", .string "none")])
        [.sectionBlock 1 (Dict.ofList [("id", .string "s-a")])
          [.text "A", .footnoteReference 1 none false] []]],
    [⟨none, [.text "n"]⟩], []⟩

def annotatedStore : Store := ⟨Dict.ofList [("idprefix", .string "s-")], ∅, ∅⟩

theorem assign_annotated :
    assign annotatedStore ∅ [.text "A", .footnote none [.text "n"]] =
      Dict.ofList [("id", .string "s-a")] := by
  have hslug : slug [.text "A", .footnote none [.text "n"]] "_" = "a" := by decide +kernel
  have hid : "s-" ++ slug [.text "A", .footnote none [.text "n"]] "_" = "s-a" := by
    rw [hslug]
    decide
  rw [← hid]
  with_unfolding_all rfl

theorem substitute_annotated :
    substitute Fragment.parse annotated Configuration.empty = .ok annotatedDraft := by
  have hprepare : prepare annotated Configuration.empty =
      .ok (annotatedStore, annotated.elements) := by with_unfolding_all rfl
  have hpass : runFrom ⟨⟨annotatedStore, []⟩, []⟩
      (applyElements ⟨Fragment.parse, false⟩ annotated.elements) =
      (.ok [.declaration "idprefix" (.string "s-"),
        .elementBlock .exampleBlock (Dict.ofList [("subs", .string "none")])
          [.sectionBlock 1 (assign annotatedStore ∅ [.text "A", .footnote none [.text "n"]])
            [.text "A", .footnote none [.text "n"]] []]], ⟨⟨annotatedStore, []⟩, []⟩) := by
    with_unfolding_all rfl
  rw [substitute, run_of_prepare _ hprepare, hpass, assign_annotated]
  with_unfolding_all rfl

theorem identifiers_match_annotated :
    substitute Fragment.parse annotated Configuration.empty = .ok annotatedDraft ∧
      blockAt annotatedDraft.elements [1, 0] = some (.sectionBlock 1
        (Dict.ofList [("id", .string "s-a")]) [.text "A", .footnoteReference 1 none false] []) ∧
      ∃ read t, ReadTitle Fragment.parse annotated Configuration.empty [1, 0]
          [.text "A", .footnote none [.text "n"]] read t ∧
        plainText read = "A" ∧ t.resolution.store.textD "idprefix" "_" ++
          slug read (t.resolution.store.textD "idseparator" "_") = "s-a" := by
  have hsection : blockAt annotatedDraft.elements [1, 0] = some (.sectionBlock 1
      (Dict.ofList [("id", .string "s-a")]) [.text "A", .footnoteReference 1 none false] []) := rfl
  obtain ⟨given, title, _, read, t, hgiven, hread, hplain, -, hid⟩ :=
    identifiers_match.2 _ _ _ _ substitute_annotated _ _ _ _ _ hsection
  cases hgiven
  rw [slug_congr hplain] at hid
  change some (Value.string "s-a") = some (Value.string _) at hid
  exact ⟨substitute_annotated, hsection, read, t, hread, hplain.symm,
    (Value.string.inj (Option.some.inj hid)).symm⟩

end Annotated

end Identifier

end Manuscript
