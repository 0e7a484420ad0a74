import Manuscript.Proofs.Filling
import Manuscript.Substitution.Footnote

namespace Manuscript

namespace Footnotes

def note? : Element → Option Note
  | .footnote reference content => some ⟨reference, content⟩
  | _ => none

def collect (note : Note) : StateM Footnotes Element := refer note.reference note.content

def kept (footnotes : List Note) : List Note := footnotes.filter (!·.content.isEmpty)

def FirstOf (name : String) (notes : List Note) (i : Nat) : Prop :=
  ∃ h : i < notes.length, notes[i].reference = some name ∧
    ∀ j (hj : j < i), notes[j].reference ≠ some name

inductive Refers (notes : List Note) (note : Note) : Element → Prop
  | numbered {id : Int32} : note.content ≠ [] → id.toInt = notes.length + 1 →
      Refers notes note (.footnoteReference id note.reference false)
  | again {name : String} {i : Nat} {id : Int32} : note.content = [] →
      note.reference = some name → FirstOf name notes i → id.toInt = i + 1 →
      Refers notes note (.footnoteReference id note.reference true)
  | unknown : note.content = [] →
      (∀ name, note.reference = some name → ∀ known ∈ notes, known.reference ≠ some name) →
      Refers notes note (.footnoteReference unknownId note.reference false)

def missing? : Element → Option Warning
  | .footnoteReference id reference _ =>
      if id = unknownId then some (.missingFootnote (reference.getD "")) else none
  | _ => none

variable {f f' : Footnotes} {name : String} {reference : Option String} {notes footnotes : List Note}
  {note : Note} {outcome : Element} {elements outcomes : List Element}

theorem known?_eq_some_iff {id : Int32} : known? reference notes = some id ↔
    ∃ name i, reference = some name ∧ FirstOf name notes i ∧ Int32.ofNat (i + 1) = id := by
  cases reference with
  | none => exact iff_of_false nofun fun ⟨_, _, h, _⟩ => nomatch h
  | some name =>
    change (notes.findIdx? (·.reference == some name)).map _ = _ ↔ _
    simp [List.findIdx?_eq_some_iff_getElem, FirstOf]

theorem known?_eq_none_iff : known? reference notes = none ↔
    ∀ name, reference = some name → ∀ note ∈ notes, note.reference ≠ some name := by
  cases reference with
  | none => exact iff_of_true rfl nofun
  | some name =>
    change (notes.findIdx? (·.reference == some name)).map _ = _ ↔ _
    simp [List.findIdx?_eq_none_iff]

theorem run_collect (f : Footnotes) (note : Note) :
    (collect note).run f =
      if note.content.isEmpty then
        match known? note.reference f.notes with
        | some id => (.footnoteReference id note.reference true, f)
        | none => (.footnoteReference unknownId note.reference false,
            { f with warnings := f.warnings ++ [.missingFootnote (note.reference.getD "")] })
      else (.footnoteReference (Int32.ofNat (f.notes.length + 1)) note.reference false,
        { f with notes := f.notes ++ [note] }) := rfl

theorem collect_cases (f : Footnotes) (note : Note) :
    (note.content ≠ [] ∧ (collect note).run f =
      (.footnoteReference (Int32.ofNat (f.notes.length + 1)) note.reference false,
        { f with notes := f.notes ++ [note] })) ∨
    (∃ name i, note.content = [] ∧ note.reference = some name ∧ FirstOf name f.notes i ∧
      (collect note).run f =
        (.footnoteReference (Int32.ofNat (i + 1)) note.reference true, f)) ∨
    (note.content = [] ∧
      (∀ name, note.reference = some name → ∀ known ∈ f.notes, known.reference ≠ some name) ∧
      (collect note).run f = (.footnoteReference unknownId note.reference false,
        { f with warnings := f.warnings ++ [.missingFootnote (note.reference.getD "")] })) := by
  rw [run_collect]
  by_cases hcontent : note.content = []
  · rw [if_pos (List.isEmpty_iff.mpr hcontent)]
    cases hknown : known? note.reference f.notes with
    | some id =>
      obtain ⟨name, i, hname, hfirst, rfl⟩ := known?_eq_some_iff.mp hknown
      exact .inr (.inl ⟨name, i, hcontent, hname, hfirst, rfl⟩)
    | none => exact .inr (.inr ⟨hcontent, known?_eq_none_iff.mp hknown, rfl⟩)
  · rw [if_neg (hcontent ∘ List.isEmpty_iff.mp)]
    exact .inl ⟨hcontent, rfl⟩

theorem kept_cons (note : Note) (footnotes : List Note) :
    kept (note :: footnotes) = kept [note] ++ kept footnotes := by
  rw [kept, kept, kept, ← List.filter_append, List.singleton_append]

theorem kept_of_content (h : note.content ≠ []) : kept [note] = [note] := by
  simp [kept, h]

theorem kept_of_no_content (h : note.content = []) : kept [note] = [] := by
  simp [kept, h]

theorem toInt_ofNat {n : Nat} (h : n ≤ Int32.maxValue.toInt) : (Int32.ofNat n).toInt = n := by
  rw [Int32.toInt_maxValue] at h
  exact Int32.toInt_ofNat_of_lt (by omega)

theorem ofNat_ne_unknownId {n : Nat} (h : n ≤ Int32.maxValue.toInt) :
    Int32.ofNat n ≠ unknownId := by
  intro hid
  have hvalue := toInt_ofNat h
  rw [hid] at hvalue
  have hunknown : unknownId.toInt = -1 := rfl
  omega

theorem refers_collect (few : (f.notes ++ kept [note]).length ≤ Int32.maxValue.toInt) :
    ∃ outcome, (collect note).run f = (outcome, ⟨f.notes ++ kept [note],
        f.warnings ++ (missing? outcome).toList⟩) ∧ Refers f.notes note outcome := by
  rw [List.length_append] at few
  rcases collect_cases f note with ⟨hcontent, hrun⟩ | ⟨name, i, hcontent, hname, hfirst, hrun⟩ |
    ⟨hcontent, hunknown, hrun⟩
  · rw [kept_of_content hcontent, List.length_singleton] at few
    have hid := toInt_ofNat few
    refine ⟨_, hrun.trans ?_, .numbered hcontent (hid.trans (Int.natCast_succ _))⟩
    rw [kept_of_content hcontent, missing?, if_neg (ofNat_ne_unknownId few), Option.toList_none,
      List.append_nil]
  · -- The number of a known note is that of a place in the list, so it cannot be -1.
    have hle : (i + 1 : Nat) ≤ Int32.maxValue.toInt := by
      have hlt := hfirst.1
      omega
    have hid := toInt_ofNat hle
    refine ⟨_, hrun.trans ?_, .again hcontent hname hfirst (hid.trans (Int.natCast_succ _))⟩
    rw [kept_of_no_content hcontent, missing?, if_neg (ofNat_ne_unknownId hle), Option.toList_none,
      List.append_nil, List.append_nil]
  · refine ⟨_, hrun.trans ?_, .unknown hcontent hunknown⟩
    rw [kept_of_no_content hcontent, missing?, if_pos rfl, Option.toList_some, List.append_nil]

theorem Refers.gather_eq_nil (h : Refers notes note outcome) : outcome.gather note? = [] := by
  cases h <;> rfl

theorem run_mapM_collect_cons (f : Footnotes) (note : Note) (rest : List Note) :
    ((note :: rest).mapM collect).run f =
      (((collect note).run f).1 :: ((rest.mapM collect).run ((collect note).run f).2).1,
        ((rest.mapM collect).run ((collect note).run f).2).2) := by
  rw [List.mapM_cons]
  rfl

theorem of_run_collect {o : Element} (h : (collect note).run f = (o, f')) :
    (∃ id reference duplicate, o = .footnoteReference id reference duplicate) ∧
      f'.notes = f.notes ++ kept [note] := by
  rcases collect_cases f note with ⟨hcontent, hrun⟩ | ⟨_, _, hcontent, -, -, hrun⟩ |
    ⟨hcontent, -, hrun⟩ <;> cases hrun.symm.trans h
  · exact ⟨⟨_, _, _, rfl⟩, by rw [kept_of_content hcontent]⟩
  · exact ⟨⟨_, _, _, rfl⟩, by rw [kept_of_no_content hcontent, List.append_nil]⟩
  · exact ⟨⟨_, _, _, rfl⟩, by rw [kept_of_no_content hcontent, List.append_nil]⟩

theorem of_run_mapM_collect (h : (footnotes.mapM collect).run f = (outcomes, f')) :
    outcomes.length = footnotes.length ∧
      (∀ o ∈ outcomes, ∃ id reference duplicate, o = .footnoteReference id reference duplicate) ∧
      f'.notes = f.notes ++ kept footnotes := by
  induction footnotes generalizing f outcomes with
  | nil =>
    cases h
    exact ⟨rfl, fun _ ho => absurd ho List.not_mem_nil, (List.append_nil _).symm⟩
  | cons note rest ih =>
    obtain ⟨o, f₁, hrun⟩ : ∃ o f₁, (collect note).run f = (o, f₁) := ⟨_, _, rfl⟩
    rw [run_mapM_collect_cons, hrun] at h
    cases h
    obtain ⟨ho, hfirst⟩ := of_run_collect hrun
    obtain ⟨hlength, hothers, hrest⟩ := ih (f := f₁) rfl
    refine ⟨congrArg (· + 1) hlength, List.forall_mem_cons.mpr ⟨ho, hothers⟩, ?_⟩
    rw [hrest, hfirst, kept_cons note rest, List.append_assoc]

inductive Numbered : List Note → List Note → List Element → Prop
  | nil {notes : List Note} : Numbered notes [] []
  | cons {notes rest : List Note} {note : Note} {outcome : Element} {outcomes : List Element} :
      Refers notes note outcome → Numbered (notes ++ kept [note]) rest outcomes →
      Numbered notes (note :: rest) (outcome :: outcomes)

namespace Numbered

theorem length_eq (h : Numbered notes footnotes outcomes) :
    outcomes.length = footnotes.length := by
  induction h with
  | nil => rfl
  | cons _ _ ih => exact congrArg (· + 1) ih

theorem gather_eq_nil (h : Numbered notes footnotes outcomes) :
    ∀ o ∈ outcomes, o.gather note? = [] := by
  induction h with
  | nil => exact fun _ ho => absurd ho List.not_mem_nil
  | cons hrefers _ ih => exact List.forall_mem_cons.mpr ⟨hrefers.gather_eq_nil, ih⟩

theorem refers {before after : List Note} (h : Numbered notes (before ++ note :: after) outcomes) :
    ∃ outcome, outcomes[before.length]? = some outcome ∧
      Refers (notes ++ kept before) note outcome := by
  induction before generalizing notes outcomes with
  | nil =>
    obtain _ | ⟨hrefers, -⟩ := h
    exact ⟨_, rfl, (List.append_nil notes).symm ▸ hrefers⟩
  | cons first before ih =>
    obtain _ | ⟨-, hrest⟩ := h
    obtain ⟨outcome, hget, hrefers⟩ := ih hrest
    rw [List.append_assoc, ← kept_cons] at hrefers
    exact ⟨outcome, hget, hrefers⟩

end Numbered

theorem numbered_mapM_collect (few : (f.notes ++ kept footnotes).length ≤ Int32.maxValue.toInt) :
    ∃ outcomes, (footnotes.mapM collect).run f =
        (outcomes, ⟨f.notes ++ kept footnotes, f.warnings ++ outcomes.filterMap missing?⟩) ∧
      Numbered f.notes footnotes outcomes := by
  induction footnotes generalizing f with
  | nil =>
    refine ⟨[], ?_, .nil⟩
    rw [kept, List.filter_nil, List.filterMap_nil, List.append_nil, List.append_nil]
    rfl
  | cons note rest ih =>
    -- The rest starts from the notes with this footnote among them, if it has content.
    rw [kept_cons, ← List.append_assoc] at few ⊢
    have few_first : (f.notes ++ kept [note]).length ≤ Int32.maxValue.toInt := by
      rw [List.length_append] at few
      omega
    obtain ⟨outcome, hfirst, hrefers⟩ := refers_collect few_first
    obtain ⟨outcomes, hrest, hnumbered⟩ := @ih ⟨_, f.warnings ++ (missing? outcome).toList⟩ few
    refine ⟨outcome :: outcomes, ?_, .cons hrefers hnumbered⟩
    have hmissing : (outcome :: outcomes).filterMap missing? =
        (missing? outcome).toList ++ outcomes.filterMap missing? := by
      rw [List.filterMap_cons]
      cases missing? outcome <;> rfl
    rw [run_mapM_collect_cons, hfirst, hmissing, ← List.append_assoc]
    dsimp only
    rw [hrest]

theorem replace_eq (elements : List Element) :
    replace elements = (fun outcomes => ((rebuild note? id elements).run outcomes).1) <$>
      (gather note? elements).mapM collect := by
  have h : referring? = fun element => (note? element).map collect := by
    funext element
    cases element <;> rfl
  rw [replace, h, walkM_eq_replay]

theorem note?_withChildren (x : Element) (sequences : List (List Element)) (h : note? x = none) :
    note? (x.withChildren sequences) = none := by
  cases x
  case footnote => cases h
  all_goals rcases sequences with _ | ⟨_, _ | ⟨_, _ | ⟨_, _⟩⟩⟩ <;> rfl

/-- If the numbers suffice, footnotes with content get the next ones in document order and become notes. Those
without content get the number of the first note of their name so far, or are unknown and give a warning. -/
theorem replace_numbers (elements : List Element) (f : Footnotes)
    (few : (f.notes ++ kept (gather note? elements)).length ≤ Int32.maxValue.toInt) :
    ∃ outcomes result, (replace elements).run f =
        (result, ⟨f.notes ++ kept (gather note? elements),
          f.warnings ++ outcomes.filterMap missing?⟩) ∧
      Filled note? id elements outcomes result ∧
      outcomes.length = (gather note? elements).length ∧
      (∀ before note after, gather note? elements = before ++ note :: after →
        ∃ outcome, outcomes[before.length]? = some outcome ∧
          Refers (f.notes ++ kept before) note outcome) ∧
      ∀ x, Visited x result → note? x = none := by
  obtain ⟨outcomes, hrun, hnumbered⟩ := numbered_mapM_collect few
  have hfilled : Filled note? id elements outcomes _ := filled_run_rebuild hnumbered.length_eq
  refine ⟨outcomes, _, ?_, hfilled, hnumbered.length_eq, fun before note after h => ?_, ?_⟩
  · rw [replace_eq, StateT.run_map, hrun]
    rfl
  · exact (h ▸ hnumbered).refers
  · rw [← gather_eq_nil_iff]
    exact hfilled.gather_eq_nil note?_withChildren (fun _ => id) hnumbered.gather_eq_nil

def citing : List Element :=
  [.footnote (some "a") [.text "more"],
    .paragraph ∅ [[.footnote none [.text "aside"]], [.text "see", .footnote (some "a") []]],
    .footnote (some "b") []]

def earlier : Footnotes := ⟨[⟨some "a", [.text "first"]⟩], []⟩

theorem gather_citing : gather note? citing =
    [⟨some "a", [.text "more"]⟩, ⟨none, [.text "aside"]⟩, ⟨some "a", []⟩, ⟨some "b", []⟩] := by
  simp [citing, gather_eq, Element.gather, note?, Element.children]

theorem replace_numbers_citing :
    (earlier.notes ++ kept (gather note? citing)).length ≤ Int32.maxValue.toInt ∧
      ∃ outcomes result, (replace citing).run earlier =
          (result, ⟨earlier.notes ++ kept (gather note? citing),
            earlier.warnings ++ outcomes.filterMap missing?⟩) ∧
        Filled note? id citing outcomes result ∧
        outcomes.length = (gather note? citing).length ∧
        (∀ before note after, gather note? citing = before ++ note :: after →
          ∃ outcome, outcomes[before.length]? = some outcome ∧
            Refers (earlier.notes ++ kept before) note outcome) ∧
        ∀ x, Visited x result → note? x = none := by
  have few : (earlier.notes ++ kept (gather note? citing)).length ≤ Int32.maxValue.toInt := by
    rw [gather_citing]
    decide
  exact ⟨few, replace_numbers citing earlier few⟩

end Footnotes

end Manuscript
