import Manuscript.Proofs.Header.Scan

namespace Manuscript

def Value.isAuthors : Value → Bool
  | .authors _ => true
  | _ => false

def Value.isRevision : Value → Bool
  | .revision _ => true
  | _ => false

namespace Dict

def moveOut {α : Type} (d : Dict α) (name : String) (kind : α → Bool) : Dict α :=
  if (d.find? name).any kind then d.erase name else d

variable {α : Type} {d : Dict α} {name : String} {kind : α → Bool}

theorem erase_of_find?_eq_none (h : d.find? name = none) : d.erase name = d := by
  obtain ⟨entries⟩ := d
  refine congrArg Dict.mk (List.filter_eq_self.mpr fun entry hentry => decide_eq_true fun he => ?_)
  subst he
  exact findEntry_ne_none hentry h

theorem find?_moveOut (d : Dict α) (name other : String) (kind : α → Bool) :
    (d.moveOut name kind).find? other =
      if name = other then (d.find? other).filter (!kind ·) else d.find? other := by
  rw [moveOut]
  by_cases hname : name = other
  · subst hname
    rw [if_pos rfl]
    cases h : d.find? name with
    | none => exact h
    | some value => cases hkind : kind value <;> simp [h, hkind, find?_erase, Option.filter]
  · rw [if_neg hname]
    split
    · rw [find?_erase, if_neg hname]
    · rfl

theorem erase_eq_moveOut (h : ∀ value, d.find? name = some value → kind value) :
    d.erase name = d.moveOut name kind := by
  rw [moveOut]
  split
  · rfl
  · next hany =>
    refine erase_of_find?_eq_none (Option.eq_none_iff_forall_ne_some.mpr fun value hvalue => hany ?_)
    rw [hvalue]
    exact h value hvalue

end Dict

namespace Header

def movedOut : Element → Element
  | .sectionBlock level attributes title elements =>
      .sectionBlock level
        ((attributes.moveOut "authors" Value.isAuthors).moveOut "revision" Value.isRevision) title elements
  | x => x

def Mistyped (attributes : Attributes) : Prop :=
  (∃ value, attributes.find? "authors" = some value ∧ value.isAuthors = false) ∨
    ∃ value, attributes.find? "revision" = some value ∧ value.isRevision = false

variable {attributes : Attributes}

theorem erase_eq_moveOut_iff :
    (attributes.erase "authors").erase "revision" =
        (attributes.moveOut "authors" Value.isAuthors).moveOut "revision" Value.isRevision ↔
      ¬ Mistyped attributes := by
  constructor
  · intro h
    have hfind (name : String) := congrArg (Dict.find? · name) h
    simp only [Dict.find?_erase, Dict.find?_moveOut] at hfind
    rintro (⟨value, hvalue, hkind⟩ | ⟨value, hvalue, hkind⟩)
    · simpa [hvalue, hkind, Option.filter] using hfind "authors"
    · simpa [hvalue, hkind, Option.filter] using hfind "revision"
  · intro h
    have hauthors (value : Value) (hvalue : attributes.find? "authors" = some value) :
        value.isAuthors = true := by
      by_contra hkind
      exact h (.inl ⟨value, hvalue, Bool.eq_false_iff.mpr hkind⟩)
    have hrevision (value : Value) (hvalue : attributes.find? "revision" = some value) :
        value.isRevision = true := by
      by_contra hkind
      exact h (.inr ⟨value, hvalue, Bool.eq_false_iff.mpr hkind⟩)
    rw [Dict.erase_eq_moveOut hauthors]
    refine Dict.erase_eq_moveOut fun value hvalue => hrevision value ?_
    rwa [Dict.find?_moveOut, if_neg (by decide)] at hvalue

theorem withoutCredits_eq_movedOut_iff (x : Element) :
    withoutCredits x = movedOut x ↔
      ∀ level attributes title elements, x = .sectionBlock level attributes title elements →
        ¬ Mistyped attributes := by
  cases x
  case sectionBlock level attributes title elements =>
    simp only [withoutCredits, movedOut, Element.sectionBlock.injEq, true_and, and_true]
    rw [erase_eq_moveOut_iff]
    exact ⟨fun h _ _ _ _ he => he.2.1 ▸ h, fun h => h _ _ _ _ ⟨rfl, rfl, rfl, rfl⟩⟩
  all_goals
    refine ⟨fun _ _ _ _ _ he => ?_, fun _ => rfl⟩
    cases he

/-- In the header, only the titles change, and of a title only the authors and the revision, which are
entered into the result. Nothing else is lost exactly if these are an author list and a revision. -/
theorem collect_moves_iff (elements : List Element) :
    (collect ∅ elements).2 = afterHeader elements ∧
    (∀ name, (collect ∅ elements).1.find? name =
      last? (written? name) (elements.takeWhile inHeader)) ∧
    ((collect ∅ elements).2 =
        (elements.takeWhile inHeader).map movedOut ++ elements.dropWhile inHeader ↔
      ∀ level attributes title inside,
        .sectionBlock level attributes title inside ∈ elements.takeWhile inHeader →
          ¬ Mistyped attributes) := by
  refine ⟨collect_snd ∅ elements, fun _ => find?_collect elements, ?_⟩
  rw [collect_snd, afterHeader, List.append_cancel_right_eq, List.map_inj_left]
  simp only [withoutCredits_eq_movedOut_iff]
  constructor
  · exact fun h level attributes title inside hmem => h _ hmem _ _ _ _ rfl
  · rintro h x hx level attributes title inside rfl
    exact h _ _ _ _ hx

theorem collect_discards_text :
    movedOut (.sectionBlock 0 (Dict.ofList [("authors", .string "x")]) [.text "t"] []) =
        .sectionBlock 0 (Dict.ofList [("authors", .string "x")]) [.text "t"] [] ∧
      collect ∅ [.sectionBlock 0 (Dict.ofList [("authors", .string "x")]) [.text "t"] []] =
        (∅, [.sectionBlock 0 ∅ [.text "t"] []]) :=
  ⟨rfl, rfl⟩

end Header

end Manuscript
