import Manuscript.Proofs.Reserved.Steps

namespace Manuscript

def StringsAdded (before after : Attributes) : Prop :=
  ∀ entry ∈ after.entries, entry ∈ before.entries ∨ ∃ s, entry.2 = .string s

namespace StringsAdded

variable {before after : Attributes}

theorem refl (attributes : Attributes) : StringsAdded attributes attributes :=
  fun _ he => .inl he

theorem insert (attributes : Attributes) (name s : String) :
    StringsAdded attributes (attributes.insert name (.string s)) := by
  intro entry he
  rcases Dict.mem_insertEntry he with rfl | he
  · exact .inr ⟨s, rfl⟩
  · exact .inl he

theorem mem_sequencesOf (h : StringsAdded before after) {sequence : List Element}
    (hs : sequence ∈ sequencesOf after.entries) : sequence ∈ sequencesOf before.entries := by
  rw [sequencesOf_eq_flatMap, List.mem_flatMap] at hs ⊢
  obtain ⟨entry, he, hs⟩ := hs
  rcases h entry he with he | ⟨s, hstring⟩
  · exact ⟨entry, he, hs⟩
  · rw [hstring] at hs
    cases hs

theorem credits (h : StringsAdded before after) {p : String → Prop}
    (hp : ∀ entry ∈ before.entries, entry.2.Credits p) :
    ∀ entry ∈ after.entries, entry.2.Credits p := by
  intro entry he
  rcases h entry he with he | ⟨s, hstring⟩
  · exact hp entry he
  · rw [hstring]
    trivial

end StringsAdded

namespace Tracks

variable {α β : Type} {pre : Prop} {action : Run α} {moments : PassState → List Moment}
  {tidy : α → Prop} {next : α → Run β} {tidy' unmarked' : β → Prop}

theorem andThen (h : Tracks pre action moments tidy fun _ => True)
    (hnext : ∀ a, Tracks (pre ∧ tidy a) (next a) nothing tidy' unmarked') :
    Tracks pre (action >>= next) moments tidy' unmarked' := by
  have hmoments : followed moments action (fun _ => nothing) = moments := by
    funext s
    rw [followed]
    cases runFrom s action with
    | mk outcome s' => cases outcome <;> exact List.append_nil _
  have hbind := h.bind hnext
  rwa [hmoments] at hbind

theorem store (pre : Prop) : Tracks pre Pass.store nothing Store.Tidy fun _ => True := by
  intro s a s' hrun
  cases hrun
  exact ⟨[], (List.append_nil _).symm, fun _ hstore => .nil ⟨hstore, hstore⟩⟩

theorem ofExcept (pre : Prop) (outcome : Except Fault α) :
    Tracks pre (Pass.ofExcept outcome) nothing (fun _ => True) fun _ => True := by
  intro s a s' hrun
  cases outcome with
  | error fault => cases hrun
  | ok b =>
    cases hrun
    exact ⟨[], (List.append_nil _).symm, fun _ hstore => .nil ⟨trivial, hstore⟩⟩

end Tracks

namespace Pass

def inlineMoments (setting : Setting) (steps : List Step) (block : String) (line : Line) :
    PassState → List Moment :=
  linesMoments setting steps block [line]

def leafMoments (setting : Setting) : Element → PassState → List Moment
  | .imageBlock location _ => inlineMoments setting [.attributes] "image block" location.path
  | element => fun s => resolveMoments [element] s.resolution

mutual

def childMoments (setting : Setting) (steps : List Step) : Element → PassState → List Moment
  | .paragraph _ lines => linesMoments setting steps "paragraph" lines
  | .lineBlock kind _ lines => linesMoments setting steps kind.name lines
  | .elementBlock _ _ elements => childrenMoments setting steps elements
  | .sectionBlock _ attributes title elements =>
      followed (inlineMoments setting steps "section title" title)
        (applyTitle setting steps attributes title) fun _ => childrenMoments setting steps elements
  | .listItem _ _ elements => childrenMoments setting steps elements
  | .labeledItem _ term _ elements =>
      followed (inlineMoments setting steps "labeled list term" term)
        (applyInline setting steps "labeled list term" term) fun _ =>
          childrenMoments setting steps elements
  | .continued _ element => childMoments setting steps element
  | element => leafMoments setting element

def childrenMoments (setting : Setting) (steps : List Step) :
    List Element → PassState → List Moment
  | [] => nothing
  | element :: rest =>
      followed (childMoments setting steps element) (applyChild setting steps element) fun _ =>
        childrenMoments setting steps rest

end

mutual

def elementMoments (setting : Setting) : Element → PassState → List Moment
  | .paragraph attributes lines =>
      followed nothing (ofExcept (Directive.forParagraph attributes)) fun steps =>
        linesMoments setting steps "paragraph" lines
  | .lineBlock kind attributes lines =>
      followed nothing (ofExcept (Directive.forBlock kind attributes)) fun steps =>
        followed nothing (moveAttribution setting kind attributes lines) fun moved =>
          linesMoments setting steps kind.name moved.2
  | .elementBlock kind attributes elements =>
      followed nothing (ofExcept (Directive.forBlock kind attributes)) fun steps =>
        childrenMoments setting steps elements
  | .sectionBlock _ attributes title elements =>
      followed (inlineMoments setting normalSteps "section title" title)
        (applyTitle setting normalSteps attributes title) fun _ => elementsMoments setting elements
  | .listItem _ _ elements => elementsMoments setting elements
  | .labeledItem _ term _ elements =>
      followed (inlineMoments setting normalSteps "labeled list term" term)
        (applyInline setting normalSteps "labeled list term" term) fun _ =>
          elementsMoments setting elements
  | .continued _ element => elementMoments setting element
  | element => leafMoments setting element

def elementsMoments (setting : Setting) : List Element → PassState → List Moment
  | [] => nothing
  | element :: rest =>
      followed (elementMoments setting element) (applyElement setting element) fun _ =>
        elementsMoments setting rest

end

variable {attributes : Attributes} {lines : List Line} {location : Location Element}

theorem tracks_applyInline (steps : List Step) (block : String) (line : Line) :
    Tracks (Everywhere Element.Tidy line) (applyInline recording steps block line)
      (inlineMoments recording steps block line) (Everywhere Element.Tidy) fun _ => True := by
  refine ((tracks_applyLines steps).mono List.forall_mem_singleton.mpr (fun _ after hafter => ?_)
    fun _ => id).map
  cases after with
  | nil => exact everywhere_nil
  | cons first rest => exact hafter first List.mem_cons_self

theorem tracks_applyTitle (steps : List Step) (attributes : Attributes) (title : Line) :
    Tracks (Everywhere Element.Tidy title) (applyTitle recording steps attributes title)
      (inlineMoments recording steps "section title" title)
      (fun titled => StringsAdded attributes titled.1 ∧ Everywhere Element.Tidy titled.2)
      fun _ => True := by
  refine (tracks_applyInline steps _ title).andThen fun after =>
    (Tracks.store _).andThen fun current => .pure ?_
  rintro ⟨⟨-, hafter⟩, -⟩
  refine ⟨?_, hafter⟩
  rw [Identifier.assign]
  split
  · exact .refl attributes
  · exact .insert attributes "id" _

theorem mem_of_attribution? {grammar : Grammar} {options : Options} {author : String}
    {others : List Line} (h : attribution? grammar options lines = some (author, others)) :
    ∀ line ∈ others, line ∈ lines := by
  unfold attribution? at h
  split at h
  · split at h
    · dsimp only at h
      split at h
      · cases h
      · cases h
        exact fun line hline => List.dropLast_subset lines hline
    · cases h
  · cases h

theorem tracks_moveAttribution (kind : BlockKind) (attributes : Attributes) (lines : List Line) :
    Tracks (TidyLines lines) (moveAttribution recording kind attributes lines) nothing
      (fun moved => StringsAdded attributes moved.1 ∧ TidyLines moved.2) fun _ => True := by
  rw [moveAttribution]
  split
  · refine (Tracks.store _).andThen fun current => ?_
    split
    · next author others hmoved =>
      refine .pure fun ⟨hlines, _⟩ => ⟨.insert attributes "quoteAuthor" author, ?_⟩
      exact fun line hline => hlines line (mem_of_attribution? hmoved line hline)
    · exact .pure fun ⟨hlines, _⟩ => ⟨.refl attributes, hlines⟩
  · exact .pure fun hlines => ⟨.refl attributes, hlines⟩

theorem tracks_applyImage (location : Location Element) (attributes : Attributes) :
    Tracks ((Element.imageBlock location attributes).Throughout Element.Tidy)
      (applyImage recording location attributes)
      (inlineMoments recording [.attributes] "image block" location.path)
      (·.Throughout Element.Tidy) fun _ => True := by
  refine ((tracks_applyInline _ _ _).weaken fun h => h.2.1 _ List.mem_cons_self).andThen
    fun path => (Tracks.store _).andThen fun current => ?_
  have hbelow {after : Attributes} (hadded : StringsAdded attributes after)
      (h : ((Element.imageBlock location attributes).Throughout Element.Tidy ∧
        Everywhere Element.Tidy path) ∧ current.Tidy) :
      (Element.imageBlock (Location.below (current.textD "imagesdir" "") { location with path })
        after).Throughout Element.Tidy := by
    obtain ⟨⟨himage, hpath⟩, hstore⟩ := h
    refine ⟨trivial, List.forall_mem_singleton.mpr ?_, fun s hs => ?_⟩
    · exact tidy_path_below (hstore.clean_textD clean_empty) hpath
    · exact himage.2.2 s (hadded.mem_sequencesOf hs)
  split
  · exact .pure (hbelow (.refl attributes))
  · exact .pure (hbelow (.insert attributes "alt" _))

theorem tracks_resolveElement (element : Element) :
    Tracks (element.Throughout Element.Tidy) (resolving (resolveElement element))
      (fun s => resolveMoments [element] s.resolution) (·.Throughout Element.Tidy)
      (·.Throughout Element.Unmarked) := by
  intro s y s' hrun
  rw [runFrom_resolving] at hrun
  obtain ⟨hy, rfl⟩ := Prod.mk.inj hrun
  refine ⟨[], (List.append_nil _).symm, fun htidy hstore => ?_⟩
  obtain ⟨hstore', hsilent, hback⟩ := tidy_resolveElement htidy hstore (Prod.ext hy rfl)
  refine ⟨fun hall => ?_, fun _ hunmarked => hback hunmarked⟩
  exact ⟨unmarked_resolveMoments, fun _ hr => absurd hr List.not_mem_nil, hsilent hall, hstore'⟩

theorem tracks_applyLeaf (element : Element) :
    Tracks (element.Throughout Element.Tidy) (applyLeaf recording element)
      (leafMoments recording element) (·.Throughout Element.Tidy)
      (·.Throughout Element.Unmarked) := by
  fun_cases applyLeaf recording element with
  | case1 location attributes =>
    exact (tracks_applyImage location attributes).mono id (fun _ _ => id) fun _ _ => trivial
  | case2 _ hleaf =>
    rw [leafMoments.eq_2 _ _ hleaf]
    exact tracks_resolveElement element

theorem tidy_section {level : UInt8} {after : Attributes}
    {title title' elements elements' : List Element}
    (h : (Element.sectionBlock level attributes title elements).Throughout Element.Tidy)
    (hadded : StringsAdded attributes after) (htitle : Everywhere Element.Tidy title')
    (helements : Everywhere Element.Tidy elements') :
    (Element.sectionBlock level after title' elements').Throughout Element.Tidy :=
  ⟨hadded.credits h.1,
    List.forall_mem_cons.mpr ⟨htitle, List.forall_mem_singleton.mpr helements⟩,
    fun s hs => h.2.2 s (hadded.mem_sequencesOf hs)⟩

theorem tidy_labeledItem {level : UInt8} {term term' elements elements' : List Element}
    (h : (Element.labeledItem level term attributes elements).Throughout Element.Tidy)
    (hterm : Everywhere Element.Tidy term') (helements : Everywhere Element.Tidy elements') :
    (Element.labeledItem level term' attributes elements').Throughout Element.Tidy :=
  ⟨trivial, List.forall_mem_cons.mpr ⟨hterm, List.forall_mem_singleton.mpr helements⟩, h.2.2⟩

section Body

variable {held : List (List Element)} {elements : List Element} {action : Run (List Element)}
  {moments : PassState → List Moment}

theorem tracks_lines (make : List Line → Element)
    (hchildren : ∀ lines, (make lines).children = lines)
    (hheld : ∀ lines, (make lines).held = held) (htidy : ∀ lines, (make lines).Tidy)
    (steps : List Step) (block : String) (lines : List Line) :
    Tracks ((make lines).Throughout Element.Tidy)
      (make <$> applyLines recording steps block lines) (linesMoments recording steps block lines)
      (·.Throughout Element.Tidy) (·.Throughout Element.Unmarked) := by
  refine .map ((tracks_applyLines steps).mono (fun h => ?_) (fun h after hafter => ?_)
    fun _ _ => trivial)
  · exact hchildren lines ▸ h.2.1
  · refine ⟨htidy after, (hchildren after).symm ▸ hafter, ?_⟩
    rw [hheld after, ← hheld lines]
    exact h.2.2

theorem tracks_contents (make : List Element → Element)
    (hchildren : ∀ elements, (make elements).children = [elements])
    (hheld : ∀ elements, (make elements).held = held)
    (htidy : ∀ elements, (make elements).Tidy)
    (h : Tracks (Everywhere Element.Tidy elements) action moments (Everywhere Element.Tidy)
      (Everywhere Element.Unmarked)) :
    Tracks ((make elements).Throughout Element.Tidy) (make <$> action) moments
      (·.Throughout Element.Tidy) (·.Throughout Element.Unmarked) := by
  have hbody {p : Element → Prop} {elements : List Element} (h : (make elements).Throughout p) :
      Everywhere p elements :=
    List.forall_mem_singleton.mp (hchildren elements ▸ h.2.1)
  refine .map (h.mono hbody (fun h after hafter => ⟨htidy after, ?_, ?_⟩) fun _ => hbody)
  · rw [hchildren after]
    exact List.forall_mem_singleton.mpr hafter
  · rw [hheld after, ← hheld elements]
    exact h.2.2

theorem tracks_headed {α : Type} {x : Element} {head : Run α} {headMoments : PassState → List Moment}
    {own : α → Prop} (make : α → List Element → Element)
    (hhead : Tracks (x.Throughout Element.Tidy) head headMoments own fun _ => True)
    (hbefore : x.Throughout Element.Tidy → Everywhere Element.Tidy elements)
    (hmake : ∀ a after, x.Throughout Element.Tidy → own a → Everywhere Element.Tidy after →
      (make a after).Throughout Element.Tidy)
    (hafter : ∀ a after, (make a after).Throughout Element.Unmarked →
      Everywhere Element.Unmarked after)
    (h : Tracks (Everywhere Element.Tidy elements) action moments (Everywhere Element.Tidy)
      (Everywhere Element.Unmarked)) :
    Tracks (x.Throughout Element.Tidy) (do let a ← head; return make a (← action))
      (followed headMoments head fun _ => moments) (·.Throughout Element.Tidy)
      (·.Throughout Element.Unmarked) := by
  refine hhead.bind fun a => ?_
  rw [bind_pure_comp]
  exact .map (h.mono (fun hx => hbefore hx.1) (fun hx after => hmake a after hx.1 hx.2)
    (hafter a))

theorem tracks_section (steps : List Step) (level : UInt8) (attributes : Attributes)
    (title : Line)
    (h : Tracks (Everywhere Element.Tidy elements) action moments (Everywhere Element.Tidy)
      (Everywhere Element.Unmarked)) :
    Tracks ((Element.sectionBlock level attributes title elements).Throughout Element.Tidy)
      (do
        let (attributes, title) ← applyTitle recording steps attributes title
        return Element.sectionBlock level attributes title (← action))
      (followed (inlineMoments recording steps "section title" title)
        (applyTitle recording steps attributes title) fun _ => moments)
      (·.Throughout Element.Tidy) (·.Throughout Element.Unmarked) := by
  refine tracks_headed (x := .sectionBlock level attributes title elements)
    (fun titled => .sectionBlock level titled.1 titled.2)
    ((tracks_applyTitle steps attributes title).weaken fun hx => hx.2.1 _ List.mem_cons_self)
    (fun hx => hx.2.1 _ (List.mem_cons_of_mem _ List.mem_cons_self)) ?_
    (fun _ _ hx => hx.2.1 _ (List.mem_cons_of_mem _ List.mem_cons_self)) h
  exact fun _ _ hx ⟨hadded, htitle⟩ helements => tidy_section hx hadded htitle helements

theorem tracks_labeledItem (steps : List Step) (level : UInt8) (term : Line)
    (attributes : Attributes)
    (h : Tracks (Everywhere Element.Tidy elements) action moments (Everywhere Element.Tidy)
      (Everywhere Element.Unmarked)) :
    Tracks ((Element.labeledItem level term attributes elements).Throughout Element.Tidy)
      (do
        let term ← applyInline recording steps "labeled list term" term
        return Element.labeledItem level term attributes (← action))
      (followed (inlineMoments recording steps "labeled list term" term)
        (applyInline recording steps "labeled list term" term) fun _ => moments)
      (·.Throughout Element.Tidy) (·.Throughout Element.Unmarked) :=
  tracks_headed (x := .labeledItem level term attributes elements)
    (fun term => .labeledItem level term attributes)
    ((tracks_applyInline steps _ term).weaken fun hx => hx.2.1 _ List.mem_cons_self)
    (fun hx => hx.2.1 _ (List.mem_cons_of_mem _ List.mem_cons_self))
    (fun _ _ => tidy_labeledItem)
    (fun _ _ hx => hx.2.1 _ (List.mem_cons_of_mem _ List.mem_cons_self)) h

end Body

theorem tracks_applyChildren (steps : List Step) (elements : List Element) :
    Tracks (Everywhere Element.Tidy elements) (applyChildren recording steps elements)
      (childrenMoments recording steps elements) (Everywhere Element.Tidy)
      (Everywhere Element.Unmarked) := by
  refine applyChildren.induct
    (fun element => Tracks (element.Throughout Element.Tidy) (applyChild recording steps element)
      (childMoments recording steps element) (·.Throughout Element.Tidy)
      (·.Throughout Element.Unmarked))
    (fun elements => Tracks (Everywhere Element.Tidy elements)
      (applyChildren recording steps elements) (childrenMoments recording steps elements)
      (Everywhere Element.Tidy) (Everywhere Element.Unmarked))
    ?paragraph ?lineBlock ?elementBlock ?sectionBlock ?listItem ?labeledItem ?continued ?leaf ?nil
    ?cons elements
  case paragraph =>
    intro attributes lines
    rw [applyChild, childMoments, bind_pure_comp]
    exact tracks_lines (.paragraph attributes) (fun _ => rfl) (fun _ => rfl) (fun _ => trivial)
      steps _ lines
  case lineBlock =>
    intro kind attributes lines
    rw [applyChild, childMoments, bind_pure_comp]
    exact tracks_lines (.lineBlock kind attributes) (fun _ => rfl) (fun _ => rfl) (fun _ => trivial)
      steps _ lines
  case elementBlock =>
    intro kind attributes elements ih
    rw [applyChild, childMoments, bind_pure_comp]
    exact tracks_contents (.elementBlock kind attributes) (fun _ => rfl) (fun _ => rfl)
      (fun _ => trivial) ih
  case sectionBlock =>
    intro level attributes title elements ih
    rw [applyChild, childMoments]
    exact tracks_section steps level attributes title ih
  case listItem =>
    intro marker attributes elements ih
    rw [applyChild, childMoments, bind_pure_comp]
    exact tracks_contents (.listItem marker attributes) (fun _ => rfl) (fun _ => rfl)
      (fun _ => trivial) ih
  case labeledItem =>
    intro level term attributes elements ih
    rw [applyChild, childMoments]
    exact tracks_labeledItem steps level term attributes ih
  case continued =>
    intro offset element ih
    rw [applyChild, childMoments, bind_pure_comp]
    exact .map (ih.mono id (fun _ _ => id) fun _ => id)
  case leaf =>
    intro element h₁ h₂ h₃ h₄ h₅ h₆ h₇
    rw [applyChild.eq_8 _ _ _ h₁ h₂ h₃ h₄ h₅ h₆ h₇,
      childMoments.eq_8 _ _ _ h₁ h₂ h₃ h₄ h₅ h₆ h₇]
    exact tracks_applyLeaf element
  case nil =>
    rw [applyChildren, childrenMoments]
    exact .pure id
  case cons =>
    intro element rest ih ihrest
    rw [applyChildren, childrenMoments]
    exact ih.cons ihrest

theorem tracks_applyElements (elements : List Element) :
    Tracks (Everywhere Element.Tidy elements) (applyElements recording elements)
      (elementsMoments recording elements) (Everywhere Element.Tidy)
      (Everywhere Element.Unmarked) := by
  refine applyElements.induct
    (fun element => Tracks (element.Throughout Element.Tidy) (applyElement recording element)
      (elementMoments recording element) (·.Throughout Element.Tidy)
      (·.Throughout Element.Unmarked))
    (fun elements => Tracks (Everywhere Element.Tidy elements) (applyElements recording elements)
      (elementsMoments recording elements) (Everywhere Element.Tidy) (Everywhere Element.Unmarked))
    ?paragraph ?lineBlock ?elementBlock ?sectionBlock ?listItem ?labeledItem ?continued ?leaf ?nil
    ?cons elements
  case paragraph =>
    intro attributes lines
    rw [applyElement, elementMoments]
    refine (Tracks.ofExcept _ _).bind fun steps => ?_
    rw [bind_pure_comp]
    refine Tracks.weaken ?_ And.left
    exact tracks_lines (.paragraph attributes) (fun _ => rfl) (fun _ => rfl) (fun _ => trivial)
      steps _ lines
  case lineBlock =>
    intro kind attributes lines
    rw [applyElement, elementMoments]
    refine (Tracks.ofExcept _ _).bind fun steps => ?_
    refine ((tracks_moveAttribution kind attributes lines).weaken fun h => h.1.2.1).bind ?_
    rintro ⟨after, lines'⟩
    dsimp only
    rw [bind_pure_comp]
    refine .map ((tracks_applyLines steps).mono (fun h => h.2.2) ?_ fun _ _ => trivial)
    exact fun h after hafter =>
      ⟨trivial, hafter, fun s hs => h.1.1.2.2 s (h.2.1.mem_sequencesOf hs)⟩
  case elementBlock =>
    intro kind attributes elements
    rw [applyElement, elementMoments]
    refine (Tracks.ofExcept _ _).bind fun steps => ?_
    rw [bind_pure_comp]
    refine Tracks.weaken ?_ And.left
    exact tracks_contents (.elementBlock kind attributes) (fun _ => rfl) (fun _ => rfl)
      (fun _ => trivial) (tracks_applyChildren steps elements)
  case sectionBlock =>
    intro level attributes title elements ih
    rw [applyElement, elementMoments]
    exact tracks_section normalSteps level attributes title ih
  case listItem =>
    intro marker attributes elements ih
    rw [applyElement, elementMoments, bind_pure_comp]
    exact tracks_contents (.listItem marker attributes) (fun _ => rfl) (fun _ => rfl)
      (fun _ => trivial) ih
  case labeledItem =>
    intro level term attributes elements ih
    rw [applyElement, elementMoments]
    exact tracks_labeledItem normalSteps level term attributes ih
  case continued =>
    intro offset element ih
    rw [applyElement, elementMoments, bind_pure_comp]
    exact .map (ih.mono id (fun _ _ => id) fun _ => id)
  case leaf =>
    intro element h₁ h₂ h₃ h₄ h₅ h₆ h₇
    rw [applyElement.eq_8 _ _ h₁ h₂ h₃ h₄ h₅ h₆ h₇,
      elementMoments.eq_8 _ _ h₁ h₂ h₃ h₄ h₅ h₆ h₇]
    exact tracks_applyLeaf element
  case nil =>
    rw [applyElements, elementsMoments]
    exact .pure id
  case cons =>
    intro element rest ih ihrest
    rw [applyElements, elementsMoments]
    exact ih.cons ihrest

end Pass

end Manuscript
