import Manuscript.Element.Basic

namespace Manuscript

def sequencesOf : List (String × Value) → List (List Element)
  | [] => []
  | (_, .elements content) :: rest => content :: sequencesOf rest
  | _ :: rest => sequencesOf rest

def withSequences : List (String × Value) → List (List Element) → List (String × Value)
  | [], _ => []
  | (name, .elements _) :: rest, s :: ss => (name, .elements s) :: withSequences rest ss
  | entry :: rest, ss => entry :: withSequences rest ss

namespace Element

def children : Element → List (List Element)
  | .quoted _ attributes content => content :: sequencesOf attributes.entries
  | .quotation _ content => [content]
  | .passthrough _ content => [content]
  | .link location attributes => location.path :: sequencesOf attributes.entries
  | .image location attributes => location.path :: sequencesOf attributes.entries
  | .icon _ attributes => sequencesOf attributes.entries
  | .documentReference location label => [location.path, label]
  | .footnote _ content => [content]
  | .indexTerm term => [term]
  | .sectionBlock _ _ title elements => [title, elements]
  | .paragraph _ lines => lines
  | .lineBlock _ _ lines => lines
  | .elementBlock _ _ elements => [elements]
  | .imageBlock location _ => [location.path]
  | .listItem _ _ elements => [elements]
  | .labeledItem _ term _ elements => [term, elements]
  | .continued _ element => element.children
  | _ => []

def withChildren : Element → List (List Element) → Element
  | .quoted style attributes _, content :: rest =>
      .quoted style ⟨withSequences attributes.entries rest⟩ content
  | .quotation mark _, [content] => .quotation mark content
  | .passthrough shield _, [content] => .passthrough shield content
  | .link location attributes, path :: rest =>
      .link { location with path } ⟨withSequences attributes.entries rest⟩
  | .image location attributes, path :: rest =>
      .image { location with path } ⟨withSequences attributes.entries rest⟩
  | .icon name attributes, rest => .icon name ⟨withSequences attributes.entries rest⟩
  | .documentReference location _, [path, label] =>
      .documentReference { location with path } label
  | .footnote reference _, [content] => .footnote reference content
  | .indexTerm _, [term] => .indexTerm term
  | .sectionBlock level attributes _ _, [title, elements] =>
      .sectionBlock level attributes title elements
  | .paragraph attributes _, lines => .paragraph attributes lines
  | .lineBlock kind attributes _, lines => .lineBlock kind attributes lines
  | .elementBlock kind attributes _, [elements] => .elementBlock kind attributes elements
  | .imageBlock location attributes, [path] => .imageBlock { location with path } attributes
  | .listItem marker attributes _, [elements] => .listItem marker attributes elements
  | .labeledItem level _ attributes _, [term, elements] =>
      .labeledItem level term attributes elements
  | .continued offset element, sequences => .continued offset (element.withChildren sequences)
  | element, _ => element

def mapChildrenM {m : Type → Type} [Monad m] (f : List Element → m (List Element))
    (element : Element) : m Element :=
  element.withChildren <$> element.children.mapM f

end Element

theorem withSequences_sequencesOf (entries : List (String × Value)) :
    withSequences entries (sequencesOf entries) = entries := by
  induction entries with
  | nil => rfl
  | cons entry rest ih =>
    obtain ⟨name, value⟩ := entry
    cases value <;> simp [withSequences, sequencesOf, ih]

theorem sequencesOf_withSequences {entries : List (String × Value)} {ss : List (List Element)}
    (h : ss.length = (sequencesOf entries).length) :
    sequencesOf (withSequences entries ss) = ss := by
  induction entries generalizing ss with
  | nil => simpa [withSequences, sequencesOf, eq_comm] using h
  | cons entry rest ih =>
    obtain ⟨name, value⟩ := entry
    cases value
    case elements =>
      cases ss with
      | nil => simp [sequencesOf] at h
      | cons s ss =>
        simp only [sequencesOf, List.length_cons, Nat.add_right_cancel_iff] at h
        simp [withSequences, sequencesOf, ih h]
    all_goals
      simp only [sequencesOf] at h
      simp [withSequences, sequencesOf, ih h]

theorem withSequences_withSequences {entries : List (String × Value)} {ss ts : List (List Element)}
    (h : ss.length = (sequencesOf entries).length) (h' : ts.length = (sequencesOf entries).length) :
    withSequences (withSequences entries ss) ts = withSequences entries ts := by
  induction entries generalizing ss ts with
  | nil => rfl
  | cons entry rest ih =>
    obtain ⟨n, value⟩ := entry
    cases value
    case elements content =>
      obtain ⟨s, ss, rfl⟩ := List.exists_cons_of_length_eq_add_one h
      obtain ⟨t, ts, rfl⟩ := List.exists_cons_of_length_eq_add_one h'
      simp [withSequences, ih (Nat.succ.inj h) (Nat.succ.inj h')]
    all_goals simp [withSequences, ih h h']

theorem sizeOf_lt_of_mem_sequencesOf {entries : List (String × Value)} {s : List Element}
    (h : s ∈ sequencesOf entries) : sizeOf s < sizeOf entries := by
  induction entries with
  | nil => simp [sequencesOf] at h
  | cons entry rest ih =>
    obtain ⟨name, value⟩ := entry
    cases value
    case elements content =>
      simp only [sequencesOf, List.mem_cons] at h
      rcases h with rfl | h
      · simp; omega
      · have := ih h; simp; omega
    all_goals
      simp only [sequencesOf] at h
      have := ih h
      simp; omega

namespace Element

theorem withChildren_children (element : Element) :
    element.withChildren element.children = element := by
  induction element using Element.children.induct <;>
    simp_all [children, withChildren, withSequences_sequencesOf]

theorem children_withChildren {element : Element} {sequences : List (List Element)}
    (h : sequences.length = element.children.length) :
    (element.withChildren sequences).children = sequences := by
  fun_induction children element generalizing sequences
  case case18 element _ _ _ _ _ _ _ _ _ _ _ _ _ _ _ _ _ =>
    obtain rfl := List.length_eq_zero_iff.mp h
    cases element <;> first | rfl | grind
  case case17 ih => exact ih h
  case case11 => rfl
  case case12 => rfl
  case case6 => exact sequencesOf_withSequences h
  case case1 | case4 | case5 =>
    obtain ⟨first, rest, rfl⟩ := List.exists_cons_of_length_eq_add_one h
    exact congrArg (first :: ·) (sequencesOf_withSequences (Nat.succ.inj h))
  case case7 | case10 | case16 =>
    obtain ⟨first, rest, rfl⟩ := List.exists_cons_of_length_eq_add_one h
    obtain ⟨second, rfl⟩ := List.length_eq_one_iff.mp (Nat.succ.inj h)
    rfl
  all_goals
    obtain ⟨only, rfl⟩ := List.length_eq_one_iff.mp h
    rfl

theorem withChildren_withChildren {x : Element} {ss ts : List (List Element)}
    (h : ss.length = x.children.length) (h' : ts.length = x.children.length) :
    (x.withChildren ss).withChildren ts = x.withChildren ts := by
  fun_induction children x generalizing ss ts
  case case18 element _ _ _ _ _ _ _ _ _ _ _ _ _ _ _ _ _ =>
    obtain rfl := List.length_eq_zero_iff.mp h
    obtain rfl := List.length_eq_zero_iff.mp h'
    cases element <;> first | rfl | grind
  case case17 offset element ih => exact congrArg (continued offset) (ih h h')
  case case11 => rfl
  case case12 => rfl
  case case6 =>
    simp only [withChildren]
    rw [withSequences_withSequences h h']
  case case1 | case4 | case5 =>
    obtain ⟨first, rest, rfl⟩ := List.exists_cons_of_length_eq_add_one h
    obtain ⟨first', rest', rfl⟩ := List.exists_cons_of_length_eq_add_one h'
    simp only [withChildren]
    rw [withSequences_withSequences (Nat.succ.inj h) (Nat.succ.inj h')]
  case case7 | case10 | case16 =>
    obtain ⟨first, rest, rfl⟩ := List.exists_cons_of_length_eq_add_one h
    obtain ⟨second, rfl⟩ := List.length_eq_one_iff.mp (Nat.succ.inj h)
    obtain ⟨first', rest', rfl⟩ := List.exists_cons_of_length_eq_add_one h'
    obtain ⟨second', rfl⟩ := List.length_eq_one_iff.mp (Nat.succ.inj h')
    rfl
  all_goals
    obtain ⟨only, rfl⟩ := List.length_eq_one_iff.mp h
    obtain ⟨only', rfl⟩ := List.length_eq_one_iff.mp h'
    rfl

theorem sizeOf_lt_of_mem_children {element : Element} {s : List Element}
    (h : s ∈ element.children) : sizeOf s < sizeOf element := by
  have attrs {attributes : Dict Value} (h : s ∈ sequencesOf attributes.entries) :
      sizeOf s < sizeOf attributes := by
    obtain ⟨entries⟩ := attributes
    have : sizeOf s < sizeOf entries := sizeOf_lt_of_mem_sequencesOf h
    simp only [Dict.mk.sizeOf_spec]
    omega
  have path {location : Location Element} (h : s = location.path) :
      sizeOf s < sizeOf location := by
    obtain ⟨scheme, path⟩ := location
    subst h
    simp only [Location.mk.sizeOf_spec]
    omega
  have lines {ls : List (List Element)} (h : s ∈ ls) := List.sizeOf_lt_of_mem h
  fun_induction children element <;> (try simp only [List.mem_cons, List.not_mem_nil, or_false] at h) <;>
    grind

end Element

end Manuscript
