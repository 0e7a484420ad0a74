import Manuscript.Document.Basic
import Manuscript.Proofs.Dict
import Manuscript.Proofs.Encoding.Field
import Manuscript.Proofs.Everywhere

namespace Manuscript

open Json

namespace Element

def attributes? : Element → Option Attributes
  | .quoted _ attributes _ => some attributes
  | .link _ attributes => some attributes
  | .image _ attributes => some attributes
  | .icon _ attributes => some attributes
  | .sectionBlock _ attributes _ _ => some attributes
  | .paragraph attributes _ => some attributes
  | .lineBlock _ attributes _ => some attributes
  | .elementBlock _ attributes _ => some attributes
  | .imageBlock _ attributes => some attributes
  | .listItem _ attributes _ => some attributes
  | .labeledItem _ _ attributes _ => some attributes
  | .continued _ element => element.attributes?
  | _ => none

def Sorted (element : Element) : Prop :=
  ∀ attributes ∈ element.attributes?, attributes.Ordered

end Element

def Dict.Sorted (attributes : Attributes) : Prop :=
  attributes.Ordered ∧ ∀ s ∈ sequencesOf attributes.entries, Everywhere Element.Sorted s

def Document.Sorted (document : Document) : Prop :=
  (∀ content ∈ document.frontMatter, content.Sorted) ∧
    Everywhere Element.Sorted document.elements

def location? : Json → Option (Location Element)
  | .obj parts => do return ⟨← withDefault parts "scheme" "" str?, ← sequenceIn? "path" parts⟩
  | _ => none

section Readers

variable {name : String} {fields : List (String × Json)} {entries : List (String × Value)}
  {x : Element}

theorem sequenceIn?_eq (name : String) (fields : List (String × Json)) :
    sequenceIn? name fields = (lookup name fields).join.bind sequence? := by
  rw [sequenceIn?, lookup]
  rcases soleField name fields with - | - | ⟨j, hj⟩
  · rfl
  · rfl
  · cases j <;> rfl

theorem sequenceOrEmptyIn?_eq (name : String) (fields : List (String × Json)) :
    sequenceOrEmptyIn? name fields =
      (lookup name fields).bind fun found => found.elim (some []) sequence? := by
  rw [sequenceOrEmptyIn?, lookup]
  rcases soleField name fields with - | - | ⟨j, hj⟩
  · rfl
  · rfl
  · cases j <;> rfl

theorem linesIn?_eq (fields : List (String × Json)) :
    linesIn? fields = (lookup "lines" fields).join.bind lineList? := by
  rw [linesIn?, lookup]
  rcases soleField "lines" fields with - | - | ⟨j, hj⟩
  · rfl
  · rfl
  · cases j <;> rfl

theorem attributesIn?_eq (fields : List (String × Json)) :
    attributesIn? fields =
      (lookup "attributes" fields).bind fun found => found.elim (some ∅) attributes? := by
  rw [attributesIn?, lookup]
  rcases soleField "attributes" fields with - | - | ⟨j, hj⟩
  · rfl
  · rfl
  · cases j <;> rfl

@[simp] theorem elim_attributesField (fields : List (String × Json)) :
    ((lookup "attributes" (attributesField fields)).bind fun found =>
      found.elim (some ∅) attributes?) = attributes? (.obj fields) := by
  cases fields with
  | nil => simp [attributesField, attributes?, entries?]; rfl
  | cons entry rest => simp [attributesField]

@[simp] theorem lookup_attributesField (h : name ≠ "attributes") (written : List (String × Json)) :
    lookup name (attributesField written) = some none := by
  unfold attributesField
  split
  · rfl
  · rw [lookup_cons, lookup_nil, if_neg h.symm, exactlyOne_missing]

theorem locationIn?_eq (fields : List (String × Json)) :
    locationIn? fields = (lookup "location" fields).join.bind location? := by
  rw [locationIn?, lookup]
  rcases soleField "location" fields with - | - | ⟨j, hj⟩
  · rfl
  · rfl
  · cases j <;> rfl

theorem location?_locationJson {location : Location Element}
    (hpath : elements? (elementsJson location.path) = some location.path) :
    location? (locationJson location) = some location := by
  obtain ⟨scheme, path⟩ := location
  rw [locationJson]
  by_cases hs : scheme = "" <;>
    simp [location?, schemeField, hs, withDefault_eq, sequenceIn?_eq, str?_str, sequence?, hpath]

theorem ofJson?_container (h : container? name fields = some x) :
    Element.ofJson? (variant name (.obj fields)) = some x := by
  rw [variant, Element.ofJson?, h]

theorem ofJson?_fields (h : container? name fields = none) :
    Element.ofJson? (variant name (.obj fields)) = leaf? name (.obj fields) := by
  rw [variant, Element.ofJson?, h]

theorem ofJson?_scalar {j : Json} (h : ∀ fields, j ≠ .obj fields) :
    Element.ofJson? (variant name j) = leaf? name j := by
  rw [variant, Element.ofJson?.eq_3 _ _ h]

theorem blockIn?_eq (kind : BlockKind) (attributes : Attributes) (fields : List (String × Json)) :
    blockIn? kind attributes fields =
      (lookup "body" fields).join.bind fun j => (named? j).bind fun ⟨(name, items), _⟩ =>
        if name = "lines" then (lines? items).map (.lineBlock kind attributes)
        else if name = "elements" then (elements? items).map (.elementBlock kind attributes)
        else none := by
  rw [blockIn?, lookup]
  rcases soleField "body" fields with - | - | ⟨j, hj⟩
  · rfl
  · rfl
  · simp only [Option.map_some, Option.join_some, Option.bind_some]
    cases named? j <;> rfl

theorem itemIn?_eq (attributes : Attributes) (elements : List Element)
    (fields : List (String × Json)) :
    itemIn? attributes elements fields =
      (lookup "kind" fields).join.bind fun j =>
        match labeled? j with
        | some ⟨parts, _⟩ => do
            return .labeledItem (← required parts "level" uint8?) (← sequenceIn? "term" parts)
              attributes elements
        | none => (Marker.ofJson? j).map (.listItem · attributes elements) := by
  rw [itemIn?, lookup]
  rcases soleField "kind" fields with - | - | ⟨j, hj⟩
  · rfl
  · rfl
  · cases h : labeled? j <;> simp [h]

theorem container?_continued (fields : List (String × Json)) :
    container? "continued_list_item_element" fields = (lookup "element" fields).join.bind fun j => do
      return .continued (← required fields "offset" int32?) (← Element.ofJson? j) := by
  rw [container?, lookup]
  rcases soleField "element" fields with - | - | ⟨j, hj⟩ <;> rfl

theorem container?_declaration (fields : List (String × Json)) :
    container? "attribute_declaration" fields = (lookup "value" fields).join.bind fun j => do
      return .declaration (← required fields "name" str?) (← Value.ofJson? j) := by
  rw [container?, lookup]
  rcases soleField "value" fields with - | - | ⟨j, hj⟩ <;> rfl

theorem labeled?_markerJson (marker : Marker) : labeled? marker.toJson = none := by
  cases marker <;> simp [Marker.toJson, variant, labeled?]

end Readers

abbrev Legible (s : List Element) : Prop := elements? (elementsJson s) = some s

abbrev Dict.Legible (attributes : Attributes) : Prop :=
  attributes? (.obj (entriesJson attributes.entries)) = some attributes

section Parts

variable {entries : List (String × Value)}

theorem legible_of_forall {elements : List Element}
    (h : ∀ x ∈ elements, Element.ofJson? x.toJson = some x) : Legible elements := by
  rw [Legible]
  induction elements with
  | nil => rw [elementsJson, elements?]
  | cons x xs ih =>
    obtain ⟨hx, hxs⟩ := List.forall_mem_cons.mp h
    rw [elementsJson, elements?, hx, ih hxs]
    rfl

theorem lines?_linesJson {lines : List Line} (h : ∀ s ∈ lines, Legible s) :
    lines? (linesJson lines) = some lines := by
  induction lines with
  | nil => rw [linesJson, lines?]
  | cons line rest ih =>
    obtain ⟨hline, hrest⟩ := List.forall_mem_cons.mp h
    rw [linesJson, lines?, hline, ih hrest]
    rfl

theorem Value.ofJson?_toJson {value : Value} (h : ∀ s ∈ value.sequences, Legible s) :
    Value.ofJson? value.toJson = some value := by
  cases value with
  | nil => rw [Value.toJson, Value.ofJson?]
  | string s => simp [Value.toJson, variant, Value.ofJson?, str?_str]
  | bool b => simp [Value.toJson, variant, Value.ofJson?, bool?]
  | elements content =>
    have hcontent : elements? (elementsJson content) = some content :=
      h _ (List.mem_singleton_self _)
    simp [Value.toJson, variant, Value.ofJson?, hcontent]
  | roles names => simp [Value.toJson, variant, Value.ofJson?, list?_map str?_str]
  | authors people => simp [Value.toJson, variant, Value.ofJson?, list?_map Author.ofJson?_toJson]
  | revision r => simp [Value.toJson, variant, Value.ofJson?, Revision.ofJson?_toJson]

theorem entries?_entriesJson (h : ∀ s ∈ sequencesOf entries, Legible s) :
    entries? (entriesJson entries) = some entries := by
  induction entries with
  | nil => rw [entriesJson, entries?]
  | cons entry rest ih =>
    obtain ⟨name, value⟩ := entry
    rw [sequencesOf_eq_flatMap, List.flatMap_cons, List.forall_mem_append,
      ← sequencesOf_eq_flatMap] at h
    rw [entriesJson, entries?, Value.ofJson?_toJson h.1, ih h.2]
    rfl

theorem Dict.legible {attributes : Attributes} (hordered : attributes.Ordered)
    (h : ∀ s ∈ sequencesOf attributes.entries, Manuscript.Legible s) : attributes.Legible := by
  obtain ⟨entries⟩ := attributes
  rw [Dict.Legible, attributes?, entries?_entriesJson h, Option.map_some, hordered.ofList_entries]

end Parts

namespace Element

variable {x : Element}

def Simple : Element → Prop
  | .text _ | .placeholder _ | .comment _ | .lineBreak | .blankLine | .thematicBreak | .special _
  | .symbol _ | .attributeReference _ | .reset _ | .callout _ | .counter _ | .crossReference _ _
  | .footnoteReference _ _ _ | .hiddenIndexTerm _ _ _ => True
  | _ => False

def Phrase : Element → Prop
  | .quoted _ _ _ | .quotation _ _ | .passthrough _ _ | .link _ _ | .image _ _ | .icon _ _
  | .documentReference _ _ | .footnote _ _ | .indexTerm _ => True
  | _ => False

def Displayed : Element → Prop
  | .sectionBlock _ _ _ _ | .paragraph _ _ | .lineBlock _ _ _ | .elementBlock _ _ _
  | .imageBlock _ _ | .listItem _ _ _ | .labeledItem _ _ _ _ => True
  | _ => False

theorem ofJson?_toJson_of_simple (h : x.Simple) : Element.ofJson? x.toJson = some x := by
  cases x with
  | text s | comment s =>
    rw [Element.toJson, ofJson?_scalar (by simp), leaf?, str?_str, Option.map_some]
  | placeholder reference =>
    rw [Element.toJson, ofJson?_scalar (by simp), leaf?, uint32?_toNat, Option.map_some]
  | lineBreak | blankLine | thematicBreak => rw [Element.toJson, Element.ofJson?, bare?]
  | special name | symbol name | attributeReference name | reset name =>
    rw [Element.toJson, named, ofJson?_fields (by simp [container?, phrase?, block?])]
    simp [leaf?, required_eq, str?_str]
  | callout reference =>
    rw [Element.toJson, ofJson?_fields (by simp [container?, phrase?, block?])]
    simp [leaf?, required_eq, uint32?_toNat]
  | counter use =>
    obtain ⟨name, hidden, pinned⟩ := use
    rw [Element.toJson, ofJson?_fields (by simp [container?, phrase?, block?]), leaf?,
      optional_of_lookup pinned (fun count _ => count.ofJson?_toJson) Count.toJson_ne_null (by simp)]
    simp [required_eq, withDefault_eq, str?_str, bool?]
  | crossReference id label =>
    rw [Element.toJson, ofJson?_fields (by simp [container?, phrase?, block?]), leaf?,
      optional_str label (by simp)]
    simp [required_eq, str?_str]
  | footnoteReference id reference duplicate =>
    rw [Element.toJson, ofJson?_fields (by simp [container?, phrase?, block?]), leaf?,
      optional_str reference (by simp)]
    simp [required_eq, withDefault_eq, int32?_toInt, bool?]
  | hiddenIndexTerm first second third =>
    rw [Element.toJson, ofJson?_fields (by simp [container?, phrase?, block?]), leaf?,
      optional_str second (by simp), optional_str third (by simp)]
    simp [required_eq, str?_str]
  | _ => exact h.elim

theorem ofJson?_toJson_of_phrase (h : x.Phrase) (hattributes : ∀ a ∈ x.attributes?, a.Legible)
    (hchildren : ∀ s ∈ x.children, Legible s) : Element.ofJson? x.toJson = some x := by
  cases x with
  | quoted style attributes content =>
    have hcontent := hchildren content List.mem_cons_self
    have hattributes := hattributes attributes rfl
    refine ofJson?_container ?_
    simp [container?, phrase?, required_eq, attributesIn?_eq, sequenceIn?_eq, Style.ofJson?_name, sequence?,
      hcontent, hattributes]
  | quotation mark content =>
    have hcontent := hchildren content List.mem_cons_self
    refine ofJson?_container ?_
    simp [container?, phrase?, required_eq, sequenceIn?_eq, QuoteMark.ofJson?_name, sequence?, hcontent]
  | passthrough shield content =>
    have hcontent := hchildren content List.mem_cons_self
    refine ofJson?_container ?_
    simp [container?, phrase?, required_eq, sequenceIn?_eq, Shield.ofJson?_name, sequence?, hcontent]
  | link location attributes | image location attributes =>
    have hpath := hchildren location.path List.mem_cons_self
    have hattributes := hattributes attributes rfl
    refine ofJson?_container ?_
    simp [container?, phrase?, attributesIn?_eq, locationIn?_eq, location?_locationJson hpath,
      hattributes]
  | icon name attributes =>
    have hattributes := hattributes attributes rfl
    refine ofJson?_container ?_
    simp [container?, phrase?, attributesIn?_eq, required_eq, str?_str, hattributes]
  | documentReference location label =>
    have hpath := hchildren location.path List.mem_cons_self
    have hlabel := hchildren label (by simp [Element.children])
    refine ofJson?_container ?_
    simp [container?, phrase?, locationIn?_eq, sequenceOrEmptyIn?_eq, location?_locationJson hpath, sequence?,
      hlabel]
  | footnote reference content =>
    have hcontent := hchildren content List.mem_cons_self
    refine ofJson?_container ?_
    have hreference : optional (field? "reference" .str reference ++
        [("elements", .arr (elementsJson content))]) "reference" str? = some reference :=
      optional_str reference (by simp)
    simp [container?, phrase?, hreference, sequenceOrEmptyIn?_eq, sequence?, hcontent]
  | indexTerm term =>
    have hterm := hchildren term List.mem_cons_self
    refine ofJson?_container ?_
    simp [container?, phrase?, sequenceIn?_eq, sequence?, hterm]
  | _ => exact h.elim

theorem ofJson?_toJson_of_displayed (h : x.Displayed) (hattributes : ∀ a ∈ x.attributes?, a.Legible)
    (hchildren : ∀ s ∈ x.children, Legible s) : Element.ofJson? x.toJson = some x := by
  cases x with
  | sectionBlock level attributes title elements =>
    have hattributes := hattributes attributes rfl
    have htitle := hchildren title (by simp [Element.children])
    have helements := hchildren elements (by simp [Element.children])
    refine ofJson?_container ?_
    simp [container?, phrase?, block?, required_eq, attributesIn?_eq, sequenceIn?_eq, sequenceOrEmptyIn?_eq,
      uint8?_toNat, sequence?, htitle, helements, hattributes]
  | paragraph attributes lines =>
    have hattributes := hattributes attributes rfl
    have hlines : lines? (linesJson lines) = some lines := lines?_linesJson hchildren
    refine ofJson?_container ?_
    simp [container?, phrase?, block?, attributesIn?_eq, linesIn?_eq, lineList?, hlines, hattributes]
  | lineBlock kind attributes lines =>
    have hattributes := hattributes attributes rfl
    have hlines : lines? (linesJson lines) = some lines := lines?_linesJson hchildren
    refine ofJson?_container ?_
    simp [container?, phrase?, block?, required_eq, attributesIn?_eq, BlockKind.ofJson?_name, hattributes,
      blockIn?_eq, named?, variant, hlines]
  | elementBlock kind attributes elements =>
    have hattributes := hattributes attributes rfl
    have helements := hchildren elements (by simp [Element.children])
    refine ofJson?_container ?_
    simp [container?, phrase?, block?, required_eq, attributesIn?_eq, BlockKind.ofJson?_name, hattributes,
      blockIn?_eq, named?, variant, helements]
  | imageBlock location attributes =>
    have hattributes := hattributes attributes rfl
    have hpath := hchildren location.path (by simp [Element.children])
    refine ofJson?_container ?_
    simp [container?, phrase?, block?, attributesIn?_eq, locationIn?_eq, location?_locationJson hpath, hattributes]
  | listItem marker attributes elements =>
    have hattributes := hattributes attributes rfl
    have helements := hchildren elements (by simp [Element.children])
    refine ofJson?_container ?_
    simp [container?, phrase?, block?, attributesIn?_eq, sequenceIn?_eq, sequence?, helements, hattributes,
      itemIn?_eq, labeled?_markerJson, Marker.ofJson?_toJson]
  | labeledItem level term attributes elements =>
    have hattributes := hattributes attributes rfl
    have hterm := hchildren term (by simp [Element.children])
    have helements := hchildren elements (by simp [Element.children])
    refine ofJson?_container ?_
    simp [container?, phrase?, block?, required_eq, attributesIn?_eq, sequenceIn?_eq, sequence?, helements,
      hattributes, itemIn?_eq, labeled?, variant, uint8?_toNat, hterm]
  | _ => exact h.elim

theorem mem_of_attributes? {attributes : Attributes} (ha : attributes ∈ x.attributes?)
    {s : List Element} (hs : s ∈ sequencesOf attributes.entries) : s ∈ x.children ++ x.held := by
  fun_induction Element.attributes? x <;> simp_all [children, held]

theorem ofJson?_toJson (x : Element) (hsorted : x.Sorted)
    (h : ∀ s ∈ x.children ++ x.held, Legible s) : Element.ofJson? x.toJson = some x := by
  have hattributes : ∀ a ∈ x.attributes?, a.Legible := fun a ha =>
    Dict.legible (hsorted a ha) fun s hs => h s (mem_of_attributes? ha hs)
  have hchildren := (List.forall_mem_append.mp h).1
  cases x
  case continued offset element =>
    have helement := ofJson?_toJson element hsorted h
    refine ofJson?_container ?_
    simp [container?_continued, required_eq, int32?_toInt, helement]
  case declaration name value =>
    have hvalue := Value.ofJson?_toJson h
    refine ofJson?_container ?_
    simp [container?_declaration, required_eq, str?_str, hvalue]
  case quoted | quotation | passthrough | link | image | icon | documentReference | footnote |
      indexTerm =>
    exact ofJson?_toJson_of_phrase trivial hattributes hchildren
  case sectionBlock | paragraph | lineBlock | elementBlock | imageBlock | listItem | labeledItem =>
    exact ofJson?_toJson_of_displayed trivial hattributes hchildren
  all_goals exact ofJson?_toJson_of_simple trivial

end Element

theorem legible_of_everywhere {elements : List Element} (h : Everywhere Element.Sorted elements) :
    Legible elements := by
  induction h with
  | intro hsorted _ ih => exact legible_of_forall fun x hx => x.ofJson?_toJson (hsorted x hx) (ih x hx)

theorem Element.ofJson?_toJson_of_throughout {x : Element} (h : x.Throughout Element.Sorted) :
    Element.ofJson? x.toJson = some x :=
  x.ofJson?_toJson h.1 fun s hs => legible_of_everywhere (List.forall_mem_append.mpr h.2 s hs)

theorem Dict.Sorted.legible {attributes : Attributes} (h : attributes.Sorted) :
    attributes.Legible :=
  Dict.legible h.1 fun s hs => legible_of_everywhere (h.2 s hs)

theorem frontMatter?_frontMatterJson {content : Attributes} (h : content.Sorted) :
    frontMatter? (frontMatterJson content) = some content := by
  simp [frontMatter?, frontMatterJson, attributesJson, object?, withDefault_eq,
    h.legible]

theorem Document.ofJson?_toJson {document : Document} (h : document.Sorted) :
    ofJson? document.toJson = some document := by
  obtain ⟨frontMatter, elements⟩ := document
  have hfront : optional (field? "front_matter" frontMatterJson frontMatter ++
      [("elements", .arr (elementsJson elements))]) "front_matter" frontMatter? = some frontMatter :=
    optional_of_lookup frontMatter (fun content hc => frontMatter?_frontMatterJson (h.1 content hc))
      (fun _ => nofun) (by simp)
  have helements := legible_of_everywhere h.2
  simp [toJson, ofJson?, object?, hfront, withDefault_eq, sequence?, helements]

end Manuscript
