import Manuscript.Element.Basic
import Manuscript.Json.Basic

namespace Manuscript

namespace Style

def name : Style → String
  | bold => "bold"
  | italic => "italic"
  | monospace => "monospace"
  | marked => "marked"
  | subscript => "subscript"
  | superscript => "superscript"

end Style

namespace QuoteMark

def name : QuoteMark → String
  | single => "single"
  | double => "double"

end QuoteMark

namespace Shield

def name : Shield → String
  | singlePlus => "single_plus"
  | triplePlus => "triple_plus"
  | bracketed => "macro"

end Shield

open Json (variant field?)

def Count.toJson : Count → Json
  | .number n => variant "number" (.int n.toInt)
  | .character c => variant "character" (.str (String.singleton c))
  | .text s => variant "text" (.str s)

def Author.toJson (author : Author) : Json :=
  .obj (("full_name", .str author.fullName) :: field? "email" .str author.email)

def Revision.toJson (revision : Revision) : Json :=
  .obj [("revnumber", .str revision.number), ("revdate", .str revision.date),
    ("revremark", .str revision.remark)]

def Marker.toJson : Marker → Json
  | .ordered level => variant "ordered" (.obj [("level", .int level.toNat)])
  | .unordered level => variant "unordered" (.obj [("level", .int level.toNat)])
  | .callout reference => variant "callout" (.obj [("reference", .int reference.toNat)])

def named (name : String) : Json :=
  .obj [("name", .str name)]

def schemeField (scheme : String) : List (String × Json) :=
  if scheme = "" then [] else [("scheme", .str scheme)]

def attributesField (attributes : List (String × Json)) : List (String × Json) :=
  if attributes.isEmpty then [] else [("attributes", .obj attributes)]

mutual

def Element.toJson : Element → Json
  | .text s => variant "text" (.str s)
  | .placeholder reference => variant "placeholder" (.int reference.toNat)
  | .special name => variant "special_character" (named name)
  | .symbol name => variant "symbol" (named name)
  | .lineBreak => .str "line_break"
  | .callout reference => variant "callout" (.obj [("reference", .int reference.toNat)])
  | .attributeReference name => variant "attribute_substitution" (named name)
  | .counter use =>
      variant "counter_substitution" (.obj
        (("name", .str use.name) :: ("hidden", .bool use.hidden) ::
          field? "value" Count.toJson use.pinned))
  | .quoted style ⟨attributes⟩ content =>
      variant "quoted_text" (.obj
        (("kind", .str style.name) ::
          (attributesField (entriesJson attributes) ++ [("elements", .arr (elementsJson content))])))
  | .quotation mark content =>
      variant "quoted_string"
        (.obj [("kind", .str mark.name), ("elements", .arr (elementsJson content))])
  | .passthrough shield content =>
      variant "inline_passthrough"
        (.obj [("kind", .str shield.name), ("elements", .arr (elementsJson content))])
  | .link location ⟨attributes⟩ =>
      variant "inline_link" (.obj
        (("location", locationJson location) :: attributesField (entriesJson attributes)))
  | .image location ⟨attributes⟩ =>
      variant "inline_image" (.obj
        (("location", locationJson location) :: attributesField (entriesJson attributes)))
  | .icon name ⟨attributes⟩ =>
      variant "icon" (.obj (("class", .str name) :: attributesField (entriesJson attributes)))
  | .crossReference id label =>
      variant "internal_cross_reference" (.obj (("id", .str id) :: field? "label" .str label))
  | .documentReference location label =>
      variant "external_cross_reference"
        (.obj [("location", locationJson location), ("label", .arr (elementsJson label))])
  | .footnote reference content =>
      variant "footnote" (.obj
        (field? "reference" .str reference ++ [("elements", .arr (elementsJson content))]))
  | .footnoteReference id reference duplicate =>
      variant "footnote_reference" (.obj
        (("id", .int id.toInt) ::
          (field? "reference" .str reference ++ [("duplicate", .bool duplicate)])))
  | .indexTerm term => variant "index_term" (.obj [("term", .arr (elementsJson term))])
  | .hiddenIndexTerm first second third =>
      variant "concealed_index_term" (.obj
        (("term1", .str first) :: (field? "term2" .str second ++ field? "term3" .str third)))
  | .sectionBlock level ⟨attributes⟩ title elements =>
      variant "section" (.obj
        [("level", .int level.toNat), ("attributes", .obj (entriesJson attributes)),
          ("title", .arr (elementsJson title)), ("elements", .arr (elementsJson elements))])
  | .paragraph ⟨attributes⟩ lines =>
      variant "paragraph"
        (.obj [("attributes", .obj (entriesJson attributes)), ("lines", .arr (linesJson lines))])
  | .lineBlock kind ⟨attributes⟩ lines =>
      variant "delimited_block" (.obj
        [("kind", .str kind.name), ("attributes", .obj (entriesJson attributes)),
          ("body", variant "lines" (.arr (linesJson lines)))])
  | .elementBlock kind ⟨attributes⟩ elements =>
      variant "delimited_block" (.obj
        [("kind", .str kind.name), ("attributes", .obj (entriesJson attributes)),
          ("body", variant "elements" (.arr (elementsJson elements)))])
  | .imageBlock location ⟨attributes⟩ =>
      variant "image_block"
        (.obj [("location", locationJson location), ("attributes", .obj (entriesJson attributes))])
  | .listItem marker ⟨attributes⟩ elements =>
      variant "list_item" (.obj
        [("kind", marker.toJson), ("attributes", .obj (entriesJson attributes)),
          ("elements", .arr (elementsJson elements))])
  | .labeledItem level term ⟨attributes⟩ elements =>
      variant "list_item" (.obj
        [("kind", variant "labeled"
            (.obj [("term", .arr (elementsJson term)), ("level", .int level.toNat)])),
          ("attributes", .obj (entriesJson attributes)),
          ("elements", .arr (elementsJson elements))])
  | .continued offset element =>
      variant "continued_list_item_element"
        (.obj [("offset", .int offset.toInt), ("element", element.toJson)])
  | .declaration name value =>
      variant "attribute_declaration" (.obj [("name", .str name), ("value", value.toJson)])
  | .reset name => variant "attribute_reset" (named name)
  | .blankLine => .str "blank_line"
  | .thematicBreak => .str "thematic_break"
  | .comment s => variant "single_line_comment" (.str s)

def Value.toJson : Value → Json
  | .nil => .str "nil"
  | .string s => variant "string" (.str s)
  | .bool b => variant "bool" (.bool b)
  | .elements content => variant "elements" (.arr (elementsJson content))
  | .roles names => variant "roles" (.arr (names.map .str))
  | .authors people => variant "authors" (.arr (people.map Author.toJson))
  | .revision r => variant "revision" r.toJson

def elementsJson : List Element → List Json
  | [] => []
  | element :: rest => element.toJson :: elementsJson rest

def linesJson : List (List Element) → List Json
  | [] => []
  | line :: rest => .arr (elementsJson line) :: linesJson rest

def entriesJson : List (String × Value) → List (String × Json)
  | [] => []
  | (name, value) :: rest => (name, value.toJson) :: entriesJson rest

def locationJson : Location Element → Json
  | ⟨scheme, path⟩ => .obj (schemeField scheme ++ [("path", .arr (elementsJson path))])

end

def attributesJson (attributes : Attributes) : Json :=
  .obj (entriesJson attributes.entries)

def Note.toJson (note : Note) : Json :=
  .obj (Json.field? "reference" .str note.reference ++
    [("elements", .arr (elementsJson note.content))])

end Manuscript
