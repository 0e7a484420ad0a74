import Manuscript.Element.Encode
import Manuscript.Json.Scalar

namespace Manuscript

open Json (soleField str? bool? uint8? uint32? int32? int64? char? list? object? required optional
  withDefault)

def Style.all : List Style := [.bold, .italic, .monospace, .marked, .subscript, .superscript]

def QuoteMark.all : List QuoteMark := [.single, .double]

def Shield.all : List Shield := [.singlePlus, .triplePlus, .bracketed]

def unit? : Json → Option String
  | .str name => some name
  | .obj [(name, .null)] => some name
  | _ => none

def oneOf {α : Type} (name : α → String) (all : List α) (j : Json) : Option α := do
  let s ← unit? j
  all.find? (name · == s)

def Style.ofJson? : Json → Option Style := oneOf Style.name Style.all

def QuoteMark.ofJson? : Json → Option QuoteMark := oneOf QuoteMark.name QuoteMark.all

def Shield.ofJson? : Json → Option Shield := oneOf Shield.name Shield.all

def BlockKind.ofJson? : Json → Option BlockKind := oneOf BlockKind.name BlockKind.all

def Count.ofJson? : Json → Option Count
  | .obj [("number", j)] => (int64? j).map .number
  | .obj [("character", j)] => (char? j).map .character
  | .obj [("text", j)] => (str? j).map .text
  | _ => none

def Author.ofJson? (j : Json) : Option Author := do
  let fields ← object? j
  return ⟨← required fields "full_name" str?, ← optional fields "email" str?⟩

def Revision.ofJson? (j : Json) : Option Revision := do
  let fields ← object? j
  return ⟨← withDefault fields "revnumber" "" str?, ← withDefault fields "revdate" "" str?,
    ← withDefault fields "revremark" "" str?⟩

def Marker.ofJson? : Json → Option Marker
  | .obj [("ordered", .obj fields)] => (required fields "level" uint8?).map .ordered
  | .obj [("unordered", .obj fields)] => (required fields "level" uint8?).map .unordered
  | .obj [("callout", .obj fields)] => (required fields "reference" uint32?).map .callout
  | _ => none

def labeled? : (j : Json) → Option { parts : List (String × Json) // sizeOf parts < sizeOf j }
  | .obj [("labeled", .obj parts)] => some ⟨parts, by simp; omega⟩
  | _ => none

def named? : (j : Json) → Option { part : String × List Json // sizeOf part.2 < sizeOf j }
  | .obj [(name, .arr items)] => some ⟨(name, items), by simp; omega⟩
  | _ => none

def leaf? (name : String) (payload : Json) : Option Element :=
  match name, payload with
  | "text", j => (str? j).map .text
  | "placeholder", j => (uint32? j).map .placeholder
  | "special_character", .obj fields => (required fields "name" str?).map .special
  | "symbol", .obj fields => (required fields "name" str?).map .symbol
  | "line_break", .null => some .lineBreak
  | "callout", .obj fields => (required fields "reference" uint32?).map .callout
  | "attribute_substitution", .obj fields => (required fields "name" str?).map .attributeReference
  | "counter_substitution", .obj fields => do
      return .counter ⟨← required fields "name" str?, ← withDefault fields "hidden" false bool?,
        ← optional fields "value" Count.ofJson?⟩
  | "internal_cross_reference", .obj fields => do
      return .crossReference (← required fields "id" str?) (← optional fields "label" str?)
  | "footnote_reference", .obj fields => do
      return .footnoteReference (← required fields "id" int32?)
        (← optional fields "reference" str?) (← withDefault fields "duplicate" false bool?)
  | "concealed_index_term", .obj fields => do
      return .hiddenIndexTerm (← required fields "term1" str?) (← optional fields "term2" str?)
        (← optional fields "term3" str?)
  | "attribute_reset", .obj fields => (required fields "name" str?).map .reset
  | "blank_line", .null => some .blankLine
  | "thematic_break", .null => some .thematicBreak
  | "single_line_comment", j => (str? j).map .comment
  | _, _ => none

def bare? (name : String) : Option Element :=
  match name with
  | "line_break" => some .lineBreak
  | "blank_line" => some .blankLine
  | "thematic_break" => some .thematicBreak
  | _ => none

mutual

def Element.ofJson? : Json → Option Element
  | .str name => bare? name
  | .obj [(name, payload)] =>
      match payload with
      | .obj fields =>
          match container? name fields with
          | some element => some element
          | none => leaf? name (.obj fields)
      | j => leaf? name j
  | _ => none
termination_by j => sizeOf j

def container? (name : String) (fields : List (String × Json)) : Option Element :=
  match name with
  | "continued_list_item_element" =>
      match soleField "element" fields with
      | some (some ⟨j, _⟩) => do
          return .continued (← required fields "offset" int32?) (← Element.ofJson? j)
      | _ => none
  | "attribute_declaration" =>
      match soleField "value" fields with
      | some (some ⟨j, _⟩) => do
          return .declaration (← required fields "name" str?) (← Value.ofJson? j)
      | _ => none
  | _ => (phrase? name fields).or (block? name fields)
termination_by sizeOf fields + 2

def phrase? (name : String) (fields : List (String × Json)) : Option Element :=
  match name with
  | "quoted_text" => do
      return .quoted (← required fields "kind" Style.ofJson?) (← attributesIn? fields)
        (← sequenceIn? "elements" fields)
  | "quoted_string" => do
      return .quotation (← required fields "kind" QuoteMark.ofJson?)
        (← sequenceIn? "elements" fields)
  | "inline_passthrough" => do
      return .passthrough (← required fields "kind" Shield.ofJson?)
        (← sequenceIn? "elements" fields)
  | "inline_link" => do return .link (← locationIn? fields) (← attributesIn? fields)
  | "inline_image" => do return .image (← locationIn? fields) (← attributesIn? fields)
  | "icon" => do return .icon (← required fields "class" str?) (← attributesIn? fields)
  | "external_cross_reference" => do
      return .documentReference (← locationIn? fields) (← sequenceOrEmptyIn? "label" fields)
  | "footnote" => do
      return .footnote (← optional fields "reference" str?)
        (← sequenceOrEmptyIn? "elements" fields)
  | "index_term" => do return .indexTerm (← sequenceIn? "term" fields)
  | _ => none
termination_by sizeOf fields + 1

def block? (name : String) (fields : List (String × Json)) : Option Element :=
  match name with
  | "section" => do
      return .sectionBlock (← required fields "level" uint8?) (← attributesIn? fields)
        (← sequenceIn? "title" fields) (← sequenceOrEmptyIn? "elements" fields)
  | "paragraph" => do return .paragraph (← attributesIn? fields) (← linesIn? fields)
  | "delimited_block" => do
      blockIn? (← required fields "kind" BlockKind.ofJson?) (← attributesIn? fields) fields
  | "image_block" => do return .imageBlock (← locationIn? fields) (← attributesIn? fields)
  | "list_item" => do
      itemIn? (← attributesIn? fields) (← sequenceIn? "elements" fields) fields
  | _ => none
termination_by sizeOf fields + 1

def sequenceIn? (name : String) (fields : List (String × Json)) : Option (List Element) :=
  match soleField name fields with
  | some (some ⟨.arr items, _⟩) => elements? items
  | _ => none
termination_by sizeOf fields
decreasing_by all_goals (simp_all; omega)

def sequenceOrEmptyIn? (name : String) (fields : List (String × Json)) : Option (List Element) :=
  match soleField name fields with
  | some none => some []
  | some (some ⟨.arr items, _⟩) => elements? items
  | _ => none
termination_by sizeOf fields
decreasing_by all_goals (simp_all; omega)

def linesIn? (fields : List (String × Json)) : Option (List Line) :=
  match soleField "lines" fields with
  | some (some ⟨.arr items, _⟩) => lines? items
  | _ => none
termination_by sizeOf fields
decreasing_by all_goals (simp_all; omega)

def attributesIn? (fields : List (String × Json)) : Option Attributes :=
  match soleField "attributes" fields with
  | some none => some ∅
  | some (some ⟨.obj entries, _⟩) => (entries? entries).map Dict.ofList
  | _ => none
termination_by sizeOf fields
decreasing_by all_goals (simp_all; omega)

def locationIn? (fields : List (String × Json)) : Option (Location Element) :=
  match soleField "location" fields with
  | some (some ⟨.obj parts, _⟩) => do
      return ⟨← withDefault parts "scheme" "" str?, ← sequenceIn? "path" parts⟩
  | _ => none
termination_by sizeOf fields
decreasing_by all_goals (simp_all; omega)

def blockIn? (kind : BlockKind) (attributes : Attributes) (fields : List (String × Json)) :
    Option Element :=
  match soleField "body" fields with
  | some (some ⟨j, _⟩) =>
      match named? j with
      | none => none
      | some ⟨(name, items), _⟩ =>
          if name = "lines" then (lines? items).map (.lineBlock kind attributes)
          else if name = "elements" then (elements? items).map (.elementBlock kind attributes)
          else none
  | _ => none
termination_by sizeOf fields
decreasing_by all_goals (simp_all; omega)

def itemIn? (attributes : Attributes) (elements : List Element) (fields : List (String × Json)) :
    Option Element :=
  match soleField "kind" fields with
  | some (some ⟨j, _⟩) =>
      match labeled? j with
      | some ⟨parts, _⟩ => do
          return .labeledItem (← required parts "level" uint8?) (← sequenceIn? "term" parts)
            attributes elements
      | none => (Marker.ofJson? j).map (.listItem · attributes elements)
  | _ => none
termination_by sizeOf fields
decreasing_by all_goals omega

def Value.ofJson? : Json → Option Value
  | .str "nil" => some .nil
  | .obj [("nil", .null)] => some .nil
  | .obj [("string", j)] => (str? j).map .string
  | .obj [("bool", j)] => (bool? j).map .bool
  | .obj [("elements", .arr items)] => (elements? items).map .elements
  | .obj [("roles", j)] => (list? str? j).map .roles
  | .obj [("authors", j)] => (list? Author.ofJson? j).map .authors
  | .obj [("revision", j)] => (Revision.ofJson? j).map .revision
  | _ => none
termination_by j => sizeOf j

def elements? : List Json → Option (List Element)
  | [] => some []
  | j :: rest => do return (← Element.ofJson? j) :: (← elements? rest)
termination_by items => sizeOf items

def lines? : List Json → Option (List Line)
  | [] => some []
  | .arr items :: rest => do return (← elements? items) :: (← lines? rest)
  | _ :: _ => none
termination_by items => sizeOf items

def entries? : List (String × Json) → Option (List (String × Value))
  | [] => some []
  | (name, j) :: rest => do return (name, ← Value.ofJson? j) :: (← entries? rest)
termination_by entries => sizeOf entries

end

def sequence? : Json → Option (List Element)
  | .arr items => elements? items
  | _ => none

def lineList? : Json → Option (List Line)
  | .arr items => lines? items
  | _ => none

def attributes? : Json → Option Attributes
  | .obj entries => (entries? entries).map Dict.ofList
  | _ => none

end Manuscript
