import Manuscript.Element.Encode
import Manuscript.Element.Decode
import Manuscript.Fault

namespace Manuscript

structure Document where
  frontMatter : Option Attributes
  elements : List Element

structure Draft where
  attributes : Attributes
  frontMatter : Option Attributes
  elements : List Element
  notes : List Note
  warnings : List Warning

def frontMatterJson (content : Attributes) : Json :=
  .obj [("content", attributesJson content)]

def frontMatter? (j : Json) : Option Attributes := do
  match ← Json.object? j with
  | fields => Json.withDefault fields "content" ∅ attributes?

namespace Document

def toJson (document : Document) : Json :=
  .obj (Json.field? "front_matter" frontMatterJson document.frontMatter ++
    [("elements", .arr (elementsJson document.elements))])

def ofJson? (j : Json) : Option Document := do
  let fields ← Json.object? j
  return ⟨← Json.optional fields "front_matter" frontMatter?,
    ← Json.withDefault fields "elements" [] sequence?⟩

end Document

def Warning.toJson : Warning → Json
  | missingAttribute name => .obj [("kind", .str "missing_attribute"), ("name", .str name)]
  | missingFootnote reference =>
      .obj [("kind", .str "missing_footnote"), ("reference", .str reference)]

def Draft.toJson (draft : Draft) : Json :=
  .obj (("attributes", attributesJson draft.attributes) ::
    (Json.field? "front_matter" frontMatterJson draft.frontMatter ++
      [("elements", .arr (elementsJson draft.elements)),
        ("footnotes", .arr (draft.notes.map Note.toJson)),
        ("warnings", .arr (draft.warnings.map Warning.toJson))]))

end Manuscript
