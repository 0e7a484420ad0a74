import Manuscript.Markup.Macro
import Manuscript.Proofs.Grammar.Rules

namespace Manuscript.Peg

abbrev Tree := Pair Name

namespace Pair

def name : Tree → Name
  | node name .. => name

def offset : Tree → Nat
  | node _ offset .. => offset

def text : Tree → List Char
  | node _ _ text _ => text

def inner : Tree → List Tree
  | node _ _ _ inner => inner

def string (pair : Tree) : String := String.ofList pair.text

end Pair

inductive Failure where
  | unmatched
  | noPair
  | unexpected (pair : Tree)
  | number (cause : Cause)

def firstInner (pair : Tree) : Except Failure Tree :=
  match pair.inner with
  | [] => .error (.unexpected pair)
  | first :: _ => .ok first

def numbered (make : UInt32 → Element) (outOfRange : String → Nat → Cause) (pair : Tree) :
    Except Failure (List Element) := do
  let digits := (← firstInner pair).text
  if Glyph.inRange digits then return [make (Glyph.reference digits)]
  else throw (.number (outOfRange (String.ofList digits) pair.offset))

def passthroughOf (shield : Shield) (inner : List Tree) : Element :=
  .passthrough shield (fragment (String.ofList ((inner.head?.map Pair.text).getD [])))

def crossReferenceOf (inner : List Tree) : Element :=
  let parts := inner.foldl (fun parts pair =>
    match pair.name with
    | .crossReferenceId => (pair.string, parts.2)
    | _ => (parts.1, some (Text.trim pair.string))) ("", none)
  .crossReference parts.1 parts.2

def counterOf (inner : List Tree) : Element :=
  .counter (inner.foldl (fun use pair =>
    match pair.name with
    | .counterKind => { use with hidden := pair.string = "counter2" }
    | .attributeName => { use with name := pair.string }
    | _ => { use with pinned := some (Count.parse pair.string) }) ⟨"", false, none⟩)

def hiddenIndexTermOf (inner : List Tree) : Element :=
  let terms := inner.map fun pair => Text.trim pair.string
  .hiddenIndexTerm (terms.head?.getD "") terms[1]? terms[2]?

def argumentValue (text : List Char) : String :=
  String.ofList (Macro.unquote (Text.trimEnd (Text.trimStart text)))

def namedAttribute (pair : Tree) : Except Failure (String × Value) :=
  let parts := pair.inner.foldl (fun parts part =>
    match part.name with
    | .attributeKey => (some part.string, parts.2)
    | _ => (parts.1, argumentValue part.text)) (none, "")
  match parts.1 with
  | some key => .ok (key, .string parts.2)
  | none => .error (.unexpected pair)

def argumentsOf (names : List String) (position : Nat) (found : Attributes) :
    List Tree → Except Failure Attributes
  | [] => .ok found
  | pair :: rest =>
      match pair.name with
      | .namedAttribute => do
          let named ← namedAttribute pair
          argumentsOf names position (found.insert named.1 named.2) rest
      | .positionalArgument =>
          let value := argumentValue pair.text
          let key := names[position]?.getD ("positional-" ++ toString (position + 1))
          argumentsOf names (position + 1)
            (if value = "" then found else found.insert key (.string value)) rest
      | _ => .error (.unexpected pair)

def iconOf (icon : String × Attributes) : List Tree → Except Failure (String × Attributes)
  | [] => .ok icon
  | pair :: rest =>
      match pair.name with
      | .iconName => iconOf (pair.string, icon.2) rest
      | .arguments => do
          let attributes ← argumentsOf ["size"] 0 ∅ pair.inner
          iconOf (icon.1, attributes) rest
      | _ => .error (.unexpected pair)

def imageOf (options : Options) (location : Location Element) (attributes : Attributes) : Element :=
  let location :=
    match options.imagesDirectory with
    | some directory => location.below directory
    | none => location
  if attributes.contains "alt" then .image location attributes
  else .image location (attributes.insert "alt" (.string location.stem))

mutual

def build (options : Options) : Tree → Except Failure (List Element)
  | .node name offset text inner =>
      match name with
      | .endOfInput => return []
      | .placeholder =>
          numbered .placeholder .placeholderRange (.node name offset text inner)
      | .word | .plainWord | .anyChar | .hyphenRun | .linkPathText | .pathText | .linkTextChars
      | .labelChars | .footnoteText | .indexTermText | .attributionText =>
          return [.text (String.ofList text)]
      | .escapedQuote | .escapedReference => return [.text (String.ofList (text.drop 1))]
      | .triplePlus => return [passthroughOf .triplePlus inner]
      | .singlePlus => return [passthroughOf .singlePlus inner]
      | .bracketed => return [passthroughOf .bracketed inner]
      | .callout => numbered .callout .calloutRange (.node name offset text inner)
      | .special => return [.special (String.ofList text)]
      | .crossReference => return [crossReferenceOf inner]
      | .quotedText =>
          match quotedTextOf options (∅, none) inner with
          | (attributes, some body) => do
              let body ← body
              return [.quoted body.1 attributes body.2]
          | (_, none) => throw (.unexpected (.node name offset text inner))
      | .quotation mark => do return [.quotation mark (merge (← buildAll options inner))]
      | .attributeReference => do
          let name ← firstInner (.node name offset text inner)
          return [.attributeReference name.string]
      | .counter => return [counterOf inner]
      | .sign _ | .emDash | .apostrophe => return [.symbol (String.ofList text)]
      | .replacementWord => buildAll options inner
      | .bareLink | .link => do
          let link ← linkOf options (⟨"", []⟩, ∅) inner
          return [.link link.1 link.2]
      | .image => do
          let image ← imagePartsOf options (⟨"", []⟩, ∅) inner
          return [imageOf options image.1 image.2]
      | .icon => do
          let icon ← iconOf ("", ∅) inner
          return [.icon icon.1 icon.2]
      | .documentReference => do
          let reference ← documentReferenceOf options (⟨"", []⟩, []) inner
          return [.documentReference reference.1 reference.2]
      | .footnote => do
          let note ← footnoteOf options (none, []) inner
          return [.footnote note.1 note.2]
      | .indexTerm =>
          match inner with
          | [] => throw (.unexpected (.node name offset text inner))
          | .node _ _ _ term :: _ => do return [.indexTerm (merge (← buildAll options term))]
      | .hiddenIndexTerm => return [hiddenIndexTermOf inner]
      | .lineBreak => return [.lineBreak]
      | _ => throw (.unexpected (.node name offset text inner))

def buildAll (options : Options) : List Tree → Except Failure (List Element)
  | [] => return []
  | pair :: rest => do return (← build options pair) ++ (← buildAll options rest)

def quotedTextOf (options : Options)
    (found : Attributes × Option (Except Failure (Style × List Element))) :
    List Tree → Attributes × Option (Except Failure (Style × List Element))
  | [] => found
  | .node name offset text inner :: rest =>
      match name with
      | .roles =>
          quotedTextOf options (found.1.insert "role" (.roles (inner.map Pair.string)), found.2) rest
      | _ =>
          quotedTextOf options
            (found.1, some (quotedBodyOf options (.node name offset text inner))) rest

def quotedBodyOf (options : Options) : Tree → Except Failure (Style × List Element)
  | .node name offset text inner =>
      match name with
      | .unconstrained m | .constrained m => do
          return (m.style, merge (← buildAll options inner))
      | .script s => do
          let content ← firstInner (.node name offset text inner)
          return (s.style, [.text content.string])
      | _ => throw (.unexpected (.node name offset text inner))

def linkOf (options : Options) (link : Location Element × Attributes) :
    List Tree → Except Failure (Location Element × Attributes)
  | [] => return link
  | .node name offset text inner :: rest =>
      match name with
      | .linkScheme => linkOf options ({ link.1 with scheme := String.ofList text }, link.2) rest
      | .linkPath | .path => do
          let path := merge (← buildAll options inner)
          linkOf options ({ link.1 with path }, link.2) rest
      | .linkAttributes => do
          let attributes ← linkAttributesOf options ∅ inner
          linkOf options (link.1, attributes) rest
      | _ => throw (.unexpected (.node name offset text inner))

def linkAttributesOf (options : Options) (found : Attributes) :
    List Tree → Except Failure Attributes
  | [] => return found
  | .node name offset text inner :: rest =>
      match name with
      | .linkText | .label => do
          let content := merge (← buildAll options inner)
          linkAttributesOf options (found.insert Macro.linkTextName (.elements content)) rest
      | .namedAttribute => do
          let named ← namedAttribute (.node name offset text inner)
          linkAttributesOf options (found.insert named.1 named.2) rest
      | _ => throw (.unexpected (.node name offset text inner))

def imagePartsOf (options : Options) (image : Location Element × Attributes) :
    List Tree → Except Failure (Location Element × Attributes)
  | [] => return image
  | .node name offset text inner :: rest =>
      match name with
      | .path => do
          let path := merge (← buildAll options inner)
          imagePartsOf options ({ image.1 with path }, image.2) rest
      | .arguments => do
          let attributes ← argumentsOf ["alt", "width", "height"] 0 ∅ inner
          imagePartsOf options (image.1, attributes) rest
      | _ => throw (.unexpected (.node name offset text inner))

def documentReferenceOf (options : Options) (reference : Location Element × List Element) :
    List Tree → Except Failure (Location Element × List Element)
  | [] => return reference
  | .node name offset text inner :: rest =>
      match name with
      | .path => do
          let path := merge (← buildAll options inner)
          documentReferenceOf options ({ reference.1 with path }, reference.2) rest
      | .label => do
          let label := merge (← buildAll options inner)
          documentReferenceOf options (reference.1, label) rest
      | _ => throw (.unexpected (.node name offset text inner))

def footnoteOf (options : Options) (note : Option String × List Element) :
    List Tree → Except Failure (Option String × List Element)
  | [] => return note
  | .node name offset text inner :: rest =>
      match name with
      | .footnoteName => footnoteOf options (some (String.ofList text), note.2) rest
      | .footnoteContent => do
          let content := merge (← buildAll options inner)
          footnoteOf options (note.1, content) rest
      | _ => throw (.unexpected (.node name offset text inner))

end

inductive Parses (rule : Rule) (options : Options) (text : String) :
    Except Failure (List Element) → Prop
  | unmatched : Run grammar (.call (.entry rule)) ⟨0, text.toList⟩ none →
      Parses rule options text (.error .unmatched)
  | noPair {rest : Cursor} : Run grammar (.call (.entry rule)) ⟨0, text.toList⟩ (some ([], rest)) →
      Parses rule options text (.error .noPair)
  | root {root : Tree} {others : List Tree} {rest : Cursor} :
      Run grammar (.call (.entry rule)) ⟨0, text.toList⟩ (some (root :: others, rest)) →
      Parses rule options text ((buildAll options root.inner).map merge)

end Manuscript.Peg
