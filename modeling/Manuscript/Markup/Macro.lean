import Manuscript.Location
import Manuscript.Markup.Construct

namespace Manuscript.Macro

open Reader Glyph

def linkScheme : Reader String :=
  firstOf (["https://", "http://", "ftp://", "irc://", "mailto:"].map fun scheme => do
    literal scheme
    return scheme)

def isLinkBracket (c : Char) : Bool :=
  c == '[' || c == ']' || c == '<' || c == '>' || c == '"'

def isPunctuation (c : Char) : Bool :=
  c == '.' || c == ',' || c == ';' || c == ':' || c == '!' || c == '?' || c == ')'

def linkPathEnd : List Glyph → Bool
  | .char c :: rest =>
      isReserved c || Text.isBlank c || isLinkBracket c ||
        (isPunctuation c && (rest.isEmpty || headIs Text.isBlank rest))
  | _ => false

def linkPath : Reader (List Element) := do
  return content (← someUpTo linkPathEnd)

def path : Reader (List Element) := do
  return content (← someUpTo (headIs fun c => isReserved c || c == '[' || Text.isBlank c))

def unquote (cs : List Char) : List Char :=
  match cs with
  | [] => []
  | c :: rest =>
      if (c == '"' || c.toNat == 0x27) && rest.getLast? == some c then rest.dropLast else c :: rest

def argumentText (glyphs : List Glyph) : String :=
  String.ofList (unquote (Text.trimEnd (Text.trimStart (glyphs.flatMap chars))))

def argumentEnd (glyphs : List Glyph) : Bool :=
  atReserved glyphs || headIs (fun c => c == ',' || c == ']') glyphs

def isKeyChar (c : Char) : Bool :=
  c.isAlphanum || c == '_' || c == '-'

def namedArgument : Reader (String × Value) := do
  let key ← someOf isKeyChar
  literal "="
  let value ← upTo argumentEnd
  return (textOf key, .string (argumentText value))

def next {α : Type} (r : Reader α) : Reader α := do
  literal ","
  let _ ← spaces
  r

def linkTextName : String := "positional-1"

def linkText (stop : Char → Bool) : Reader (List Element) := do
  return content (← someUpTo (headIs fun c => isReserved c || stop c))

def onlyNamed : Reader (List (String × Value)) := do
  let first ← namedArgument
  return first :: (← many (next namedArgument))

def textAndNamed : Reader (List (String × Value)) := do
  let text ← linkText fun c => c == ',' || c == ']'
  let first ← next namedArgument
  return (linkTextName, .elements text) :: first :: (← many (next namedArgument))

def wholeLabel : Reader (List Element) :=
  linkText (· == ']')

def onlyText : Reader (List (String × Value)) := do
  return [(linkTextName, .elements (← wholeLabel))]

def linkArguments : Reader (List (String × Value)) := do
  literal "["
  let arguments ← Reader.optional (firstOf [onlyNamed, textAndNamed, onlyText])
  literal "]"
  return arguments.getD []

abbrev Keep := List (String × Value) → Attributes

def bareLink (keep : Keep) : Reader Element := do
  let scheme ← linkScheme
  let path ← linkPath
  let arguments ← Reader.optional linkArguments
  return .link ⟨scheme, path⟩ (keep (arguments.getD []))

def link (keep : Keep) : Reader Element := do
  literal "link:"
  let scheme ← Reader.optional linkScheme
  let path ← path
  return .link ⟨scheme.getD "", path⟩ (keep (← linkArguments))

inductive Argument where
  | named (key : String) (value : Value)
  | positional (value : String)

def argument : Reader Argument :=
  orElse (do let (key, value) ← namedArgument; return .named key value)
    (do return .positional (argumentText (← someUpTo argumentEnd)))

def arguments : Reader (List Argument) := do
  literal "["
  let arguments ← Reader.optional do
    let first ← argument
    return first :: (← many (next argument))
  literal "]"
  return arguments.getD []

def entries (names : List String) (position : Nat) : List Argument → List (String × Value)
  | [] => []
  | .named key value :: rest => (key, value) :: entries names position rest
  | .positional value :: rest =>
      let others := entries (names.drop 1) (position + 1) rest
      if value = "" then others
      else (names.head?.getD ("positional-" ++ toString position), .string value) :: others

def imageAttributes (location : Location Element) (arguments : List Argument) : Attributes :=
  let attributes := Dict.ofList (entries ["alt", "width", "height"] 1 arguments)
  if attributes.contains "alt" then attributes
  else attributes.insert "alt" (.string location.stem)

def image (options : Options) : Reader Element := do
  literal "image:"
  ahead fun glyphs => !headIs (· == ':') glyphs
  let path ← path
  let arguments ← arguments
  let location := Location.below (options.imagesDirectory.getD "") ⟨"", path⟩
  return .image location (imageAttributes location arguments)

def icon : Reader Element := do
  literal "icon:"
  let name ← someUpTo fun glyphs =>
    atReserved glyphs || headIs (fun c => c == '[' || Text.isBlank c) glyphs
  return .icon (textOf name) (Dict.ofList (entries ["size"] 1 (← arguments)))

def documentReference : Reader Element := do
  literal "xref:"
  let path ← path
  literal "["
  let label ← Reader.optional wholeLabel
  literal "]"
  return .documentReference ⟨"", path⟩ (label.getD [])

def token : Reader Element where
  run
    | .token digits :: rest => some (.placeholder (reference digits), rest)
    | _ => none
  suffix h := by
    split at h
    · simp only [Option.some.injEq, Prod.mk.injEq] at h
      exact h.2 ▸ List.suffix_cons _ _
    · exact nomatch h

def noteText : Reader Element := do
  let text ← someUpTo fun glyphs =>
    atReserved glyphs || headIs (· == ']') glyphs || (linkScheme.run glyphs).isSome
  return .text (textOf text)

def noteContent (keep : Keep) : Reader (List Element) := do
  return merge (← many (firstOf [token, bareLink keep, noteText]))

def footnote (keep : Keep) : Reader Element := do
  literal "footnote:"
  let name ← Reader.optional (someOf isKeyChar)
  literal "["
  let content ← noteContent keep
  literal "]"
  return .footnote (name.map textOf) content

def indexTerm : Reader Element := do
  literal "(("
  ahead fun glyphs => !headIs (· == '(') glyphs
  let term ← someUpTo fun glyphs => startsWith "))".toList glyphs || headIs isReserved glyphs
  literal "))"
  return .indexTerm (content term)

def hiddenTerm : Reader String := do
  let term ← someUpTo fun glyphs =>
    startsWith ")))".toList glyphs || atReserved glyphs || headIs (· == ',') glyphs
  return Text.trim (textOf term)

def furtherTerms : Reader (String × Option String) := do
  literal ","
  let second ← hiddenTerm
  let third ← Reader.optional do
    literal ","
    hiddenTerm
  return (second, third)

def hiddenIndexTerm : Reader Element := do
  literal "((("
  let first ← hiddenTerm
  let further ← Reader.optional furtherTerms
  literal ")))"
  return .hiddenIndexTerm first (further.map (·.1)) (further.bind (·.2))

def any (keep : Keep) (options : Options) : Reader Element :=
  firstOf [image options, link keep, bareLink keep, documentReference, Construct.crossReference,
    footnote keep, hiddenIndexTerm, indexTerm, icon]

end Manuscript.Macro
