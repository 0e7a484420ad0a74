import Manuscript.Count
import Manuscript.Markup.Reader

namespace Manuscript.Construct

open Reader Glyph

def shielded (shield : Shield) (inner : List Glyph) : Element :=
  .passthrough shield (fragment (textOf inner))

def triplePlus : Reader Element := do
  literal "+++"
  let inner ← upTo fun glyphs => startsWith "+++".toList glyphs || atReserved glyphs
  literal "+++"
  return shielded .triplePlus inner

def singlePlus : Reader Element := do
  literal "+"
  ahead fun glyphs => !headIs (fun c => Text.isBlank c || c == '+') glyphs
  let inner ← someUpTo fun glyphs =>
    atReserved glyphs || headIs (fun c => c == '+' || Cause.isNewline c) glyphs
  literal "+"
  ahead fun glyphs => !headIs Text.isWordChar glyphs
  return shielded .singlePlus inner

def bracketed : Reader Element := do
  literal "pass:["
  let inner ← upTo fun glyphs => atReserved glyphs || headIs (· == ']') glyphs
  literal "]"
  return shielded .bracketed inner

def passthrough : Reader Element :=
  firstOf [triplePlus, singlePlus, bracketed]

def calloutMark : Reader (List Char) := do
  literal "<"
  let digits ← someOf Char.isDigit
  literal ">"
  return digits.flatMap chars

def calloutTail : Reader Unit := do
  let _ ← many (do let _ ← spaces; calloutMark)
  let _ ← spaces
  ahead atLineEnd

def calloutNumber : Reader (List Char) := do
  let digits ← calloutMark
  ahead fun glyphs => (calloutTail.run glyphs).isSome
  return digits

def callout : Reader Element := do
  return .callout (reference (← calloutNumber))

def crossReference : Reader Element := do
  literal "<<"
  let id ← someUpTo fun glyphs =>
    atReserved glyphs ||
      headIs (fun c => c == ',' || c == '>' || c == '<' || Text.isBlank c) glyphs
  let label ← Reader.optional do
    literal ","
    let _ ← spaces
    someUpTo fun glyphs => startsWith ">>".toList glyphs || atReserved glyphs
  literal ">>"
  return .crossReference (textOf id) (label.map fun l => Text.trim (textOf l))

def specialChar : Reader Element :=
  firstOf (["<", ">", "&"].map fun name => do literal name; return .special name)

def special : Reader Element :=
  orElse crossReference specialChar

def isNameStart (c : Char) : Bool :=
  c.isAlphanum || c == '_'

def isNameChar (c : Char) : Bool :=
  isNameStart c || c == '-'

def attributeName : Reader String := do
  ahead (headIs isNameStart)
  return textOf (← someOf isNameChar)

def attributeReference : Reader Element := do
  literal "\x7b"
  let name ← attributeName
  literal "\x7d"
  return .attributeReference name

def escapedReference : Reader Element := do
  literal "\\\x7b"
  let name ← attributeName
  literal "\x7d"
  return .text (literalReference name)

def counter : Reader Element := do
  literal "\x7b"
  let hidden ← orElse (do literal "counter2"; return true) (do literal "counter"; return false)
  literal ":"
  let name ← attributeName
  let start ← Reader.optional do
    literal ":"
    someUpTo fun glyphs =>
      atReserved glyphs || headIs (fun c => c == '\x7d' || Cause.isNewline c) glyphs
  literal "\x7d"
  return .counter ⟨name, hidden, start.map fun s => Count.parse (textOf s)⟩

def attributeOrCounter : Reader Element :=
  firstOf [escapedReference, counter, attributeReference]

def symbol : Reader Element :=
  firstOf (["(C)", "(TM)", "(R)", "..."].map fun name => do literal name; return .symbol name)

def emDash : Reader Element := do
  literal "--"
  ahead fun glyphs => !headIs (· == '-') glyphs
  return .symbol "--"

def hyphenRun : Reader Element := do
  ahead (startsWith "---".toList)
  return .text (textOf (← someOf (· == '-')))

def isApostrophe (c : Char) : Bool :=
  c.toNat == 0x27

def continuesContraction : List Glyph → Bool
  | .char c :: rest => Text.isWordChar c || (isApostrophe c && headIs Text.isWordChar rest)
  | _ => false

def contractionElement : Glyph → Element
  | .char c => if isApostrophe c then .symbol (String.singleton c) else .text (String.singleton c)
  | g => g.element

def contraction : Reader (List Element) := do
  ahead (headIs Text.isWordChar)
  let word ← someUpTo fun glyphs => !continuesContraction glyphs
  return word.map contractionElement

def single (r : Reader Element) : Reader (List Element) := do
  return [← r]

def replacement : Reader (List Element) :=
  orElse (single (firstOf [symbol, emDash, hyphenRun])) contraction

def lineBreak : Reader Element := do
  literal " +"
  ahead atLineEnd
  return .lineBreak

end Manuscript.Construct
