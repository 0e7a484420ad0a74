import Manuscript.Yaml.Datum

namespace Manuscript.Yaml

namespace Plain

def isAlwaysIndicator (c : Char) : Bool :=
  "#,[]\x7b\x7d&*!|>'\"%@".toList.contains c || c.toNat == 0x60

def badStart : List Char → Bool
  | [] => true
  | c :: rest =>
      isAlwaysIndicator c || isSpace c ||
        ((c == '?' || c == ':' || c == '-') && atGap rest)

def badInside : Bool → List Char → Bool
  | _, [] => false
  | afterGap, c :: rest =>
      (c == ':' && atGap rest) || (c == '#' && afterGap) || badInside (isGap c) rest

def isMarked (cs : List Char) : Bool :=
  cs.take 3 == "---".toList || cs.take 3 == "...".toList

def isPrintable (c : Char) : Bool :=
  isAllowed c && c ≠ '\t' && c ≠ '\r' && c.toNat ≠ 0x85 && c.toNat ≠ 0xFEFF

def allowed (cs : List Char) : Bool :=
  !(badStart cs || badInside false cs || isMarked cs || cs.getLast?.any isSpace)

end Plain

def hex (width n : Nat) : String :=
  let ds := (Nat.toDigits 16 n).map Char.toUpper
  String.ofList (List.replicate (width - ds.length) '0' ++ ds)

def escaped (c : Char) : String :=
  let n := c.toNat
  if c = '"' || c = '\\' then String.ofList ['\\', c]
  else if n = 0 then "\\0" else if n = 7 then "\\a" else if n = 8 then "\\b"
  else if c = '\t' then "\\t" else if c = '\n' then "\\n" else if n = 11 then "\\v"
  else if n = 12 then "\\f" else if c = '\r' then "\\r" else if n = 27 then "\\e"
  else if n = 0x85 then "\\N" else if n = 0x2028 then "\\L" else if n = 0x2029 then "\\P"
  else if Plain.isPrintable c then String.singleton c
  else if n < 0x100 then "\\x" ++ hex 2 n
  else if n < 0x10000 then "\\u" ++ hex 4 n
  else "\\U" ++ hex 8 n

def doubleQuotedText (s : String) : String :=
  "\"" ++ String.join (s.toList.map escaped) ++ "\""

def singleQuotedText (s : String) : String :=
  "'" ++ String.join (s.toList.map fun c => if c.toNat = 0x27 then "''" else String.singleton c) ++
    "'"

def isPlainString (s : String) : Bool :=
  match Datum.plain? s with
  | some (.string _) => !Datum.isPadded s.toList
  | _ => false

def inlineText (s : String) : String :=
  let cs := s.toList
  if !cs.all Plain.isPrintable || cs.any isBreak then doubleQuotedText s
  else if isPlainString s && Plain.allowed cs then s
  else singleQuotedText s

def dropFirst (s : String) : String := String.ofList (s.toList.drop 1)

def indentText (n : Nat) : String := String.ofList (List.replicate n ' ')

def chompingMark (cs : List Char) : String :=
  match cs.reverse with
  | '\n' :: '\n' :: _ => "+"
  | ['\n'] => "+"
  | '\n' :: _ => ""
  | _ => "-"

def literalText (indent : Nat) (s : String) : String :=
  let cs := s.toList
  let hint := if cs.head?.any fun c => c == ' ' || isBreak c then "2" else ""
  let body := if cs.getLast? == some '\n' then cs.dropLast else cs
  let lines := (Text.fields (· == '\n') body).map fun line =>
    if line.isEmpty then "" else indentText indent ++ String.ofList line
  "|" ++ hint ++ chompingMark cs ++ "\n" ++ "\n".intercalate lines

def isLiteral (s : String) : Bool :=
  let cs := s.toList
  cs.contains '\n' && cs.all Plain.isPrintable &&
    !((Text.fields (· == '\n') cs).any fun line => line.getLast?.any isSpace)

inductive Slot where
  | start
  | item
  | value
  | explicit
  deriving DecidableEq, Repr

def Slot.inset (slot : Slot) (isSequence isTagged : Bool) (outer : Nat) : Nat :=
  match slot with
  | start => 0
  | item => outer + 2
  | value => if isSequence then outer else outer + 2
  | explicit => if isSequence && isTagged then outer else outer + 2

def Slot.lead (slot : Slot) (isTagged : Bool) (indent : Nat) : String :=
  if isTagged || slot = value then "\n" ++ indentText indent else " "

def measureText : Datum → Nat
  | .string s => s.utf8ByteSize
  | .number text => text.length
  | .tagged tag datum => tag.utf8ByteSize + measureText datum
  | _ => 0

def isShort (key : Datum) : Bool :=
  measureText key ≤ 128 && isOneLine key
where
  isOneLine : Datum → Bool
    | .string s => !s.toList.any isBreak
    | .sequence items => items.isEmpty
    | .mapping entries => entries.isEmpty
    | .tagged _ datum => isOneLine datum
    | _ => true

mutual

def placed (slot : Slot) (outer : Nat) (tag : String) : Datum → String
  | .null => tag ++ " null"
  | .bool b => tag ++ (if b then " true" else " false")
  | .number text => tag ++ " " ++ text
  | .string s =>
      tag ++ " " ++ (if isLiteral s then literalText (outer + 2) s else inlineText s)
  | .sequence items =>
      if items.isEmpty then tag ++ " []"
      else
        let indent := slot.inset true (tag ≠ "") outer
        tag ++ slot.lead (tag ≠ "") indent ++ itemsText indent items
  | .mapping entries =>
      if entries.isEmpty then tag ++ " \x7b\x7d"
      else
        let indent := slot.inset false (tag ≠ "") outer
        tag ++ slot.lead (tag ≠ "") indent ++ entriesText indent entries
  | .tagged inner datum => placed slot outer (tag ++ " " ++ inner) datum

def itemsText (indent : Nat) : List Datum → String
  | [] => ""
  | [item] => "-" ++ placed .item indent "" item
  | item :: rest =>
      "-" ++ placed .item indent "" item ++ "\n" ++ indentText indent ++ itemsText indent rest

def entryText (indent : Nat) : Datum × Datum → String
  | (key, value) =>
      if isShort key then
        dropFirst (placed .explicit indent "" key) ++ ":" ++ placed .value indent "" value
      else
        "?" ++ placed .explicit indent "" key ++ "\n" ++ indentText indent ++ ":" ++
          placed .explicit indent "" value

def entriesText (indent : Nat) : List (Datum × Datum) → String
  | [] => ""
  | [entry] => entryText indent entry
  | entry :: rest =>
      entryText indent entry ++ "\n" ++ indentText indent ++ entriesText indent rest

end

def Datum.print (datum : Datum) : String := dropFirst (placed .start 0 "" datum)

end Manuscript.Yaml
