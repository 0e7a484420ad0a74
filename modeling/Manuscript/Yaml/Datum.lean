import Manuscript.Decimal.Binary
import Manuscript.Json.Token
import Manuscript.Yaml.Node

namespace Manuscript.Yaml

inductive Datum where
  | null
  | bool (b : Bool)
  | number (text : String)
  | string (s : String)
  | sequence (items : List Datum)
  | mapping (entries : List (Datum × Datum))
  | tagged (tag : String) (datum : Datum)

namespace Datum

def isNull (s : String) : Bool :=
  s == "~" || s == "null" || s == "Null" || s == "NULL"

def bool? (s : String) : Option Bool :=
  if s == "true" || s == "True" || s == "TRUE" then some true
  else if s == "false" || s == "False" || s == "FALSE" then some false
  else none

def digitsIn? (base : Nat) (cs : List Char) : Option Nat := do
  if cs.isEmpty then none
  let values ← cs.mapM Json.Token.hexValue
  if values.all (· < base) then some (values.foldl (fun n d => n * base + d) 0) else none

def isSign (c : Char) : Bool := c == '+' || c == '-'

def isPadded (cs : List Char) : Bool :=
  match if cs.head?.any isSign then cs.drop 1 else cs with
  | '0' :: d :: rest => (d :: rest).all Char.isDigit
  | _ => false

def magnitude? (cs : List Char) : Option Nat :=
  let decimal := digitsIn? 10 cs
  match cs with
  | '0' :: 'x' :: rest => (digitsIn? 16 rest).or decimal
  | '0' :: 'o' :: rest => (digitsIn? 8 rest).or decimal
  | '0' :: 'b' :: rest => (digitsIn? 2 rest).or decimal
  | _ => decimal

def integer? (cs : List Char) : Option Int :=
  if isPadded cs then none
  else match cs with
    | '+' :: rest => (magnitude? rest).map fun n => (n : Int)
    | '-' :: rest => (magnitude? rest).map fun n => -(n : Int)
    | _ => (magnitude? cs).map fun n => (n : Int)

def decimal? (cs : List Char) : Option (Nat × Int) := do
  let whole := cs.takeWhile Char.isDigit
  let after := cs.dropWhile Char.isDigit
  let (fraction, tail) := match after with
    | '.' :: rest => (rest.takeWhile Char.isDigit, rest.dropWhile Char.isDigit)
    | _ => ([], after)
  if whole.isEmpty && fraction.isEmpty then none
  let exponent : Int ← match tail with
    | [] => some 0
    | e :: rest =>
        if e = 'e' || e = 'E' then
          match rest with
          | '-' :: ds => (digitsIn? 10 ds).map fun n => -(n : Int)
          | '+' :: ds => (digitsIn? 10 ds).map fun n => (n : Int)
          | ds => (digitsIn? 10 ds).map fun n => (n : Int)
        else none
  return ((← digitsIn? 10 (whole ++ fraction)), exponent - fraction.length)

def float? (s : String) : Option String :=
  let cs := s.toList
  let unsigned := if cs.head? == some '+' then cs.drop 1 else cs
  let name := String.ofList unsigned
  if name == ".inf" || name == ".Inf" || name == ".INF" then some ".inf"
  else if s == "-.inf" || s == "-.Inf" || s == "-.INF" then some "-.inf"
  else if s == ".nan" || s == ".NaN" || s == ".NAN" then some ".nan"
  else if cs.head? == some '+' && unsigned.head?.any isSign then none
  else
    let negative := unsigned.head? == some '-'
    match decimal? (if negative then unsigned.drop 1 else unsigned) with
    | none => none
    | some (digits, exponent) =>
        (Decimal.text? digits exponent).map fun text => if negative then "-" ++ text else text

def integerDatum? (n : Int) : Option Datum :=
  if -0x8000000000000000 ≤ n ∧ n ≤ 0xFFFFFFFFFFFFFFFF then some (.number (toString n)) else none

def integerIn128? (cs : List Char) : Option Int :=
  (integer? cs).filter fun n =>
    -0x80000000000000000000000000000000 ≤ n ∧ n ≤ 0xFFFFFFFFFFFFFFFFFFFFFFFFFFFFFFFF

def fraction (s : String) : Datum :=
  match float? s with
  | some text => .number text
  | none => .string s

def plain? (s : String) : Option Datum :=
  if s == "" || isNull s then some .null
  else match bool? s, integerIn128? s.toList with
    | some b, _ => some (.bool b)
    | none, some n => integerDatum? n
    | none, none => some (if isPadded s.toList then .string s else fraction s)

def untagged? (text : String) : ScalarStyle → Option Datum
  | .plain => plain? text
  | .quoted => some (.string text)

def isLocal (tag : String) : Bool := tag.startsWith "!"

def tagged? (tag text : String) (style : ScalarStyle) : Option Datum :=
  if tag = "!" then untagged? text style
  else if isLocal tag then (untagged? text style).map (.tagged tag)
  else if tag = coreTag "null" then if isNull text then some .null else none
  else if tag = coreTag "bool" then (bool? text).map .bool
  else if tag = coreTag "int" then integerIn128? text.toList >>= integerDatum?
  else if tag = coreTag "float" then (float? text).map .number
  else some (.string text)

def withTag? (tag : Option String) (datum : Datum) : Option Datum :=
  match tag with
  | none => some datum
  | some tag =>
      if tag = "!" then none else if isLocal tag then some (.tagged tag datum) else some datum

mutual

def same : Datum → Datum → Bool
  | .null, .null => true
  | .bool a, .bool b => a == b
  | .number a, .number b => a == b
  | .string a, .string b => a == b
  | .sequence as, .sequence bs => sameItems as bs
  | .mapping as, .mapping bs => sameEntries as bs
  | .tagged s a, .tagged t b => s == t && same a b
  | _, _ => false

def sameItems : List Datum → List Datum → Bool
  | [], [] => true
  | a :: as, b :: bs => same a b && sameItems as bs
  | _, _ => false

def sameEntries : List (Datum × Datum) → List (Datum × Datum) → Bool
  | [], [] => true
  | (a, v) :: as, (b, w) :: bs => same a b && same v w && sameEntries as bs
  | _, _ => false

end

def distinctKeys : List (Datum × Datum) → Bool
  | [] => true
  | (key, _) :: rest => !(rest.any fun entry => same key entry.1) && distinctKeys rest

mutual

def ofNode? : Node → Option Datum
  | .scalar none text style => untagged? text style
  | .scalar (some tag) text style => tagged? tag text style
  | .sequence tag items => do withTag? tag (.sequence (← ofItems? items))
  | .mapping tag entries => do
      let entries ← ofEntries? entries
      if distinctKeys entries then withTag? tag (.mapping entries) else none

def ofItems? : List Node → Option (List Datum)
  | [] => some []
  | node :: rest => do return (← ofNode? node) :: (← ofItems? rest)

def ofEntries? : List (Node × Node) → Option (List (Datum × Datum))
  | [] => some []
  | (key, value) :: rest => do
      return (← ofNode? key, ← ofNode? value) :: (← ofEntries? rest)

end

def text? : Datum → Option String
  | .string s => some s
  | .number text => some text
  | .bool b => some (if b then "true" else "false")
  | _ => none

end Datum

end Manuscript.Yaml
