import Manuscript.Text.Field
import Manuscript.Yaml.Scalar

namespace Manuscript.Yaml

structure KeyCandidate where
  required : Bool
  place : Nat
  start : Position
  deriving DecidableEq, Repr

structure Layout where
  rest : List Char
  position : Position
  indents : List Nat
  keyAllowed : Bool
  candidates : List (Option KeyCandidate)
  tokens : Array Token

namespace Layout

def start (text : List Char) : Layout :=
  ⟨text, ⟨0, 0, 0⟩, [], true, [none], #[]⟩

def inFlow (l : Layout) : Bool := 1 < l.candidates.length

def minIndent (l : Layout) : Nat :=
  match l.indents with
  | [] => 0
  | n :: _ => n + 1

def emit (l : Layout) (t : Token) : Layout :=
  { l with tokens := l.tokens.push t }

def skip (l : Layout) (n : Nat) : Layout :=
  { l with rest := l.rest.drop n, position := l.position.skip n }

def setCandidate (l : Layout) (candidate : Option KeyCandidate) : Layout :=
  { l with candidates := candidate :: l.candidates.drop 1 }

def dropCandidate (l : Layout) : Option Layout :=
  match l.candidates with
  | some candidate :: _ => if candidate.required then none else some (l.setCandidate none)
  | _ => some l

def noteCandidate (l : Layout) : Option Layout :=
  if l.keyAllowed then do
    let required := !l.inFlow && l.indents.head? == some l.position.column
    let l ← l.dropCandidate
    return l.setCandidate (some ⟨required, l.tokens.size, l.position⟩)
  else some l

def isStale (p : Position) (candidate : KeyCandidate) : Bool :=
  candidate.start.line < p.line || candidate.start.index + 1024 < p.index

def dropStale (p : Position) : List (Option KeyCandidate) → Option (List (Option KeyCandidate))
  | [] => some []
  | none :: rest => (dropStale p rest).map (none :: ·)
  | some candidate :: rest =>
      if isStale p candidate then
        if candidate.required then none else (dropStale p rest).map (none :: ·)
      else (dropStale p rest).map (some candidate :: ·)

def openBlock (l : Layout) (column place : Nat) (t : Token) : Layout :=
  if l.inFlow || column < l.minIndent then l
  else { l with
    indents := column :: l.indents
    tokens := l.tokens.insertIdxIfInBounds place t }

def closeBlocks (column : Nat) : List Nat → Array Token → List Nat × Array Token
  | [], tokens => ([], tokens)
  | n :: rest, tokens =>
      if column < n then closeBlocks column rest (tokens.push .blockEnd) else (n :: rest, tokens)

def closeDeeper (l : Layout) (column : Nat) : Layout :=
  if l.inFlow then l
  else
    let (indents, tokens) := closeBlocks column l.indents l.tokens
    { l with indents, tokens }

def closeAll (l : Layout) : Layout :=
  if l.inFlow then l
  else { l with indents := [], tokens := l.tokens ++ Array.replicate l.indents.length .blockEnd }

def skipGap (l : Layout) : Layout :=
  let (rest, position, broken) := go l.inFlow l.keyAllowed false l.position false l.rest
  { l with rest, position, keyAllowed := l.keyAllowed || (broken && !l.inFlow) }
where
  go (flow keyAllowed comment : Bool) (p : Position) (broken : Bool) :
      List Char → List Char × Position × Bool
    | [] => ([], p, broken)
    | c :: rest =>
        if isBreak c then go flow keyAllowed false (p.after c) true rest
        else if comment || c == ' ' ||
            (c == '\t' && (flow || !(keyAllowed || broken))) then
          go flow keyAllowed comment (p.after c) broken rest
        else if c == '#' then go flow keyAllowed true (p.after c) broken rest
        else (c :: rest, p, broken)

def separator (l : Layout) (t : Token) (length : Nat) (keyAllowed : Bool) : Option Layout := do
  let l ← l.dropCandidate
  return { (l.skip length).emit t with keyAllowed }

def openFlow (l : Layout) (t : Token) : Option Layout := do
  let l ← l.noteCandidate
  return { (l.skip 1).emit t with keyAllowed := true, candidates := none :: l.candidates }

def closeFlow (l : Layout) (t : Token) : Option Layout := do
  let l ← l.dropCandidate
  let candidates := if l.inFlow then l.candidates.drop 1 else l.candidates
  return { (l.skip 1).emit t with keyAllowed := false, candidates }

def marker (l : Layout) (t : Token) : Option Layout := do
  let l ← l.closeAll.dropCandidate
  return { (l.skip 3).emit t with keyAllowed := false }

def blockEntry (l : Layout) : Option Layout := do
  if !l.inFlow && !l.keyAllowed then none
  let l := l.openBlock l.position.column l.tokens.size .blockSequence
  l.separator .entry 1 true

def explicitKey (l : Layout) : Option Layout := do
  if !l.inFlow && !l.keyAllowed then none
  let l := l.openBlock l.position.column l.tokens.size .blockMapping
  l.separator .key 1 (!l.inFlow)

def value (l : Layout) : Option Layout := do
  match l.candidates.head?.join with
  | some candidate =>
      let keyed := { l with tokens := l.tokens.insertIdxIfInBounds candidate.place .key }
      let l := (keyed.openBlock candidate.start.column candidate.place .blockMapping).setCandidate
        none
      return { (l.skip 1).emit .value with keyAllowed := false }
  | none =>
      if !l.inFlow && !l.keyAllowed then none
      let l :=
        if l.inFlow then l else l.openBlock l.position.column l.tokens.size .blockMapping
      return { (l.skip 1).emit .value with keyAllowed := !l.inFlow }

def scalar (l : Layout) (style : ScalarStyle) (reading : Option Reading) : Option Layout := do
  let r ← reading
  let l := l.emit (.scalar (String.ofList r.text) style)
  return { l with rest := r.rest, position := r.position, keyAllowed := r.broken }

def isNameChar (c : Char) : Bool := c.isAlphanum || c == '_' || c == '-'

def endsName (cs : List Char) : Bool :=
  atGap cs || (cs.head?.any fun c => "?:,]\x7d%@".toList.contains c || c.toNat == 0x60)

def named (l : Layout) (t : String → Token) : Option Layout := do
  let l ← l.noteCandidate
  let name := (l.rest.drop 1).takeWhile isNameChar
  let l := l.skip (name.length + 1)
  if name.isEmpty || !endsName l.rest then none
  return { l.emit (t (String.ofList name)) with keyAllowed := false }

def isTagChar (c : Char) : Bool :=
  isNameChar c || ";/?:@&=+$.!~*()".toList.contains c || c.toNat == 0x27

def tagName? (cs : List Char) : Option (String × Nat) :=
  match cs with
  | '<' :: body =>
      let name := body.takeWhile fun c => isTagChar c || c == ',' || c == '[' || c == ']'
      if name.isEmpty || (body.drop name.length).head? ≠ some '>' then none
      else some (String.ofList name, name.length + 2)
  | '!' :: body =>
      let name := body.takeWhile isTagChar
      if name.isEmpty then none else some (coreTag (String.ofList name), name.length + 1)
  | _ =>
      let name := cs.takeWhile isTagChar
      if (name.dropWhile isNameChar).head? = some '!' then none
      else some ("!" ++ String.ofList name, name.length)

def tag (l : Layout) : Option Layout := do
  let l ← l.noteCandidate
  let (name, length) ← tagName? (l.rest.drop 1)
  let l := l.skip (length + 1)
  if !(atGap l.rest || (l.inFlow && l.rest.head? == some ',')) then none
  return { l.emit (.tag name) with keyAllowed := false }

def textLength : List (List Char × List Char) → Nat
  | [] => 0
  | (line, ending) :: rest => line.length + ending.length + textLength rest

def block (l : Layout) (literal : Bool) : Option Layout := do
  let l ← l.dropCandidate
  let (header, after) := blockHeader (l.rest.drop 1)
  match splitBreaks (after.dropWhile isSpace) with
  | [] => return { l.emit (.scalar "" .quoted) with rest := [], keyAllowed := true }
  | (tail, _) :: lines =>
      if !tail.isEmpty && tail.head? != some '#' then none
      let indent :=
        if header.increment = 0 then max (max (detectIndent lines) l.minIndent) 1
        else match l.indents with
          | [] => header.increment
          | n :: _ => n + header.increment
      let (text, used) := joinBlock literal indent header.chomping [] [] false lines
      let rest := lines.drop used
      let line := l.position.line + 1 + used
      return { l.emit (.scalar (String.ofList text) .quoted) with
        rest := rest.flatMap fun (line, ending) => line ++ ending
        position := ⟨l.position.index + (l.rest.length - textLength rest), line, 0⟩
        keyAllowed := true }

def isDirective (line : List Char) : Bool :=
  let words := Text.words (String.ofList line)
  match words with
  | "%YAML" :: version :: more =>
      (version == "1.1" || version == "1.2") && more.head?.all (·.startsWith "#")
  | "%TAG" :: _ :: _ :: more => more.head?.all (·.startsWith "#")
  | _ => false

def directive (l : Layout) : Option Layout := do
  let l ← l.closeAll.dropCandidate
  let line := l.rest.takeWhile fun c => !isBreak c
  if !isDirective line then none
  return { (l.skip line.length).emit .directive with keyAllowed := false }

def isIndicator (c : Char) : Bool :=
  "-?:,[]\x7b\x7d#&*!|>'\"%@".toList.contains c || c.toNat == 0x60

def startsPlain (flow : Bool) : List Char → Bool
  | [] => false
  | c :: rest =>
      !(isIndicator c || isGap c) || (c == '-' && !(rest.head?.any isSpace)) ||
        (!flow && (c == '?' || c == ':') && !atGap rest)

def next (l : Layout) : Option Layout :=
  match l.rest with
  | [] => none
  | c :: rest =>
      let fuel := l.rest.length
      if l.position.column == 0 && c == '%' then l.directive
      else if l.position.column == 0 && isMarker '-' l.rest then l.marker .documentStart
      else if l.position.column == 0 && isMarker '.' l.rest then l.marker .documentEnd
      else if c == '[' then l.openFlow .openSequence
      else if c == '\x7b' then l.openFlow .openMapping
      else if c == ']' then l.closeFlow .closeSequence
      else if c == '\x7d' then l.closeFlow .closeMapping
      else if c == ',' then l.separator .comma 1 true
      else if c == '-' && atGap rest then l.blockEntry
      else if c == '?' && (l.inFlow || atGap rest) then l.explicitKey
      else if c == ':' && (l.inFlow || atGap rest) then l.value
      else if c == '*' then l.named .alias
      else if c == '&' then l.named .anchor
      else if c == '!' then l.tag
      else if c == '|' && !l.inFlow then l.block true
      else if c == '>' && !l.inFlow then l.block false
      else if c.toNat == 0x27 then do
        let l ← l.noteCandidate
        l.scalar .quoted (singleQuoted (l.position.after c) Gap.empty [] rest)
      else if c == '"' then do
        let l ← l.noteCandidate
        l.scalar .quoted (doubleQuoted fuel (l.position.after c) Gap.empty [] rest)
      else if startsPlain l.inFlow l.rest then do
        let l ← l.noteCandidate
        l.scalar .plain (plain l.inFlow l.minIndent l.position Gap.empty [] l.rest)
      else none

def run : Nat → Layout → Option (List Token)
  | 0, _ => none
  | fuel + 1, l => do
      let l := l.skipGap
      let candidates ← dropStale l.position l.candidates
      let l := { l with candidates }.closeDeeper l.position.column
      if l.rest.isEmpty then
        let l ← l.closeAll.dropCandidate
        return l.tokens.toList
      else run fuel (← l.next)

end Layout

def tokens? (text : String) : Option (List Token) :=
  let cs := match text.toList with
    | c :: rest => if c.toNat = 0xFEFF then rest else c :: rest
    | [] => []
  if cs.all isAllowed then Layout.run (cs.length + 1) (Layout.start (normalizeBreaks cs))
  else none

end Manuscript.Yaml
