import Manuscript.Json.Token
import Manuscript.Yaml.Token

namespace Manuscript.Yaml

structure Gap where
  spaces : List Char
  breaks : List Char
  deriving DecidableEq, Repr

namespace Gap

def empty : Gap := ⟨[], []⟩

def isEmpty (gap : Gap) : Bool := gap.spaces.isEmpty && gap.breaks.isEmpty

def space (gap : Gap) (c : Char) : Gap :=
  if gap.breaks.isEmpty then { gap with spaces := gap.spaces ++ [c] } else gap

def lineBreak (gap : Gap) (c : Char) : Gap :=
  ⟨[], gap.breaks ++ [c]⟩

def folded (gap : Gap) : List Char :=
  match gap.breaks with
  | [] => gap.spaces
  | ['\n'] => [' ']
  | '\n' :: others => others
  | breaks => breaks

end Gap

structure Reading where
  text : List Char
  broken : Bool
  position : Position
  rest : List Char

def endsPlain (flow : Bool) : List Char → Bool
  | [] => true
  | c :: rest => (c == ':' && atGap rest) || (flow && isFlowIndicator c)

def strayColon (flow : Bool) : List Char → Bool
  | ':' :: c :: _ => flow && (isFlowIndicator c || c == '?')
  | _ => false

def plain (flow : Bool) (indent : Nat) (p : Position) (gap : Gap) (text : List Char) :
    List Char → Option Reading
  | [] => some ⟨text.reverse, !gap.breaks.isEmpty, p, []⟩
  | c :: rest =>
      let stop := some ⟨text.reverse, !gap.breaks.isEmpty, p, c :: rest⟩
      if isSpace c then
        if !gap.breaks.isEmpty && p.column < indent && c == '\t' then none
        else plain flow indent (p.after c) (gap.space c) text rest
      else if isBreak c then plain flow indent (p.after c) (gap.lineBreak c) text rest
      else if !gap.isEmpty &&
          ((!flow && p.column < indent) || c == '#' || atMarker p (c :: rest)) then stop
      else if strayColon flow (c :: rest) then none
      else if endsPlain flow (c :: rest) then stop
      else plain flow indent (p.after c) Gap.empty (c :: (gap.folded.reverse ++ text)) rest

def singleQuoted (p : Position) (gap : Gap) (text : List Char) : List Char → Option Reading
  | [] => none
  | c :: rest =>
      if atMarker p (c :: rest) then none
      else if isSpace c then singleQuoted (p.after c) (gap.space c) text rest
      else if isBreak c then singleQuoted (p.after c) (gap.lineBreak c) text rest
      else
        let text := gap.folded.reverse ++ text
        if c.toNat = 0x27 then
          match rest with
          | d :: others =>
              if d = c then singleQuoted ((p.after c).after d) Gap.empty (c :: text) others
              else some ⟨text.reverse, false, p.after c, rest⟩
          | [] => some ⟨text.reverse, false, p.after c, []⟩
        else singleQuoted (p.after c) Gap.empty (c :: text) rest

def simpleEscape (c : Char) : Option Char :=
  match c with
  | '0' => some (Char.ofNat 0)
  | 'a' => some (Char.ofNat 7)
  | 'b' => some (Char.ofNat 8)
  | 't' | '\t' => some '\t'
  | 'n' => some '\n'
  | 'v' => some (Char.ofNat 11)
  | 'f' => some (Char.ofNat 12)
  | 'r' => some '\r'
  | 'e' => some (Char.ofNat 27)
  | ' ' | '"' | '/' | '\\' => some c
  | 'N' => some (Char.ofNat 0x85)
  | '_' => some (Char.ofNat 0xA0)
  | 'L' => some (Char.ofNat 0x2028)
  | 'P' => some (Char.ofNat 0x2029)
  | _ => none

def hexLength (c : Char) : Option Nat :=
  if c = 'x' then some 2 else if c = 'u' then some 4 else if c = 'U' then some 8 else none

def hexChar? (digits : List Char) : Option Char := do
  let values ← digits.mapM Json.Token.hexValue
  let n := values.foldl (fun n d => n * 16 + d) 0
  if (0xD800 ≤ n && n ≤ 0xDFFF) || 0x10FFFF < n then none else some (Char.ofNat n)

def Position.afterAll (p : Position) (cs : List Char) : Position :=
  cs.foldl Position.after p

def doubleQuoted : Nat → Position → Gap → List Char → List Char → Option Reading
  | 0, _, _, _, _ => none
  | _, _, _, _, [] => none
  | fuel + 1, p, gap, text, c :: rest =>
      if atMarker p (c :: rest) then none
      else if isSpace c then doubleQuoted fuel (p.after c) (gap.space c) text rest
      else if isBreak c then doubleQuoted fuel (p.after c) (gap.lineBreak c) text rest
      else
        let text := gap.folded.reverse ++ text
        if c = '"' then some ⟨text.reverse, false, p.after c, rest⟩
        else if c = '\\' then
          match rest with
          | [] => none
          | e :: others =>
              if isBreak e then
                let gap := others.takeWhile isGap
                doubleQuoted fuel (((p.after c).after e).afterAll gap) Gap.empty
                  ((gap.filter isBreak).reverse ++ text) (others.dropWhile isGap)
              else match simpleEscape e, hexLength e with
                | some d, _ => doubleQuoted fuel (p.skip 2) Gap.empty (d :: text) others
                | none, some n =>
                    if others.length < n then none
                    else match hexChar? (others.take n) with
                      | some d =>
                          doubleQuoted fuel (p.skip (2 + n)) Gap.empty (d :: text) (others.drop n)
                      | none => none
                | none, none => none
        else doubleQuoted fuel (p.after c) Gap.empty (c :: text) rest

inductive Chomping where
  | strip
  | clip
  | keep
  deriving DecidableEq, Repr

structure BlockHeader where
  chomping : Chomping
  increment : Nat
  deriving DecidableEq, Repr

def chompingOf? (c : Char) : Option Chomping :=
  if c = '+' then some .keep else if c = '-' then some .strip else none

def incrementOf? (c : Char) : Option Nat :=
  if '1' ≤ c ∧ c ≤ '9' then some (c.toNat - '0'.toNat) else none

def blockHeader (cs : List Char) : BlockHeader × List Char :=
  match cs with
  | [] => (⟨.clip, 0⟩, [])
  | c :: rest =>
      match chompingOf? c, incrementOf? c, rest with
      | some chomping, _, d :: others =>
          match incrementOf? d with
          | some n => (⟨chomping, n⟩, others)
          | none => (⟨chomping, 0⟩, rest)
      | some chomping, _, [] => (⟨chomping, 0⟩, [])
      | none, some n, d :: others =>
          match chompingOf? d with
          | some chomping => (⟨chomping, n⟩, others)
          | none => (⟨.clip, n⟩, rest)
      | none, some n, [] => (⟨.clip, n⟩, [])
      | none, none, _ => (⟨.clip, 0⟩, cs)

def splitBreaks : List Char → List (List Char × List Char)
  | [] => []
  | c :: rest =>
      if isBreak c then ([], [c]) :: splitBreaks rest
      else match splitBreaks rest with
        | [] => [([c], [])]
        | (line, ending) :: others => ((c :: line, ending)) :: others

def isBlankLine (indent : Nat) (line : List Char) : Bool :=
  line.all (· == ' ') && line.length ≤ indent

def detectIndent (lines : List (List Char × List Char)) : Nat :=
  let blanks := lines.takeWhile fun (line, ending) => line.all (· == ' ') && !ending.isEmpty
  let longest := (blanks.map (·.1.length)).foldl max 0
  match lines.drop blanks.length with
  | [] => longest
  | (line, _) :: _ => max longest (line.takeWhile (· == ' ')).length

def joinBlock (literal : Bool) (indent : Nat) (chomping : Chomping) (last blanks : List Char)
    (inset : Bool) : List (List Char × List Char) → List Char × Nat
  | [] => (ending, 0)
  | (line, lineEnd) :: rest =>
      if isBlankLine indent line then
        if lineEnd.isEmpty then (ending, 0)
        else
          let (text, n) := joinBlock literal indent chomping last (blanks ++ lineEnd) inset rest
          (text, n + 1)
      else if (line.takeWhile (· == ' ')).length < indent then (ending, 0)
      else
        let shown := line.drop indent
        let indented := shown.head?.any isSpace
        let joint :=
          if !literal && last == ['\n'] && !inset && !indented then
            if blanks.isEmpty then [' '] else blanks
          else last ++ blanks
        let (text, n) := joinBlock literal indent chomping lineEnd [] indented rest
        (joint ++ shown ++ text, n + 1)
where
  ending : List Char := match chomping with
    | .strip => []
    | .clip => last
    | .keep => last ++ blanks

end Manuscript.Yaml
