namespace Manuscript.Yaml

inductive ScalarStyle where
  | plain
  | quoted
  deriving DecidableEq, Repr

inductive Token where
  | directive
  | documentStart
  | documentEnd
  | blockSequence
  | blockMapping
  | blockEnd
  | openSequence
  | closeSequence
  | openMapping
  | closeMapping
  | entry
  | comma
  | key
  | value
  | alias (name : String)
  | anchor (name : String)
  | tag (name : String)
  | scalar (text : String) (style : ScalarStyle)
  deriving DecidableEq, Repr

def coreTag (name : String) : String := "tag:yaml.org,2002:" ++ name

structure Position where
  index : Nat
  line : Nat
  column : Nat
  deriving DecidableEq, Repr

def isSpace (c : Char) : Bool := c == ' ' || c == '\t'

def isBreak (c : Char) : Bool :=
  c == '\n' || c.toNat == 0x2028 || c.toNat == 0x2029

def isGap (c : Char) : Bool := isSpace c || isBreak c

def atGap : List Char → Bool
  | [] => true
  | c :: _ => isGap c

def Position.after (p : Position) (c : Char) : Position :=
  if isBreak c then ⟨p.index + 1, p.line + 1, 0⟩ else ⟨p.index + 1, p.line, p.column + 1⟩

def Position.skip (p : Position) (n : Nat) : Position :=
  ⟨p.index + n, p.line, p.column + n⟩

def normalizeBreaks : List Char → List Char
  | [] => []
  | '\r' :: '\n' :: rest => '\n' :: normalizeBreaks rest
  | c :: rest =>
      (if c = '\r' || c.toNat = 0x85 then '\n' else c) :: normalizeBreaks rest

def isAllowed (c : Char) : Bool :=
  let n := c.toNat
  c == '\t' || c == '\n' || c == '\r' || (0x20 ≤ n && n ≤ 0x7E) || n == 0x85 ||
    (0xA0 ≤ n && n ≤ 0xFFFD) || 0x10000 ≤ n

def isMarker (mark : Char) : List Char → Bool
  | a :: b :: c :: rest => a == mark && b == mark && c == mark && atGap rest
  | _ => false

def atMarker (p : Position) (cs : List Char) : Bool :=
  p.column == 0 && (isMarker '-' cs || isMarker '.' cs)

def isFlowIndicator (c : Char) : Bool :=
  c == ',' || c == '[' || c == ']' || c == '\x7b' || c == '\x7d'

end Manuscript.Yaml
