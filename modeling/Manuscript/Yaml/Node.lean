import Manuscript.Yaml.Layout

namespace Manuscript.Yaml

inductive Node where
  | scalar (tag : Option String) (text : String) (style : ScalarStyle)
  | sequence (tag : Option String) (items : List Node)
  | mapping (tag : Option String) (entries : List (Node × Node))

structure Source where
  tokens : List Token
  anchors : List (String × Node)

namespace Node

def nothing : Node := .scalar none "" .plain

abbrev Read := StateT Source Option

def peek : Read (Option Token) := return (← get).tokens.head?

def advance : Read Unit := modify fun s => { s with tokens := s.tokens.drop 1 }

def accept (t : Token) : Read Bool := do
  if (← peek) == some t then advance; return true else return false

def expect (t : Token) : Read Unit := do
  if !(← accept t) then failure

def atOneOf (tokens : List Token) : Read Bool := do
  match ← peek with
  | some t => return tokens.contains t
  | none => return true

def remember (anchor : Option String) (node : Node) : Read Node := do
  match anchor with
  | some name => modify fun s => { s with anchors := (name, node) :: s.anchors }
  | none => return node
  return node

structure Properties where
  anchor : Option String
  tag : Option String

def properties : Read Properties := do
  match ← peek with
  | some (.anchor name) =>
      advance
      match ← peek with
      | some (.tag tag) => advance; return ⟨some name, some tag⟩
      | _ => return ⟨some name, none⟩
  | some (.tag tag) =>
      advance
      match ← peek with
      | some (.anchor name) => advance; return ⟨some name, some tag⟩
      | _ => return ⟨none, some tag⟩
  | _ => return ⟨none, none⟩

mutual

def read (fuel : Nat) (inBlock unindented : Bool) : Read Node :=
  match fuel with
  | 0 => failure
  | fuel + 1 => do
      match ← peek with
      | some (.alias name) =>
          advance
          match (← get).anchors.lookup name with
          | some node => return node
          | none => failure
      | _ =>
          let p ← properties
          remember p.anchor (← content fuel inBlock unindented p)

def content (fuel : Nat) (inBlock unindented : Bool) (p : Properties) : Read Node :=
  match fuel with
  | 0 => failure
  | fuel + 1 => do
      match ← peek with
      | some (.scalar text style) => advance; return .scalar p.tag text style
      | some .openSequence => advance; return .sequence p.tag (← flowItems fuel true)
      | some .openMapping => advance; return .mapping p.tag (← flowEntries fuel true)
      | some .entry =>
          if unindented then return .sequence p.tag (← unindentedItems fuel)
          else if p.anchor.isSome || p.tag.isSome then return .scalar p.tag "" .plain
          else failure
      | some .blockSequence =>
          if inBlock then advance; return .sequence p.tag (← blockItems fuel) else failure
      | some .blockMapping =>
          if inBlock then advance; return .mapping p.tag (← blockEntries fuel) else failure
      | _ =>
          if p.anchor.isSome || p.tag.isSome then return .scalar p.tag "" .plain else failure

def orNothing (fuel : Nat) (inBlock unindented : Bool) (ends : List Token) : Read Node :=
  match fuel with
  | 0 => failure
  | fuel + 1 => do
      if ← atOneOf ends then return nothing else read fuel inBlock unindented

def blockItems (fuel : Nat) : Read (List Node) :=
  match fuel with
  | 0 => failure
  | fuel + 1 => do
      if ← accept .entry then
        let item ← orNothing fuel true false [.entry, .blockEnd]
        return item :: (← blockItems fuel)
      else expect .blockEnd; return []

def unindentedItems (fuel : Nat) : Read (List Node) :=
  match fuel with
  | 0 => failure
  | fuel + 1 => do
      if ← accept .entry then
        let item ← orNothing fuel true false [.entry, .key, .value, .blockEnd]
        return item :: (← unindentedItems fuel)
      else return []

def blockEntries (fuel : Nat) : Read (List (Node × Node)) :=
  match fuel with
  | 0 => failure
  | fuel + 1 => do
      if ← accept .key then
        let key ← orNothing fuel true true [.key, .value, .blockEnd]
        let value ←
          if ← accept .value then orNothing fuel true true [.key, .value, .blockEnd]
          else pure nothing
        return (key, value) :: (← blockEntries fuel)
      else expect .blockEnd; return []

def flowItems (fuel : Nat) (first : Bool) : Read (List Node) :=
  match fuel with
  | 0 => failure
  | fuel + 1 => do
      if ← accept .closeSequence then return []
      if !first then expect .comma
      if ← accept .closeSequence then return []
      let item ←
        if ← accept .key then
          let key ← orNothing fuel false false [.value, .comma, .closeSequence]
          let value ←
            if ← accept .value then orNothing fuel false false [.comma, .closeSequence]
            else pure nothing
          pure (Node.mapping none [(key, value)])
        else read fuel false false
      return item :: (← flowItems fuel false)

def flowEntries (fuel : Nat) (first : Bool) : Read (List (Node × Node)) :=
  match fuel with
  | 0 => failure
  | fuel + 1 => do
      if ← accept .closeMapping then return []
      if !first then expect .comma
      if ← accept .closeMapping then return []
      if ← accept .key then
        let key ← orNothing fuel false false [.value, .comma, .closeMapping]
        let value ←
          if ← accept .value then orNothing fuel false false [.comma, .closeMapping]
          else pure nothing
        return (key, value) :: (← flowEntries fuel false)
      else
        let key ← read fuel false false
        return (key, nothing) :: (← flowEntries fuel false)

end

def dropDirectives (tokens : List Token) : List Token :=
  tokens.dropWhile (· == .directive)

def fuelFor (tokens : List Token) : Nat := 4 * tokens.length + 4

def ofTokens? (tokens : List Token) : Option (Option Node) := do
  if tokens.isEmpty then return none
  let body := dropDirectives tokens
  let hasDirective := body.length < tokens.length
  let (marked, body) := match body with
    | .documentStart :: rest => (true, rest)
    | _ => (false, body)
  if hasDirective && !marked then none
  let ends := [Token.documentStart, .documentEnd, .directive]
  let (node, left) ←
    if marked && body.head?.all ends.contains then pure (nothing, body)
    else (read (fuelFor body) true false).run ⟨body, []⟩ >>= fun (node, s) => some (node, s.tokens)
  if (left.dropWhile (· == .documentEnd)).isEmpty then return some node else none

end Node

def parse (text : String) : Option (Option Node) := do
  Node.ofTokens? (← tokens? text)

end Manuscript.Yaml
