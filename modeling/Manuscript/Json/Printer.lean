import Manuscript.Json.Basic

namespace Manuscript.Json

def hexDigit (n : Nat) : Char :=
  (Nat.digitChar n)

def escape (c : Char) : List Char :=
  if c = '"' then ['\\', '"']
  else if c = '\\' then ['\\', '\\']
  else if c = '\n' then ['\\', 'n']
  else if c = '\r' then ['\\', 'r']
  else if c = '\t' then ['\\', 't']
  else if c.toNat = 8 then ['\\', 'b']
  else if c.toNat = 12 then ['\\', 'f']
  else if c.toNat < 32 then
    ['\\', 'u', '0', '0', hexDigit (c.toNat / 16), hexDigit (c.toNat % 16)]
  else [c]

def quote (s : String) : String :=
  String.ofList ('"' :: s.toList.flatMap escape ++ ['"'])

def scalar : Json → String
  | .null => "null"
  | .bool b => if b then "true" else "false"
  | .int n => toString n
  | .inexact written => written
  | .str s => quote s
  | .arr _ => "[]"
  | .obj _ => "\x7b\x7d"

mutual

def compact : Json → String
  | .arr items => "[" ++ ",".intercalate (compactItems items) ++ "]"
  | .obj fields => "\x7b" ++ ",".intercalate (compactFields fields) ++ "\x7d"
  | j => scalar j

def compactItems : List Json → List String
  | [] => []
  | j :: rest => compact j :: compactItems rest

def compactFields : List (String × Json) → List String
  | [] => []
  | (name, j) :: rest => (quote name ++ ":" ++ compact j) :: compactFields rest

end

def newline (indent : Nat) : String :=
  String.ofList ('\n' :: List.replicate indent ' ')

mutual

def prettyAt (indent : Nat) : Json → String
  | .arr (j :: rest) =>
      "[" ++ newline (indent + 2) ++ prettyAt (indent + 2) j ++ prettyItems (indent + 2) rest ++
        newline indent ++ "]"
  | .obj ((name, j) :: rest) =>
      "\x7b" ++ newline (indent + 2) ++ quote name ++ ": " ++ prettyAt (indent + 2) j ++
        prettyFields (indent + 2) rest ++ newline indent ++ "\x7d"
  | j => scalar j

def prettyItems (indent : Nat) : List Json → String
  | [] => ""
  | j :: rest => "," ++ newline indent ++ prettyAt indent j ++ prettyItems indent rest

def prettyFields (indent : Nat) : List (String × Json) → String
  | [] => ""
  | (name, j) :: rest =>
      "," ++ newline indent ++ quote name ++ ": " ++ prettyAt indent j ++ prettyFields indent rest

end

def pretty (j : Json) : String :=
  prettyAt 0 j

end Manuscript.Json
