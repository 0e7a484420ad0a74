import Manuscript.Element.Basic

namespace Manuscript.Count

def digits? (cs : List Char) : Option Nat :=
  if cs.isEmpty || !cs.all Char.isDigit then none
  else some (cs.foldl (fun n d => n * 10 + (d.toNat - '0'.toNat)) 0)

def inRange (n : Int) : Option Int64 :=
  if Int64.minValue.toInt ≤ n ∧ n ≤ Int64.maxValue.toInt then some (Int64.ofInt n) else none

def integer? : List Char → Option Int64
  | '+' :: ds => digits? ds >>= fun n => inRange n
  | '-' :: ds => digits? ds >>= fun n => inRange (-n)
  | ds => digits? ds >>= fun n => inRange n

def parse (raw : String) : Count :=
  match integer? raw.toList, raw.toList with
  | some n, _ => .number n
  | none, [c] => .character c
  | none, _ => .text raw

def nextChar? (c : Char) : Option Char :=
  if c.toNat + 1 = 0xD800 then some (Char.ofNat 0xE000)
  else if c.toNat = 0x10FFFF then none
  else some (Char.ofNat (c.toNat + 1))

def next? : Count → Option Count
  | .number n => if n = Int64.maxValue then none else some (.number (n + 1))
  | .character c => (nextChar? c).map .character
  | .text _ => none

def shown? : Count → Option String
  | .number n => some (toString n.toInt)
  | .character c => some (String.singleton c)
  | .text _ => none

end Manuscript.Count
