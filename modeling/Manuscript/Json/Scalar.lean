import Manuscript.Json.Basic

namespace Manuscript.Json

def str? : Json → Option String
  | .str s => some s
  | _ => none

def bool? : Json → Option Bool
  | .bool b => some b
  | _ => none

def int? (low high : Int) : Json → Option Int
  | .int n => if low ≤ n ∧ n ≤ high then some n else none
  | _ => none

def uint8? (j : Json) : Option UInt8 :=
  (int? 0 0xFF j).map fun n => UInt8.ofNat n.toNat

def uint32? (j : Json) : Option UInt32 :=
  (int? 0 0xFFFFFFFF j).map fun n => UInt32.ofNat n.toNat

def uint64? (j : Json) : Option UInt64 :=
  (int? 0 0xFFFFFFFFFFFFFFFF j).map fun n => UInt64.ofNat n.toNat

def int32? (j : Json) : Option Int32 :=
  (int? (-0x80000000) 0x7FFFFFFF j).map Int32.ofInt

def int64? (j : Json) : Option Int64 :=
  (int? (-0x8000000000000000) 0x7FFFFFFFFFFFFFFF j).map Int64.ofInt

def char? : Json → Option Char
  | .str s => match s.toList with
      | [c] => some c
      | _ => none
  | _ => none

def list? {α : Type} (read : Json → Option α) : Json → Option (List α)
  | .arr items => items.mapM read
  | _ => none

def object? : Json → Option (List (String × Json))
  | .obj fields => some fields
  | _ => none

def required {α : Type} (fields : List (String × Json)) (name : String) (read : Json → Option α) :
    Option α := do
  read (← (← soleField name fields)).1

def withDefault {α : Type} (fields : List (String × Json)) (name : String) (default : α)
    (read : Json → Option α) : Option α :=
  match soleField name fields with
  | none => none
  | some none => some default
  | some (some j) => read j.1

def optional {α : Type} (fields : List (String × Json)) (name : String) (read : Json → Option α) :
    Option (Option α) :=
  match soleField name fields with
  | none => none
  | some none => some none
  | some (some ⟨.null, _⟩) => some none
  | some (some j) => (read j.1).map some

end Manuscript.Json
