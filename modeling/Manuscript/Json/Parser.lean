import Manuscript.Json.Basic
import Manuscript.Json.Token

namespace Manuscript.Json

inductive Frame where
  | items (done : List Json)
  | fields (done : List (String × Json)) (name : String)

inductive Expect where
  | value
  | itemOrClose
  | nameOrClose
  | name (done : List (String × Json))
  | colon (done : List (String × Json)) (name : String)
  | next (value : Json)

abbrev State := Expect × List Frame

def maxDepth : Nat := 127

def enter (state : State) : Option State :=
  if state.2.length < maxDepth then some state else none

def start (above : List Frame) : Token → Option State
  | .openArray => enter (.itemOrClose, above)
  | .openObject => enter (.nameOrClose, above)
  | .null => some (.next .null, above)
  | .bool b => some (.next (.bool b), above)
  | .int n => some (.next (.int n), above)
  | .inexact written => some (.next (.inexact written), above)
  | .str s => some (.next (.str s), above)
  | _ => none

def step : State → Token → Option State
  | (.value, above), t => start above t
  | (.itemOrClose, above), .closeArray => some (.next (.arr []), above)
  | (.itemOrClose, above), t => start (.items [] :: above) t
  | (.nameOrClose, above), .closeObject => some (.next (.obj []), above)
  | (.nameOrClose, above), .str name => some (.colon [] name, above)
  | (.name done, above), .str name => some (.colon done name, above)
  | (.colon done name, above), .colon => some (.value, .fields done name :: above)
  | (.next j, .items done :: above), .comma => some (.value, .items (j :: done) :: above)
  | (.next j, .items done :: above), .closeArray =>
      some (.next (.arr (j :: done).reverse), above)
  | (.next j, .fields done name :: above), .comma => some (.name ((name, j) :: done), above)
  | (.next j, .fields done name :: above), .closeObject =>
      some (.next (.obj ((name, j) :: done).reverse), above)
  | _, _ => none

def parse (text : String) : Option Json := do
  match ← (← Token.scan text.toList).foldlM step (.value, []) with
  | (.next j, []) => some j
  | _ => none

end Manuscript.Json
