import Manuscript.Fault
import Manuscript.Yaml.Datum

namespace Manuscript

structure Configuration where
  overrides : Dict String
  filename : Option String
  deriving DecidableEq, Repr

namespace Configuration

open Yaml (Node Datum)

def empty : Configuration := ⟨∅, none⟩

def override (configuration : Configuration) (name value : String) : Configuration :=
  { configuration with overrides := configuration.overrides.insert name value }

def isNothing : Node → Bool
  | .scalar _ "" .plain => true
  | _ => false

def text? : Node → Option String
  | .scalar _ text _ => some text
  | _ => none

def overrideEntries? (entries : List (Node × Node)) : Option (List (String × String)) :=
  entries.mapM fun (key, value) => do return (← text? key, ← text? value)

def overrides? (node : Node) : Option (Dict String) :=
  match node with
  | .mapping _ entries => (overrideEntries? entries).map Dict.ofList
  | node => if isNothing node then some ∅ else none

def filename? : Node → Option (Option String)
  | .scalar none text .plain => some (if text = "" || Datum.isNull text then none else some text)
  | .scalar _ text _ => some (some text)
  | _ => none

structure Entries where
  overrides : Option (Dict String)
  filename : Option (Option String)

def addEntry (found : Entries) (entry : Node × Node) : Option Entries := do
  match ← text? entry.1 with
  | "attributes" =>
      if found.overrides.isSome then none
      return { found with overrides := some (← overrides? entry.2) }
  | "filename" =>
      if found.filename.isSome then none
      return { found with filename := some (← filename? entry.2) }
  | _ => none

def ofNode? : Option Node → Option Configuration
  | none => some empty
  | some (.mapping _ entries) => do
      let found ← entries.foldlM addEntry ⟨none, none⟩
      return ⟨found.overrides.getD ∅, found.filename.join⟩
  | some node => if isNothing node then some empty else none

def ofYaml (text : String) : Except Fault Configuration :=
  if Text.trim text = "" then .ok empty
  else match Yaml.parse text >>= ofNode? with
    | some configuration => .ok configuration
    | none => .error (.of .configuration)

end Configuration

end Manuscript
