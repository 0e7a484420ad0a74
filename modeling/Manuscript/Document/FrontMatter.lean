import Manuscript.Element.Basic
import Manuscript.Fault
import Manuscript.Yaml.Printer

namespace Manuscript.FrontMatter

open Yaml

def value : Datum → Value
  | .null => .nil
  | .bool b => .bool b
  | datum => .string (datum.text?.getD (String.ofList (Text.trimEnd datum.print.toList)))

def entry? (entry : Datum × Datum) : Option (String × Value) :=
  entry.1.text?.map fun name => (name, value entry.2)

def entriesOf? : Option Node → Option (List (Datum × Datum))
  | none => some []
  | some (.scalar _ "" .plain) => some []
  | some (.mapping _ nodes) => do
      let entries ← Datum.ofEntries? nodes
      if Datum.distinctKeys entries then some entries else none
  | some _ => none

def ofYaml (text : String) : Except Fault Attributes :=
  match Yaml.parse text >>= entriesOf? with
  | some entries => .ok (Dict.ofList (entries.filterMap entry?))
  | none => .error (.of .frontMatter)

end Manuscript.FrontMatter
