import Manuscript.Command.Arguments
import Manuscript.Command.Report
import Manuscript.Document.FrontMatter
import Manuscript.Json.Parser

namespace Manuscript.Command

structure Outcome where
  code : UInt8
  stdout : String
  stderr : String
  deriving DecidableEq, Repr

def success (stdout stderr : String) : Outcome := ⟨0, stdout, stderr⟩

def failure (fault : Fault) : Outcome := ⟨1, "", printFault fault⟩

abbrev Files := String → Option String

def loadConfiguration (files : Files) (path : String) : Except Fault Configuration :=
  match files path with
  | none => .error (.of (.unreadableConfiguration path))
  | some text => (Configuration.ofYaml text).mapError (·.within (.inConfiguration path))

def loadDocument (files : Files) (path : String) : Except Fault Document :=
  match files path with
  | none => .error (.of (.unreadableDocument path))
  | some text =>
      match Json.parse text >>= Document.ofJson? with
      | some document => .ok document
      | none => .error (.of (.invalidDocument path))

def load (files : Files) (source : Source) : Except Fault (Document × Configuration) := do
  let loaded ← match source.configuration with
    | some path => loadConfiguration files path
    | none => pure Configuration.empty
  let configuration := source.overrides.foldl (fun c (name, value) => c.override name value) loaded
  let filename := configuration.filename.getD source.file
  return (← loadDocument files source.file, { configuration with filename := some filename })

def runSubstitute (files : Files) (source : Source) : Except Fault Outcome := do
  let (document, configuration) ← load files source
  let draft ← substitute Fragment.parse document configuration
  return success (printJson draft.toJson) (printWarnings draft.warnings)

def runTrace (files : Files) (source : Source) : Except Fault Outcome := do
  let (document, configuration) ← load files source
  let (draft, records) ← trace Fragment.parse document configuration
  return success (printRecords 0 "" records) (printWarnings draft.warnings)

def runInline (text rule : String) : Except Fault Outcome := do
  match Rule.ofName? rule with
  | none => throw (.of (.unknownRule rule))
  | some rule =>
      let elements ← Fragment.parse rule ⟨none⟩ text
      return success (printJson (.arr (elementsJson elements))) ""

def runSelect (kind directive : String) : Except Fault Outcome := do
  let steps ←
    if kind = "paragraph" then Directive.select (paragraphSteps ∅) directive
    else match BlockKind.ofName? kind with
      | none => throw (.of (.unknownBlock kind))
      | some kind => Directive.forBlock kind ((∅ : Attributes).insert "subs" (.string directive))
  return success (printSteps steps) ""

def usage : String :=
  "Usage: gloss [-v] subs|trace FILE [-c FILE] [-a NAME=VALUE]...\n" ++
  "       gloss inline TEXT [-r RULE]\n" ++
  "       gloss selector KIND [-s SUBS]\n"

def perform (files : Files) : Request → Except Fault Outcome
  | .version => .ok (success "gloss 0.1.0\n" "")
  | .help => .ok (success usage "")
  | .substitute source => runSubstitute files source
  | .trace source => runTrace files source
  | .inline text rule => runInline text rule
  | .select kind directive => runSelect kind directive

def run (files : Files) (arguments : List String) : Outcome :=
  match request false arguments with
  | .error .usage => ⟨2, "", usage⟩
  | .error .help => success usage ""
  | .ok request =>
      match perform files request with
      | .ok outcome => outcome
      | .error fault => failure fault

end Manuscript.Command
