import Manuscript.Diff
import Manuscript.Json.Printer
import Manuscript.Substitution.Pass

namespace Manuscript.Command

def printJson (j : Json) : String := j.pretty ++ "\n"

def renderElement : Element → String
  | .text s => s
  | element => element.toJson.compact

def renderLine (line : Line) : String := String.join (line.map renderElement)

def renderLines (lines : List Line) : String := "\n".intercalate (lines.map renderLine)

def printRecords (position : Nat) (before : String) : List Record → String
  | [] => ""
  | record :: rest =>
      let lines := renderLines record.lines
      let body :=
        if record.index = 0 then lines ++ "\n"
        else String.join ((Diff.changes before lines).map Diff.render)
      "--- Step " ++ toString position ++ ": " ++ record.step.name ++ " (" ++ record.block ++
        ") ---\n" ++ body ++ "\n" ++ printRecords (position + 1) lines rest

def printSteps (steps : List Step) : String :=
  String.join (steps.map fun step => step.name ++ "\n")

def printWarnings (warnings : List Warning) : String :=
  String.join (warnings.map fun warning => "warning: " ++ warning.display ++ "\n")

def printFault (fault : Fault) : String :=
  fault.kind.code ++ "\n" ++ fault.display ++ "\n" ++
    (match fault.help? with
      | some help => "help: " ++ help ++ "\n"
      | none => "")

end Manuscript.Command
