import Manuscript.Element.Plain
import Manuscript.Fault

namespace Manuscript

def normalSteps : List Step :=
  [.passthroughs, .specials, .quotes, .attributes, .replacements, .macros, .postReplacements]

def verbatimSteps : List Step := [.callouts, .specials]

def BlockKind.steps : BlockKind → List Step
  | exampleBlock | quote | sidebar | verse | markdownQuote => normalSteps
  | fenced | listing | literal => verbatimSteps
  | comment => [.plain]
  | passthrough => []

def paragraphSteps (attributes : Attributes) : List Step :=
  if attributes.text? "block-kind" = some "listing" then BlockKind.listing.steps else normalSteps

namespace Directive

inductive Token where
  | normal
  | bare (step : Step)
  | append (step : Step)
  | prepend (step : Step)
  | remove (step : Step)
  deriving DecidableEq, Repr

def step? (cs : List Char) : Option Step :=
  Step.ofName? (String.ofList cs)

def modifier? (cs : List Char) : Option Token :=
  match cs with
  | [] => none
  | c :: rest =>
      if c = '+' then (step? rest).map .append
      else if cs.getLast? = some '+' then (step? cs.dropLast).map .prepend
      else if c = '-' then (step? rest).map .remove
      else (step? cs).map .bare

def Token.ofString? (token : String) : Option Token :=
  if token = "normal" then some .normal else modifier? token.toList

structure Selection where
  steps : List Step
  replaced : Bool
  deriving DecidableEq, Repr

def Selection.named (selection : Selection) (steps : List Step) : Selection :=
  ⟨if selection.replaced then selection.steps ++ steps else steps, true⟩

def Selection.edit (selection : Selection) (defaults : List Step)
    (f : List Step → List Step) : Selection :=
  { selection with steps := f (if selection.steps.isEmpty then defaults else selection.steps) }

def Token.apply (defaults : List Step) (selection : Selection) : Token → Selection
  | normal => selection.named normalSteps
  | bare step => selection.named [step]
  | append step => selection.edit defaults (· ++ [step])
  | prepend step => selection.edit defaults (step :: ·)
  | remove step => selection.edit defaults (·.filter (· ≠ step))

def tokens (directive : String) : List String :=
  ((Text.splitOn ',' directive).map Text.trim).filter (· ≠ "")

def read (token : String) : Except Fault Token :=
  match Token.ofString? token with
  | some t => .ok t
  | none => .error (.of (.unsupportedStep token))

def select (defaults : List Step) (directive : String) : Except Fault (List Step) := do
  let steps ←
    if Text.trim directive = "" then pure defaults
    else
      let edits ← (tokens directive).mapM read
      pure (edits.foldl (Token.apply defaults) ⟨[], false⟩).steps
  return steps ++ [.splitLines]

def selectFor (defaults : List Step) (attributes : Attributes) : Except Fault (List Step) :=
  select defaults ((attributes.text? "subs").getD "")

def forParagraph (attributes : Attributes) : Except Fault (List Step) :=
  selectFor (paragraphSteps attributes) attributes

def forBlock (kind : BlockKind) (attributes : Attributes) : Except Fault (List Step) :=
  (selectFor kind.steps attributes).mapError (·.within (.inBlock kind))

end Directive

end Manuscript
