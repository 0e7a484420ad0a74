import Manuscript.Document.Header
import Manuscript.Document.Basic
import Manuscript.Configuration
import Manuscript.Location
import Manuscript.Markup.Fragment
import Manuscript.Substitution.Directive
import Manuscript.Substitution.Footnote
import Manuscript.Substitution.Identifier
import Manuscript.Substitution.Placeholder
import Manuscript.Substitution.Reserved
import Manuscript.Substitution.Resolution

namespace Manuscript

structure Record where
  block : String
  index : Nat
  step : Step
  lines : List Line

structure PassState where
  resolution : Resolution
  trace : List Record

abbrev Run := ExceptT Fault (StateM PassState)

structure Setting where
  grammar : Grammar
  tracing : Bool

namespace Pass

def resolving {α : Type} (action : Resolve α) : Run α := ExceptT.mk fun state =>
  let (outcome, resolution) := action.run state.resolution
  (outcome, { state with resolution })

def ofExcept {α : Type} (outcome : Except Fault α) : Run α :=
  ExceptT.mk (return outcome)

def store : Run Store := return (← get).resolution.store

def optionsOf (store : Store) : Options :=
  ⟨(store.text? "imagesdir").filter (· ≠ "")⟩

def recordStep (setting : Setting) (record : Record) : Run Unit :=
  if setting.tracing then modify fun state => { state with trace := state.trace ++ [record] }
  else return ()

def reread (grammar : Grammar) (rule : Rule) (options : Options) (lines : List Line) :
    Except Fault Line :=
  let work : Pending.Codec Line := do
    let text ← monadLift (Pending.serialize lines)
    Pending.parsePayloads (grammar rule options)
    let parsed ← ExceptT.mk (return grammar rule options text)
    return merge (← Pending.restore parsed)
  match work.run Pending.empty with
  | (.ok line, pending) => pending.finish.map fun _ => line
  | (.error fault, _) => .error fault

def applyStep (setting : Setting) (block : String) (step : Step) (lines : List Line) :
    Run (List Line) :=
  match step.rule? with
  | none => return splitLines lines
  | some rule => do
      let options := optionsOf (← store)
      let line ← ofExcept
        ((reread setting.grammar rule options lines).mapError (·.within (.inStep step block)))
      if step = .attributes then return [← resolving (resolve line)] else return [line]

def applySteps (setting : Setting) (block : String) (index : Nat) :
    List Step → List Line → Run (List Line)
  | [], lines => return lines
  | step :: rest, lines => do
      let after ← applyStep setting block step lines
      recordStep setting ⟨block, index, step, after⟩
      applySteps setting block (index + 1) rest after

def applyLines (setting : Setting) (steps : List Step) (block : String) (lines : List Line) :
    Run (List Line) :=
  if lines.isEmpty then return [] else applySteps setting block 0 steps lines

def applyInline (setting : Setting) (steps : List Step) (block : String) (line : Line) :
    Run Line := do
  return (← applyLines setting steps block [line]).headD []

def attribution? (grammar : Grammar) (options : Options) (lines : List Line) :
    Option (String × List Line) :=
  match lines.getLast? with
  | some [.text s] =>
      match grammar .attribution options s with
      | .ok elements =>
          let author := plainText elements
          if author = "" then none else some (author, lines.dropLast)
      | .error _ => none
  | _ => none

def moveAttribution (setting : Setting) (kind : BlockKind) (attributes : Attributes)
    (lines : List Line) : Run (Attributes × List Line) := do
  if kind = .markdownQuote then
    match attribution? setting.grammar (optionsOf (← store)) lines with
    | some (author, others) => return (attributes.insert "quoteAuthor" (.string author), others)
    | none => return (attributes, lines)
  else return (attributes, lines)

def applyImage (setting : Setting) (location : Location Element) (attributes : Attributes) :
    Run Element := do
  let path ← applyInline setting [.attributes] "image block" location.path
  let directory := (← store).textD "imagesdir" ""
  let location := Location.below directory { location with path }
  if attributes.contains "alt" then return .imageBlock location attributes
  else return .imageBlock location (attributes.insert "alt" (.string location.stem))

def applyLeaf (setting : Setting) : Element → Run Element
  | .imageBlock location attributes => applyImage setting location attributes
  | element => resolving (resolveElement element)

def applyTitle (setting : Setting) (steps : List Step) (attributes : Attributes) (title : Line) :
    Run (Attributes × Line) := do
  let title ← applyInline setting steps "section title" title
  return (Identifier.assign (← store) attributes title, title)

mutual

def applyChild (setting : Setting) (steps : List Step) : Element → Run Element
  | .paragraph attributes lines => do
      return .paragraph attributes (← applyLines setting steps "paragraph" lines)
  | .lineBlock kind attributes lines => do
      return .lineBlock kind attributes (← applyLines setting steps kind.name lines)
  | .elementBlock kind attributes elements => do
      return .elementBlock kind attributes (← applyChildren setting steps elements)
  | .sectionBlock level attributes title elements => do
      let (attributes, title) ← applyTitle setting steps attributes title
      return .sectionBlock level attributes title (← applyChildren setting steps elements)
  | .listItem marker attributes elements => do
      return .listItem marker attributes (← applyChildren setting steps elements)
  | .labeledItem level term attributes elements => do
      let term ← applyInline setting steps "labeled list term" term
      return .labeledItem level term attributes (← applyChildren setting steps elements)
  | .continued offset element => do
      return .continued offset (← applyChild setting steps element)
  | element => applyLeaf setting element

def applyChildren (setting : Setting) (steps : List Step) : List Element → Run (List Element)
  | [] => return []
  | element :: rest => do
      return (← applyChild setting steps element) :: (← applyChildren setting steps rest)

end

mutual

def applyElement (setting : Setting) : Element → Run Element
  | .paragraph attributes lines => do
      let steps ← ofExcept (Directive.forParagraph attributes)
      return .paragraph attributes (← applyLines setting steps "paragraph" lines)
  | .lineBlock kind attributes lines => do
      let steps ← ofExcept (Directive.forBlock kind attributes)
      let (attributes, lines) ← moveAttribution setting kind attributes lines
      return .lineBlock kind attributes (← applyLines setting steps kind.name lines)
  | .elementBlock kind attributes elements => do
      let steps ← ofExcept (Directive.forBlock kind attributes)
      return .elementBlock kind attributes (← applyChildren setting steps elements)
  | .sectionBlock level attributes title elements => do
      let (attributes, title) ← applyTitle setting normalSteps attributes title
      return .sectionBlock level attributes title (← applyElements setting elements)
  | .listItem marker attributes elements => do
      return .listItem marker attributes (← applyElements setting elements)
  | .labeledItem level term attributes elements => do
      let term ← applyInline setting normalSteps "labeled list term" term
      return .labeledItem level term attributes (← applyElements setting elements)
  | .continued offset element => do
      return .continued offset (← applyElement setting element)
  | element => applyLeaf setting element

def applyElements (setting : Setting) : List Element → Run (List Element)
  | [] => return []
  | element :: rest => do
      return (← applyElement setting element) :: (← applyElements setting rest)

end

def prepare (document : Document) (configuration : Configuration) :
    Except Fault (Store × List Element) := do
  let elements ← Reserved.check document.elements
  let store := Store.ofOverrides configuration.overrides
  Reserved.checkAll store.overrides
  let frontMatter := document.frontMatter.getD ∅
  Reserved.checkAll frontMatter
  let (header, elements) := Header.collect ∅ elements
  Reserved.checkAll header
  return ((store.addAll frontMatter).addAll header, elements)

def run (setting : Setting) (document : Document) (configuration : Configuration) :
    Except Fault (Draft × List Record) := do
  let (store, elements) ← prepare document configuration
  match (applyElements setting elements).run ⟨⟨store, []⟩, []⟩ with
  | (.error fault, _) => throw fault
  | (.ok elements, state) =>
      let (elements, footnotes) := (Footnotes.replace elements).run ⟨[], state.resolution.warnings⟩
      return (⟨state.resolution.store.snapshot, document.frontMatter, elements, footnotes.notes,
        footnotes.warnings⟩, state.trace)

end Pass

def substitute (grammar : Grammar) (document : Document) (configuration : Configuration) :
    Except Fault Draft :=
  (Pass.run ⟨grammar, false⟩ document configuration).map (·.1)

def trace (grammar : Grammar) (document : Document) (configuration : Configuration) :
    Except Fault (Draft × List Record) :=
  Pass.run ⟨grammar, true⟩ document configuration

end Manuscript
