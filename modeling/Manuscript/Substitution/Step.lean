import Manuscript.Markup.Rule

namespace Manuscript

inductive Step where
  | passthroughs
  | callouts
  | specials
  | quotes
  | attributes
  | replacements
  | macros
  | postReplacements
  | plain
  | splitLines
  deriving DecidableEq, Repr

namespace Step

def name : Step → String
  | passthroughs => "inline_passthrough"
  | callouts => "callouts"
  | specials => "specialcharacters"
  | quotes => "quotes"
  | attributes => "attributes"
  | replacements => "replacements"
  | macros => "macros"
  | postReplacements => "post_replacements"
  | plain => "none"
  | splitLines => "split_lines"

def key : Step → String
  | specials => "special_characters"
  | step => step.name

def named : List Step :=
  [passthroughs, callouts, specials, quotes, attributes, replacements, macros, postReplacements,
   plain]

def ofName? (name : String) : Option Step :=
  if name = "specialchars" then some specials else named.find? (·.name == name)

def rule? : Step → Option Rule
  | passthroughs => some .passthroughs
  | callouts => some .callouts
  | specials => some .specials
  | quotes => some .quotes
  | attributes => some .attributes
  | replacements => some .replacements
  | macros => some .macros
  | postReplacements => some .postReplacements
  | plain => some .plain
  | splitLines => none

theorem ofName?_name {step : Step} (h : step ≠ splitLines) : ofName? step.name = some step := by
  cases step <;> first | decide | contradiction

theorem rule_ne_of_ne {step other : Step} {rule rule' : Rule} (h : step ≠ other)
    (hrule : step.rule? = some rule) (hrule' : other.rule? = some rule') : rule ≠ rule' := by
  rintro rfl
  cases step <;> cases hrule <;> cases other <;> first | exact h rfl | cases hrule'

end Step

end Manuscript
