namespace Manuscript

inductive Rule where
  | passthroughs
  | callouts
  | specials
  | quotes
  | attributes
  | replacements
  | macros
  | postReplacements
  | plain
  | attribution
  deriving DecidableEq, Repr

namespace Rule

def name : Rule → String
  | passthroughs => "InlinePassthroughSubs"
  | callouts => "CalloutSubs"
  | specials => "SpecialCharacterSubs"
  | quotes => "QuotedTextSubs"
  | attributes => "AttributeSubs"
  | replacements => "ReplacementSubs"
  | macros => "InlineMacroSubs"
  | postReplacements => "PostReplacementSubs"
  | plain => "NoneSubs"
  | attribution => "MarkdownQuoteAttribution"

def all : List Rule :=
  [passthroughs, callouts, specials, quotes, attributes, replacements, macros, postReplacements,
   plain, attribution]

def ofName? (name : String) : Option Rule :=
  all.find? (·.name.map Char.toLower == name.map Char.toLower)

end Rule

structure Options where
  imagesDirectory : Option String
  deriving DecidableEq, Repr

end Manuscript
