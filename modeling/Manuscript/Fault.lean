import Manuscript.Element.Basic
import Manuscript.Substitution.Step
import Manuscript.Text.Field
import Manuscript.Text.Offset

namespace Manuscript

def reservedChar : Char := '\uFFFD'

inductive Cause where
  | noAttribution (text : String)
  | placeholderRange (digits : String) (offset : Nat)
  | calloutRange (digits : String) (offset : Nat)
  | refused (message : String)
  | unsupportedStep (token : String)
  | counterStuck (name : String) (value : Count)
  | unknownPlaceholder (reference : UInt32)
  | placeholdersLeft (references : List UInt32)
  | reserved (text : String)
  | unknownRule (name : String)
  | unknownBlock (name : String)
  | frontMatter
  | configuration
  | unreadableConfiguration (path : String)
  | unreadableDocument (path : String)
  | invalidDocument (path : String)
  deriving DecidableEq, Repr

inductive Place where
  | inStep (step : Step) (block : String)
  | inBlock (kind : BlockKind)
  | inAttribute (name : String)
  | inConfiguration (path : String)
  deriving DecidableEq, Repr

structure Fault where
  cause : Cause
  places : List Place
  deriving DecidableEq, Repr

inductive Fault.Kind where
  | grammar
  | substitution
  | counter
  | placeholder
  | validation
  | configuration
  deriving DecidableEq, Repr

structure Label where
  offset : Nat
  length : Nat
  text : String
  deriving DecidableEq, Repr

namespace Cause

def kind : Cause → Fault.Kind
  | noAttribution _ | placeholderRange .. | calloutRange .. | refused _ => .grammar
  | unsupportedStep _ => .substitution
  | counterStuck .. => .counter
  | unknownPlaceholder _ | placeholdersLeft _ => .placeholder
  | reserved _ | unknownRule _ | unknownBlock _ => .validation
  | frontMatter | configuration | unreadableConfiguration _ | unreadableDocument _
  | invalidDocument _ => .configuration

def message : Cause → String
  | noAttribution _ => "unable to parse fragment as " ++ Rule.attribution.name
  | placeholderRange digits _ => "invalid placeholder '" ++ digits ++ "'"
  | calloutRange digits _ => "invalid callout reference '" ++ digits ++ "'"
  | refused message => message
  | unsupportedStep token => "unsupported substitution: '" ++ token ++ "'"
  | counterStuck name (.number n) =>
      "counter '" ++ name ++ "' cannot advance past " ++ toString n.toInt
  | counterStuck name (.character c) =>
      "counter '" ++ name ++ "' cannot advance past '" ++ String.singleton c ++ "'"
  | counterStuck name (.text text) =>
      "counter '" ++ name ++ "' holds '" ++ text ++
        "', which is neither a number nor a single character"
  | unknownPlaceholder reference =>
      "unknown placeholder reference '" ++ toString reference.toNat ++ "'"
  | placeholdersLeft references =>
      "placeholders never restored: " ++
        ", ".intercalate (references.map fun r => toString r.toNat)
  | reserved _ => "reserved character U+FFFD found in input"
  | unknownRule name => "unknown entry rule '" ++ name ++ "'"
  | unknownBlock name => "unknown block kind '" ++ name ++ "'"
  | frontMatter => "failed to parse yaml content in front matter"
  | configuration => "invalid configuration"
  | unreadableConfiguration path => "cannot read configuration '" ++ path ++ "'"
  | unreadableDocument path => "cannot read document '" ++ path ++ "'"
  | invalidDocument path => "invalid document '" ++ path ++ "'"

def supportedNames : String :=
  "inline_passthrough, callouts, specialcharacters, specialchars, quotes, attributes, " ++
    "replacements, macros, post_replacements, none, normal"

def help : Cause → List String
  | noAttribution _ => ["the fragment does not match the " ++ Rule.attribution.name ++ " rule"]
  | unsupportedStep _ => ["supported substitutions are: " ++ supportedNames]
  | counterStuck _ (.text _) =>
      ["start a counter with a number (\x7bcounter:name:1\x7d) or a character " ++
        "(\x7bcounter:name:a\x7d)"]
  | reserved _ => ["U+FFFD delimits internal placeholders and cannot appear in documents"]
  | unknownBlock _ =>
      ["expected paragraph or one of: " ++ ", ".intercalate (BlockKind.all.map BlockKind.name)]
  | _ => []

def isNewline (c : Char) : Bool :=
  c == '\n' || c == '\r'

def attributionOffset (text : List Char) : Nat :=
  match text with
  | '-' :: '-' :: ' ' :: author => 3 + Text.byteCount (author.takeWhile (!isNewline ·))
  | _ => 0

def labels (cause : Cause) : List Label :=
  match cause with
  | noAttribution text =>
      [⟨min (attributionOffset text.toList) (text.utf8ByteSize - 1), 1, cause.message⟩]
  | placeholderRange digits offset => [⟨offset, digits.utf8ByteSize + 6, cause.message⟩]
  | calloutRange digits offset => [⟨offset, digits.utf8ByteSize + 2, cause.message⟩]
  | reserved text =>
      match Text.offsetsOf reservedChar 0 text.toList with
      | [] => [⟨0, 3, cause.message⟩]
      | first :: rest =>
          ⟨first, 3, cause.message⟩ :: rest.map fun offset => ⟨offset, 3, "also reserved"⟩
  | _ => []

end Cause

def Place.help : Place → String
  | inStep step block => "while applying the '" ++ step.name ++ "' substitution to a " ++ block
  | inBlock kind => "in a " ++ kind.name ++ " block"
  | inAttribute name => "in the value of attribute '" ++ name ++ "'"
  | inConfiguration path => "in configuration file '" ++ path ++ "'"

namespace Fault

def of (cause : Cause) : Fault := ⟨cause, []⟩

def within (place : Place) (fault : Fault) : Fault :=
  { fault with places := fault.places ++ [place] }

def kind (fault : Fault) : Kind := fault.cause.kind

def message (fault : Fault) : String := fault.cause.message

def labels (fault : Fault) : List Label := fault.cause.labels

def help? (fault : Fault) : Option String :=
  match fault.cause.help ++ fault.places.map Place.help with
  | [] => none
  | lines => some ("\n".intercalate lines)

namespace Kind

def code : Kind → String
  | grammar => "gloss::grammar"
  | substitution => "gloss::subs"
  | counter => "gloss::counter"
  | placeholder => "gloss::placeholder"
  | validation => "gloss::validation"
  | configuration => "gloss::config"

def title : Kind → String
  | grammar => "Grammar error"
  | substitution => "Unsupported substitution"
  | counter => "Invalid counter type"
  | placeholder => "Placeholder error"
  | validation => "Validation error"
  | configuration => "Configuration error"

end Kind

def display (fault : Fault) : String :=
  fault.kind.title ++ ": " ++ fault.message

end Fault

inductive Warning where
  | missingAttribute (name : String)
  | missingFootnote (reference : String)
  deriving DecidableEq, Repr

def Warning.display : Warning → String
  | missingAttribute name =>
      "cannot find attribute '" ++ name ++ "', rendering it as '\x7b" ++ name ++ "\x7d'"
  | missingFootnote reference => "no footnote with reference '" ++ reference ++ "'"

end Manuscript
