import Manuscript.Fault
import Manuscript.Markup.Rule
import Manuscript.Proofs.Grammar.Expression
import Manuscript.Text.Class

namespace Manuscript.Peg

open Peg.Expr

inductive Mark where
  | star
  | underscore
  | backtick
  | hash
  deriving DecidableEq, Repr

def Mark.char : Mark → Char
  | star => '*'
  | underscore => '_'
  | backtick => '\x60'
  | hash => '#'

def Mark.style : Mark → Style
  | star => .bold
  | underscore => .italic
  | backtick => .monospace
  | hash => .marked

def Mark.all : List Mark := [star, underscore, backtick, hash]

inductive Script where
  | sub
  | super
  deriving DecidableEq, Repr

def Script.char : Script → Char
  | sub => '~'
  | super => '^'

def Script.style : Script → Style
  | sub => .subscript
  | super => .superscript

inductive Sign where
  | copyright
  | trademark
  | registered
  | ellipsis
  deriving DecidableEq, Repr

def Sign.text : Sign → String
  | copyright => "(C)"
  | trademark => "(TM)"
  | registered => "(R)"
  | ellipsis => "..."

def Sign.all : List Sign := [copyright, trademark, registered, ellipsis]

inductive Name where
  | placeholder
  | placeholderNumber
  | word
  | plainWord
  | anyChar
  | endOfInput
  | entry (rule : Rule)
  | attributionText
  | triplePlus
  | triplePlusContent
  | singlePlus
  | singlePlusContent
  | bracketed
  | bracketedContent
  | callout
  | calloutNumber
  | special
  | crossReference
  | crossReferenceId
  | crossReferenceLabel
  | escapedQuote
  | quotedText
  | roles
  | role
  | unconstrained (mark : Mark)
  | constrained (mark : Mark)
  | script (script : Script)
  | scriptContent (script : Script)
  | quotation (mark : QuoteMark)
  | attributeName
  | attributeReference
  | escapedReference
  | counter
  | counterKind
  | counterStart
  | sign (sign : Sign)
  | emDash
  | hyphenRun
  | replacementWord
  | apostrophe
  | linkScheme
  | linkPath
  | linkPathText
  | bareLink
  | link
  | path
  | pathText
  | linkAttributes
  | linkText
  | linkTextChars
  | label
  | labelChars
  | namedAttribute
  | attributeKey
  | attributeValue
  | arguments
  | positionalArgument
  | image
  | icon
  | iconName
  | documentReference
  | footnote
  | footnoteName
  | footnoteContent
  | footnoteText
  | indexTerm
  | indexTermContent
  | indexTermText
  | hiddenIndexTerm
  | hiddenTerm
  | lineBreak
  deriving DecidableEq, Repr

abbrev Expression := Expr Name

section

def mark (c : Char) : Expression := literal (String.singleton c)

def reserved : Expression := mark reservedChar

def wordChar : Expression := char Text.isWordChar

def blank : Expression := char Text.isBlank

def digit : Expression := char Char.isDigit

def newline : Expression := choose [literal "\n", literal "\r\n", literal "\r"]

def spaces : Expression := star (literal " ")

def intrawordMark : Expression :=
  choose [literal "*", literal "_", literal "#", literal "`", literal "^", literal "~"]

def calloutTail : Expression :=
  sequence [star (sequence [spaces, literal "<", plus digit, literal ">"]), spaces,
    choice newline .finish]

def quoteStart : Expression :=
  choose [literal "*", literal "_", literal "`", literal "#", literal "~", literal "^"]

def quotation : Expression := choose [call (.quotation .double), call (.quotation .single)]

def quotedElement : Expression :=
  choose [call .placeholder, call .escapedQuote, quotation, call .quotedText, call .plainWord,
    call .anyChar]

def quotedUpTo (close : Expression) : Expression :=
  plus (seq (no close) quotedElement)

def doubled (m : Mark) : String := String.ofList [m.char, m.char]

def constrainedEnd (m : Mark) : Expression := sequence [mark m.char, no wordChar]

def quotedBody : List Expression :=
  Mark.all.map (call ∘ .unconstrained) ++ Mark.all.map (call ∘ .constrained) ++
    [call (.script .sub), call (.script .super)]

def quotationMarks : QuoteMark → String × String
  | .double => ("\"`", "`\"")
  | .single => ("'`", "`'")

def nameStart : Expression := char fun c => c.isAlphanum || c == '_'

def nameChar : Expression := char fun c => c.isAlphanum || c == '_' || c == '-'

def passthrough : List Expression := [call .triplePlus, call .singlePlus, call .bracketed]

def symbol : List Expression := Sign.all.map (call ∘ .sign) ++ [call .emDash]

def linkScheme : Expression :=
  choose [literal "https://", literal "http://", literal "ftp://", literal "irc://",
    literal "mailto:"]

def linkPathEnd : Expression :=
  choose [blank, literal "[", literal "]", reserved, literal "<", literal ">", literal "\"",
    seq (choose [literal ".", literal ",", literal ";", literal ":", literal "!", literal "?",
      literal ")"]) (choice blank .finish)]

def withPlaceholders (text : Name) : Expression :=
  plus (choose [call .placeholder, call text])

def nextArgument (argument : Expression) : Expression :=
  sequence [literal ",", spaces, argument]

def linkArguments : Expression :=
  choose [seq (call .namedAttribute) (star (nextArgument (call .namedAttribute))),
    seq (call .linkText) (plus (nextArgument (call .namedAttribute))), call .label]

def argument : Expression := choose [call .namedAttribute, call .positionalArgument]

def inlineMacro : List Expression :=
  [call .image, call .link, call .bareLink, call .documentReference, call .crossReference,
    call .footnote, call .hiddenIndexTerm, call .indexTerm, call .icon]

def alternatives : Rule → List Expression
  | .passthroughs => call .placeholder :: passthrough ++ [call .word, call .anyChar]
  | .callouts => [call .placeholder, call .callout, call .word, call .anyChar]
  | .specials =>
      [call .placeholder, call .crossReference, call .special, call .word, call .anyChar]
  | .quotes =>
      [call .placeholder, call .escapedQuote, quotation, call .quotedText, call .word,
        call .anyChar]
  | .attributes =>
      [call .placeholder, call .escapedReference, call .counter, call .attributeReference,
        call .word, call .anyChar]
  | .replacements =>
      call .placeholder :: symbol ++ [call .hyphenRun, call .replacementWord, call .anyChar]
  | .macros => call .placeholder :: inlineMacro ++ [call .word, call .anyChar]
  | .postReplacements => [call .placeholder, call .lineBreak, call .word, call .anyChar]
  | .plain => [call .placeholder, call .word, call .anyChar]
  | .attribution => []

def entry : Rule → Expression
  | .attribution =>
      sequence [start, literal "-- ", call .attributionText, call .endOfInput]
  | rule => sequence [start, star (choose (alternatives rule)), call .endOfInput]

def grammar : Name → Definition Name
  | .placeholder => .compound (sequence [reserved, call .placeholderNumber, reserved])
  | .placeholderNumber => .atomic (plus digit)
  | .word => .atomic (seq (plus wordChar) (star (seq intrawordMark (plus wordChar))))
  | .plainWord => .atomic (plus wordChar)
  | .anyChar => .atomic any
  | .endOfInput => .atomic .finish
  | .entry rule => .compound (entry rule)
  | .attributionText => .atomic (plus (except newline))
  | .triplePlus =>
      .compound (sequence [literal "+++", call .triplePlusContent, literal "+++"])
  | .triplePlusContent => .atomic (star (except (choose [literal "+++", reserved])))
  | .singlePlus =>
      .compound (sequence [literal "+", call .singlePlusContent, literal "+", no wordChar])
  | .singlePlusContent =>
      .atomic (seq (no (choose [blank, literal "+"]))
        (plus (except (choose [literal "+", newline, reserved]))))
  | .bracketed => .compound (sequence [literal "pass:[", call .bracketedContent, literal "]"])
  | .bracketedContent => .atomic (star (except (choose [literal "]", reserved])))
  | .callout =>
      .compound (sequence [literal "<", call .calloutNumber, literal ">", ahead calloutTail])
  | .calloutNumber => .atomic (plus digit)
  | .special => .atomic (choose [literal "<", literal ">", literal "&"])
  | .crossReference =>
      .compound (sequence [literal "<<", call .crossReferenceId,
        optional (sequence [literal ",", spaces, call .crossReferenceLabel]), literal ">>"])
  | .crossReferenceId =>
      .atomic (plus (except (choose [literal ",", literal ">", literal "<", blank, reserved])))
  | .crossReferenceLabel => .atomic (plus (except (choose [literal ">>", reserved])))
  | .escapedQuote =>
      .atomic (seq (literal "\\") (choose [literal "**", literal "__", literal "``", literal "##",
        literal "*", literal "_", literal "`", literal "#", literal "~", literal "^"]))
  | .quotedText => .compound (seq (optional (call .roles)) (choose quotedBody))
  | .roles =>
      .compound (sequence [literal "[", optional (literal "."), call .role,
        star (seq (literal ".") (call .role)), literal "]", ahead quoteStart])
  | .role => .atomic (plus (char fun c => Text.isWordChar c || c == '-' || c == '_'))
  | .unconstrained m =>
      .compound (sequence [literal (doubled m), quotedUpTo (literal (doubled m)),
        literal (doubled m)])
  | .constrained m =>
      .compound (sequence [mark m.char, no (choose [blank, mark m.char]),
        quotedUpTo (constrainedEnd m), constrainedEnd m])
  | .script s => .compound (sequence [mark s.char, call (.scriptContent s), mark s.char])
  | .scriptContent s => .atomic (plus (except (choose [mark s.char, blank, reserved])))
  | .quotation m =>
      .compound (sequence [literal (quotationMarks m).1, quotedUpTo (literal (quotationMarks m).2),
        literal (quotationMarks m).2])
  | .attributeName => .atomic (seq nameStart (star nameChar))
  | .attributeReference =>
      .compound (sequence [literal "\x7b", call .attributeName, literal "\x7d"])
  | .escapedReference =>
      .atomic (sequence [literal "\\", literal "\x7b", call .attributeName, literal "\x7d"])
  | .counter =>
      .compound (sequence [literal "\x7b", call .counterKind, literal ":", call .attributeName,
        optional (seq (literal ":") (call .counterStart)), literal "\x7d"])
  | .counterKind => .atomic (choose [literal "counter2", literal "counter"])
  | .counterStart => .atomic (plus (except (choose [literal "\x7d", reserved, newline])))
  | .sign s => .atomic (literal s.text)
  | .emDash => .atomic (seq (literal "--") (no (literal "-")))
  | .hyphenRun =>
      .atomic (sequence [literal "-", literal "-", literal "-", star (literal "-")])
  | .replacementWord =>
      .compound (seq (call .plainWord) (star (seq (call .apostrophe) (call .plainWord))))
  | .apostrophe => .atomic (seq (literal "'") (ahead wordChar))
  | .linkScheme => .atomic linkScheme
  | .linkPath => .compound (withPlaceholders .linkPathText)
  | .linkPathText => .atomic (plus (except linkPathEnd))
  | .bareLink =>
      .compound (sequence [call .linkScheme, call .linkPath, optional (call .linkAttributes)])
  | .link =>
      .compound (sequence [literal "link:", optional (call .linkScheme), call .path,
        call .linkAttributes])
  | .path => .compound (withPlaceholders .pathText)
  | .pathText => .atomic (plus (except (choose [literal "[", blank, reserved])))
  | .linkAttributes => .compound (sequence [literal "[", optional linkArguments, literal "]"])
  | .linkText => .compound (withPlaceholders .linkTextChars)
  | .linkTextChars => .atomic (plus (except (choose [literal ",", literal "]", reserved])))
  | .label => .compound (withPlaceholders .labelChars)
  | .labelChars => .atomic (plus (except (choose [literal "]", reserved])))
  | .namedAttribute =>
      .compound (sequence [call .attributeKey, literal "=", call .attributeValue])
  | .attributeKey => .atomic (plus nameChar)
  | .attributeValue => .atomic (star (except (choose [literal ",", literal "]", reserved])))
  | .arguments =>
      .compound (sequence [literal "[", optional (seq argument (star (nextArgument argument))),
        literal "]"])
  | .positionalArgument => .atomic (plus (except (choose [literal ",", literal "]", reserved])))
  | .image =>
      .compound (sequence [literal "image:", no (literal ":"), call .path, call .arguments])
  | .icon => .compound (sequence [literal "icon:", call .iconName, call .arguments])
  | .iconName => .atomic (plus (except (choose [literal "[", blank, reserved])))
  | .documentReference =>
      .compound (sequence [literal "xref:", call .path, literal "[", optional (call .label),
        literal "]"])
  | .footnote =>
      .compound (sequence [literal "footnote:", optional (call .footnoteName), literal "[",
        optional (call .footnoteContent), literal "]"])
  | .footnoteName => .atomic (plus nameChar)
  | .footnoteContent =>
      .compound (plus (choose [call .placeholder, call .bareLink, call .footnoteText]))
  | .footnoteText =>
      .atomic (plus (except (choose [literal "]", reserved, call .linkScheme])))
  | .indexTerm =>
      .compound (sequence [literal "((", no (literal "("), call .indexTermContent, literal "))"])
  | .indexTermContent => .compound (withPlaceholders .indexTermText)
  | .indexTermText => .atomic (plus (except (choose [literal "))", reserved])))
  | .hiddenIndexTerm =>
      .compound (sequence [literal "(((", call .hiddenTerm,
        optional (sequence [literal ",", call .hiddenTerm,
          optional (seq (literal ",") (call .hiddenTerm))]), literal ")))"])
  | .hiddenTerm => .atomic (plus (except (choose [literal ",", literal ")))", reserved])))
  | .lineBreak => .atomic (seq (literal " +") (ahead (choice newline .finish)))

end

end Manuscript.Peg
