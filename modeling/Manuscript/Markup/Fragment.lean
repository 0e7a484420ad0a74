import Manuscript.Markup.Macro
import Manuscript.Markup.Quote

namespace Manuscript

abbrev Grammar := Rule → Options → String → Except Fault (List Element)

namespace Fragment

open Reader Glyph

def construct (options : Options) : Rule → Reader (List Element)
  | .passthroughs => Construct.single Construct.passthrough
  | .callouts => Construct.single Construct.callout
  | .specials => Construct.single Construct.special
  | .quotes => Construct.single Quote.quote
  | .attributes => Construct.single Construct.attributeOrCounter
  | .replacements => Construct.replacement
  | .macros => Construct.single (Macro.any Dict.ofList options)
  | .postReplacements => Construct.single Construct.lineBreak
  | .plain | .attribution => fail

def read (construct : Reader (List Element)) (glyphs : List Glyph) : List Element :=
  match glyphs with
  | [] => []
  | .token digits :: rest => .placeholder (reference digits) :: read construct rest
  | .char c :: rest =>
      match construct.take? (.char c :: rest) with
      | some (elements, left) => elements ++ read construct left.left
      | none =>
          if Text.isWordChar c then
            let word := breakAt (fun glyphs => !continuesWord glyphs) rest
            .text (textOf (.char c :: word.1)) :: read construct word.2
          else .text (String.singleton c) :: read construct rest
termination_by glyphs.length
decreasing_by
  · simp
  · exact left.shorter
  · have := congrArg List.length (breakAt_append (fun glyphs => !continuesWord glyphs) rest)
    simp at this ⊢
    omega
  · simp

def outOfRange? (rule : Rule) (offset : Nat) : List Glyph → Option Cause
  | [] => none
  | .token digits :: rest =>
      if inRange digits then outOfRange? rule (offset + Text.byteCount (chars (.token digits))) rest
      else some (.placeholderRange (String.ofList digits) offset)
  | .char c :: rest =>
      match rule, Construct.calloutNumber.run (.char c :: rest) with
      | .callouts, some (digits, _) =>
          if inRange digits then outOfRange? rule (offset + c.utf8Size) rest
          else some (.calloutRange (String.ofList digits) offset)
      | _, _ => outOfRange? rule (offset + c.utf8Size) rest

def author? (text : List Char) : Option (List Char) :=
  match text with
  | '-' :: '-' :: ' ' :: author =>
      if author.isEmpty || author.any Cause.isNewline then none else some author
  | _ => none

def parse : Grammar := fun rule options text =>
  match rule with
  | .attribution =>
      match author? text.toList with
      | some author => .ok [.text (String.ofList author)]
      | none => .error (.of (.noAttribution text))
  | rule =>
      let glyphs := scan text.toList
      match outOfRange? rule 0 glyphs with
      | some cause => .error (.of cause)
      | none => .ok (merge (read (construct options rule) glyphs))

end Fragment

end Manuscript
