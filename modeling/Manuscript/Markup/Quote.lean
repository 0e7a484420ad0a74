import Manuscript.Markup.Reader

namespace Manuscript

open Reader

inductive Wrapper where
  | quoted (style : Style) (roles : Option (List String))
  | quotation (mark : QuoteMark)
  deriving DecidableEq, Repr

def roleAttributes : Option (List String) → Attributes
  | none => ∅
  | some roles => (∅ : Attributes).insert "role" (.roles roles)

def Wrapper.wrap (content : List Element) : Wrapper → Element
  | quoted style roles => .quoted style (roleAttributes roles) content
  | quotation mark => .quotation mark content

structure Opening where
  wrapper : Wrapper
  closing : String
  constrained : Bool
  deriving DecidableEq, Repr

namespace Quote

def isMark (c : Char) : Bool := Glyph.isIntrawordMark c

def escapable : List String :=
  ["**", "__", "``", "##", "*", "_", "`", "#", "~", "^"]

def escapedMark : Reader Element := do
  literal "\\"
  let mark ← firstOf (escapable.map fun mark => do literal mark; return mark)
  return .text mark

def isRoleChar (c : Char) : Bool :=
  Text.isWordChar c || c == '-' || c == '_'

def role : Reader String := do
  return Glyph.textOf (← someOf isRoleChar)

def roles : Reader (List String) := do
  literal "["
  let _ ← Reader.optional (literal ".")
  let first ← role
  let others ← many (do literal "."; role)
  literal "]"
  ahead (Glyph.headIs isMark)
  return first :: others

def script (style : Style) (mark : String) (c : Char) : Reader (Style × String) := do
  literal mark
  let text ← someUpTo fun glyphs =>
    Glyph.atReserved glyphs || Glyph.headIs (fun d => d == c || Text.isBlank d) glyphs
  literal mark
  return (style, Glyph.textOf text)

def scriptText : Reader Element := do
  let roles ← Reader.optional roles
  let (style, text) ← orElse (script .subscript "~" '~') (script .superscript "^" '^')
  return (Wrapper.quoted style roles).wrap [.text text]

def leaf : Reader Element :=
  orElse escapedMark scriptText

def marks : List (Style × String × Char) :=
  [(.bold, "*", '*'), (.italic, "_", '_'), (.monospace, "`", '\x60'), (.marked, "#", '#')]

def unconstrained (roles : Option (List String)) (style : Style) (mark : String) :
    Reader Opening := do
  literal (mark ++ mark)
  return ⟨.quoted style roles, mark ++ mark, false⟩

def constrained (roles : Option (List String)) (style : Style) (mark : String) (c : Char) :
    Reader Opening := do
  literal mark
  ahead fun glyphs => !Glyph.headIs (fun d => Text.isBlank d || d == c) glyphs
  return ⟨.quoted style roles, mark, true⟩

def textOpening : Reader Opening := do
  let roles ← Reader.optional roles
  orElse (firstOf (marks.map fun (style, mark, _) => unconstrained roles style mark))
    (firstOf (marks.map fun (style, mark, c) => constrained roles style mark c))

def quotationOpening (mark : QuoteMark) (opening closing : String) : Reader Opening := do
  literal opening
  return ⟨.quotation mark, closing, false⟩

def opening : Reader Opening :=
  firstOf [quotationOpening .double "\"`" "`\"", quotationOpening .single "'`" "`'", textOpening]

def closing (o : Opening) : Reader Unit := do
  literal o.closing
  ahead fun glyphs => !(o.constrained && Glyph.headIs Text.isWordChar glyphs)

mutual

def read? (glyphs : List Glyph) : Option (Element × Rest glyphs) :=
  match leaf.take? glyphs with
  | some found => some found
  | none =>
      match opening.take? glyphs with
      | none => none
      | some (o, inner) =>
          match content? o inner.left with
          | some (x :: xs, rest) => some (o.wrapper.wrap (merge (x :: xs)), inner.trans rest)
          | _ => none
termination_by (glyphs.length, 0)
decreasing_by exact Prod.Lex.left _ _ inner.shorter

def content? (o : Opening) (glyphs : List Glyph) : Option (List Element × Rest glyphs) :=
  match (closing o).take? glyphs with
  | some ((), rest) => some ([], rest)
  | none =>
      match glyphs with
      | [] => none
      | g :: tail =>
          match read? (g :: tail) with
          | some (x, rest) =>
              (content? o rest.left).map fun (xs, r) => (x :: xs, rest.trans r)
          | none =>
              (content? o tail).map fun (xs, r) => (g.element :: xs, (Rest.tail g tail).trans r)
termination_by (glyphs.length, 1)
decreasing_by
  · exact Prod.Lex.right _ Nat.one_pos
  · exact Prod.Lex.left _ _ rest.shorter
  · exact Prod.Lex.left _ _ (Nat.lt_succ_self _)

end

def quote : Reader Element := ofTake read?

end Quote

end Manuscript
