import Manuscript.Element.Walk
import Manuscript.Fault

namespace Manuscript

structure Footnotes where
  notes : List Note
  warnings : List Warning

namespace Footnotes

def unknownId : Int32 := -1

def idOf? (name : String) (notes : List Note) : Option Int32 :=
  (notes.findIdx? (·.reference == some name)).map fun i => Int32.ofNat (i + 1)

def known? (reference : Option String) (notes : List Note) : Option Int32 := do
  idOf? (← reference) notes

def refer (reference : Option String) (content : List Element) : StateM Footnotes Element :=
  modifyGet fun f =>
    if content.isEmpty then
      match known? reference f.notes with
      | some id => (.footnoteReference id reference true, f)
      | none =>
          (.footnoteReference unknownId reference false,
            { f with warnings := f.warnings ++ [.missingFootnote (reference.getD "")] })
    else
      (.footnoteReference (Int32.ofNat (f.notes.length + 1)) reference false,
        { f with notes := f.notes ++ [⟨reference, content⟩] })

def referring? : Element → Option (StateM Footnotes Element)
  | .footnote reference content => some (refer reference content)
  | _ => none

def replace (elements : List Element) : StateM Footnotes (List Element) :=
  walkM referring? id elements

end Footnotes

end Manuscript
