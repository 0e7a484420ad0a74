import Manuscript.Element.Basic

namespace Manuscript

def literalReference (name : String) : String :=
  "\x7b" ++ name ++ "\x7d"

mutual

def Element.plain : Element → String
  | .text s => s
  | .special name => name
  | .symbol name => name
  | .attributeReference name => literalReference name
  | .quoted _ _ content => plainText content
  | .quotation _ content => plainText content
  | .passthrough _ content => plainText content
  | .link ⟨scheme, path⟩ _ => scheme ++ plainText path
  | .documentReference _ label => plainText label
  | .crossReference id label => label.getD id
  | .indexTerm term => plainText term
  | _ => ""

def plainText : List Element → String
  | [] => ""
  | element :: rest => element.plain ++ plainText rest

end

theorem plainText_append (xs ys : List Element) :
    plainText (xs ++ ys) = plainText xs ++ plainText ys := by
  induction xs with
  | nil => simp [plainText]
  | cons x xs ih => simp [plainText, ih, String.append_assoc]

def Value.asText : Value → String
  | .nil => ""
  | .string s => s
  | .bool b => if b then "true" else "false"
  | .elements content => plainText content
  | .roles names => " ".intercalate names
  | .authors people => "; ".intercalate (people.map (·.fullName))
  | .revision r => r.number

def Value.isNil : Value → Bool
  | .nil => true
  | _ => false

def Value.text? : Option Value → Option String
  | none => none
  | some .nil => none
  | some value => some value.asText

def Dict.text? (attributes : Attributes) (name : String) : Option String :=
  Value.text? (attributes.find? name)

end Manuscript
