import Manuscript.Proofs.Markup.Kinds
import Manuscript.Proofs.Placeholder.Preservation
import Manuscript.Proofs.Variation

namespace Manuscript

open Pending

def Element.Inline (x : Element) : Prop := x.held = []

theorem inline_text (s : String) : (Element.text s).Inline := rfl

theorem inline_withChildren (x : Element) (sequences : List (List Element)) :
    (x.withChildren sequences).Inline ↔ x.Inline := by
  rw [Element.Inline, Element.held_withChildren]
  rfl

theorem everywhere_of_text {p : Element → Prop} {line : Line} (htext : ∀ x ∈ line, x.isText)
    (h : ∀ s, .text s ∈ line → p (.text s)) : Everywhere p line := by
  refine everywhere_iff.mpr fun x hx => ?_
  obtain ⟨s, rfl⟩ := eq_text_of_isText (htext x hx)
  exact throughout_text.mpr (h s hx)

def Element.Inert (x : Element) : Prop := x.Inline ∧ x.declared? = none

theorem inert_text (s : String) : (Element.text s).Inert := ⟨rfl, rfl⟩

theorem inert_of_makes {rule : Rule} {x : Element} (h : rule.Makes x) : x.Inert := by
  cases x <;> first | exact ⟨rfl, rfl⟩ | cases rule <;> cases h

namespace Fragment

variable {rule : Rule} {options : Options} {text : String} {parsed : List Element}

theorem inert_parse (h : parse rule options text = .ok parsed) : Everywhere Element.Inert parsed :=
  (makes_parse h).mono fun _ => inert_of_makes

theorem inline_parse (h : parse rule options text = .ok parsed) :
    Everywhere Element.Inline parsed :=
  (inert_parse h).mono fun _ hx => hx.1

end Fragment

end Manuscript
