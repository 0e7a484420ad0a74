import Manuscript.Markup.Fragment
import Manuscript.Proofs.Markup.Yields
import Manuscript.Proofs.Merged

namespace Manuscript

open Glyph Reader

namespace Shield

def opening : Shield → String
  | singlePlus => "+"
  | triplePlus => "+++"
  | bracketed => "pass:["

def closing : Shield → String
  | singlePlus => "+"
  | triplePlus => "+++"
  | bracketed => "]"

end Shield

def OnlyStrings (entries : List (String × Value)) : Prop :=
  ∀ entry ∈ entries, ∃ s, entry.2 = .string s

namespace Macro

inductive Arguments : List Glyph → List (String × Value) → Prop
  | absent : Arguments [] []
  | named {t : List Glyph} {entries : List (String × Value)} :
      Plain t → OnlyStrings entries → Arguments t entries
  | textual {text t : List Glyph} {entries : List (String × Value)} :
      Plain t → OnlyStrings entries →
      Arguments (spell "[" ++ (text ++ t)) ((linkTextName, .elements (content text)) :: entries)

end Macro

def preceded (separator : String) : Option (List Glyph) → List Glyph
  | none => []
  | some t => spell separator ++ t

inductive Verbatim : List Glyph → Element → Prop
  | text {t : List Glyph} : Plain t → Verbatim t (.text (textOf t))
  | passthrough {t : List Glyph} (shield : Shield) : Plain t →
      Verbatim (spell shield.opening ++ (t ++ spell shield.closing)) (Construct.shielded shield t)
  | special {name : String} : reservedChar ∉ name.toList → Verbatim (spell name) (.special name)
  | symbol {name : String} : reservedChar ∉ name.toList → Verbatim (spell name) (.symbol name)
  | lineBreak : Verbatim (spell " +") .lineBreak

inductive Spells (keep : Macro.Keep) (options : Options) : List Glyph → List Element → Prop
  | nil : Spells keep options [] []
  | append {t u : List Glyph} {xs ys : List Element} :
      Spells keep options t xs → Spells keep options u ys →
      Spells keep options (t ++ u) (xs ++ ys)
  | merged {t : List Glyph} {xs : List Element} :
      Spells keep options t xs → Spells keep options t (merge xs)
  | glyph (g : Glyph) : Spells keep options [g] [g.element]
  | text {t : List Glyph} : Plain t → Spells keep options t [.text (textOf t)]
  | escaped {t : List Glyph} : Plain t → Spells keep options (spell "\\" ++ t) [.text (textOf t)]
  | passthrough {t : List Glyph} (shield : Shield) : Plain t →
      Spells keep options (spell shield.opening ++ (t ++ spell shield.closing))
        [Construct.shielded shield t]
  | callout {digits : List Char} : digits ≠ [] → (∀ d ∈ digits, d.isDigit) →
      Spells keep options (spell "<" ++ (digits.map .char ++ spell ">"))
        [.callout (reference digits)]
  | special {name : String} : reservedChar ∉ name.toList →
      Spells keep options (spell name) [.special name]
  | symbol {name : String} : reservedChar ∉ name.toList →
      Spells keep options (spell name) [.symbol name]
  | lineBreak : Spells keep options (spell " +") [.lineBreak]
  | crossReference {id gap : List Glyph} {label : Option (List Glyph)} : Plain id → Plain gap →
      (∀ l ∈ label, Plain l) →
      Spells keep options
        (spell "<<" ++ (id ++ (preceded "," (label.map (gap ++ ·)) ++ spell ">>")))
        [.crossReference (textOf id) (label.map fun l => Text.trim (textOf l))]
  | attributeReference {name : List Glyph} : Plain name →
      Spells keep options (spell "\x7b" ++ (name ++ spell "\x7d"))
        [.attributeReference (textOf name)]
  | counter {name : List Glyph} {start : Option (List Glyph)} (hidden : Bool) : Plain name →
      (∀ s ∈ start, Plain s) →
      Spells keep options
        (spell "\x7b" ++ (spell (if hidden then "counter2" else "counter") ++
          (spell ":" ++ (name ++ (preceded ":" start ++ spell "\x7d")))))
        [.counter ⟨textOf name, hidden, start.map fun s => Count.parse (textOf s)⟩]
  | wrapped {o t c : List Glyph} {xs : List Element} (wrapper : Wrapper) :
      Plain o → Spells keep options t xs → Plain c →
      Spells keep options (o ++ (t ++ c)) [wrapper.wrap xs]
  | link {o path args : List Glyph} {scheme : String} {entries : List (String × Value)} :
      Plain o → reservedChar ∉ scheme.toList → Macro.Arguments args entries →
      Spells keep options (o ++ (spell scheme ++ (path ++ args)))
        [.link ⟨scheme, content path⟩ (keep entries)]
  | image {path args : List Glyph} {attributes : Attributes} :
      Plain args → OnlyStrings attributes.entries →
      Spells keep options (spell "image:" ++ (path ++ args))
        [.image (Location.below (options.imagesDirectory.getD "") ⟨"", content path⟩) attributes]
  | icon {t : List Glyph} {name : String} {attributes : Attributes} :
      Plain t → OnlyStrings attributes.entries → Spells keep options t [.icon name attributes]
  | documentReference {path label : List Glyph} :
      Spells keep options
        (spell "xref:" ++ (path ++ (spell "[" ++ (label ++ spell "]"))))
        [.documentReference ⟨"", content path⟩ (content label)]
  | footnote {name t : List Glyph} {xs : List Element} (reference : Option String) : Plain name →
      Spells keep options t xs →
      Spells keep options (spell "footnote:" ++ (name ++ (spell "[" ++ (t ++ spell "]"))))
        [.footnote reference xs]
  | indexTerm {term : List Glyph} :
      Spells keep options (spell "((" ++ (term ++ spell "))")) [.indexTerm (content term)]
  | hiddenIndexTerm {t : List Glyph} (first : String) (second third : Option String) : Plain t →
      Spells keep options t [.hiddenIndexTerm first second third]

variable {keep : Macro.Keep} {options : Options}

theorem textOf_append (t u : List Glyph) : textOf (t ++ u) = textOf t ++ textOf u := by
  rw [textOf, List.flatMap_append, String.ofList_append]
  rfl

theorem textOf_map_char (cs : List Char) : textOf (cs.map .char) = String.ofList cs := by
  rw [textOf, flatMap_chars_map_char]

theorem textOf_spell (s : String) : textOf (spell s) = s := by
  rw [spell, textOf_map_char, String.ofList_toList]

theorem textOf_ne_empty {t : List Glyph} (h : t ≠ []) : textOf t ≠ "" := by
  obtain ⟨g, t, rfl⟩ := List.exists_cons_of_ne_nil h
  rw [textOf, List.flatMap_cons]
  cases g <;> simp [chars]

theorem plain_spell {s : String} : Plain (spell s) ↔ reservedChar ∉ s.toList :=
  plain_map_char

theorem spell_append (s t : String) : spell (s ++ t) = spell s ++ spell t := by
  rw [spell, String.toList_append, List.map_append]
  rfl

def Quote.IsRole (role : String) : Prop := ∀ c ∈ role.toList, isRoleChar c

def Wrapper.roles : Wrapper → List String
  | quoted _ roles => roles.getD []
  | quotation _ => []

structure Quotable (R : List Glyph → List Element → Prop) : Prop where
  nil : R [] []
  append {t u : List Glyph} {xs ys : List Element} : R t xs → R u ys → R (t ++ u) (xs ++ ys)
  merged {t : List Glyph} {xs : List Element} : R t xs → R t (merge xs)
  glyph (g : Glyph) : R [g] [g.element]
  text {t : List Glyph} : Plain t → R t [.text (textOf t)]
  escaped {mark : String} : mark ∈ Quote.escapable → R (spell "\\" ++ spell mark) [.text mark]
  wrapped {o t c : List Glyph} {xs : List Element} (wrapper : Wrapper) :
    (∀ role ∈ wrapper.roles, Quote.IsRole role) → Merged xs → Plain o → R t xs → Plain c →
    R (o ++ (t ++ c)) [wrapper.wrap xs]

theorem plain_of_mem_escapable {mark : String} (h : mark ∈ Quote.escapable) : Plain (spell mark) := by
  have hplain : ∀ mark ∈ Quote.escapable, reservedChar ∉ mark.toList := by decide
  exact plain_spell.mpr (hplain mark h)

namespace Spells

theorem quotable : Quotable (Spells keep options) where
  nil := .nil
  append := .append
  merged := .merged
  glyph := .glyph
  text := .text
  escaped {mark} h := by
    have hspells : Spells keep options _ _ := .escaped (plain_of_mem_escapable h)
    rwa [textOf_spell] at hspells
  wrapped wrapper _ _ := .wrapped wrapper

theorem of_repeats {t : List Glyph} {xs : List Element}
    (h : Repeats (fun t x => Spells keep options t [x]) t xs) : Spells keep options t xs := by
  induction h with
  | nil => exact .nil
  | cons hx _ ih => exact .append hx ih

theorem of_verbatim {t : List Glyph} {x : Element} (h : Verbatim t x) :
    Spells keep options t [x] := by
  cases h with
  | text hplain => exact .text hplain
  | passthrough shield hplain => exact .passthrough shield hplain
  | special hname => exact .special hname
  | symbol hname => exact .symbol hname
  | lineBreak => exact .lineBreak

theorem of_repeats_verbatim {t : List Glyph} {xs : List Element} (h : Repeats Verbatim t xs) :
    Spells keep options t xs :=
  of_repeats (h.mono fun _ _ => of_verbatim)

end Spells

end Manuscript
