import Manuscript.Proofs.Placeholder.Conservation

namespace Manuscript

open Glyph

theorem toList_textOf (t : List Glyph) : (textOf t).toList = t.flatMap chars :=
  String.toList_ofList

theorem Text.toList_trim_sublist (s : String) : (Text.trim s).toList.Sublist s.toList := by
  rw [Text.trim, String.toList_ofList, Text.trimEnd]
  have hstart : (Text.trimStart s.toList).Sublist s.toList := List.dropWhile_sublist _
  have hend := List.dropWhile_sublist Text.isBlank (l := (Text.trimStart s.toList).reverse)
  have hboth := hend.reverse
  rw [List.reverse_reverse] at hboth
  exact hboth.trans hstart

@[simp] theorem plainText_singleton (element : Element) : plainText [element] = element.plain := by
  rw [plainText, plainText, String.append_empty]

theorem plain_glyph_sublist (g : Glyph) : g.element.plain.toList.Sublist (chars g) := by
  cases g with
  | char c => simp [element, Element.plain, chars]
  | token digits => exact List.nil_sublist _

theorem plainText_content_sublist (t : List Glyph) :
    (plainText (content t)).toList.Sublist (t.flatMap chars) := by
  rw [content, plainText_merge]
  induction t with
  | nil => exact List.nil_sublist _
  | cons g t ih =>
    rw [List.map_cons, plainText, String.toList_append, List.flatMap_cons]
    exact (plain_glyph_sublist g).append ih

theorem plainText_fragment (s : String) : plainText (fragment s) = s := by
  rw [fragment]
  split
  · next h => rw [h, plainText]
  · rw [plainText_singleton, Element.plain]

theorem plain_wrap (wrapper : Wrapper) (elements : List Element) :
    (wrapper.wrap elements).plain = plainText elements := by
  cases wrapper <;> rw [Wrapper.wrap, Element.plain]

theorem sublist_between {cs : List Char} {t : List Glyph} (h : cs.Sublist (t.flatMap chars))
    (before after : List Glyph) : cs.Sublist ((before ++ (t ++ after)).flatMap chars) := by
  rw [List.flatMap_append, List.flatMap_append]
  exact (h.trans (List.sublist_append_left ..)).trans (List.sublist_append_right ..)

namespace Spells

variable {keep : Macro.Keep} {options : Options}

theorem plainText_sublist {t : List Glyph} {xs : List Element} (h : Spells keep options t xs) :
    (plainText xs).toList.Sublist (t.flatMap chars) := by
  induction h with
  | nil => exact List.nil_sublist _
  | append _ _ hxs hys =>
    rw [plainText_append, String.toList_append, List.flatMap_append]
    exact hxs.append hys
  | merged _ hxs => rwa [plainText_merge]
  | glyph g =>
    rw [plainText_singleton, List.flatMap_singleton]
    exact plain_glyph_sublist g
  | text => rw [plainText_singleton, Element.plain, toList_textOf]
  | escaped =>
    rw [plainText_singleton, Element.plain, toList_textOf, List.flatMap_append]
    exact List.sublist_append_right ..
  | @passthrough t shield =>
    rw [plainText_singleton, Construct.shielded, Element.plain, plainText_fragment, toList_textOf]
    exact sublist_between (List.Sublist.refl _) ..
  | callout | lineBreak | counter | image | icon | footnote | hiddenIndexTerm =>
    rw [plainText_singleton]
    exact List.nil_sublist _
  | special | symbol =>
    rw [plainText_singleton, Element.plain, flatMap_chars_spell]
  | @crossReference id gap label =>
    rw [plainText_singleton, Element.plain]
    cases label with
    | none =>
      rw [Option.map_none, Option.getD_none, toList_textOf]
      exact (sublist_between (List.Sublist.refl _) ..)
    | some label =>
      rw [Option.map_some, Option.getD_some, Option.map_some, preceded]
      have hlabel : (Text.trim (textOf label)).toList.Sublist (label.flatMap chars) :=
        toList_textOf label ▸ Text.toList_trim_sublist (textOf label)
      have hinner := sublist_between hlabel (spell "<<" ++ (id ++ (spell "," ++ gap))) (spell ">>")
      simpa only [List.append_assoc] using hinner
  | attributeReference =>
    rw [plainText_singleton, Element.plain, literalReference, String.toList_append,
      String.toList_append, toList_textOf, List.flatMap_append, List.flatMap_append,
      flatMap_chars_spell, flatMap_chars_spell, List.append_assoc]
  | wrapped wrapper _ _ _ hxs =>
    rw [plainText_singleton, plain_wrap]
    exact sublist_between hxs ..
  | @link o path args scheme =>
    rw [plainText_singleton, Element.plain, String.toList_append]
    have hscheme : (scheme.toList ++ (plainText (Glyph.content path)).toList).Sublist
        ((spell scheme ++ path).flatMap chars) := by
      rw [List.flatMap_append, flatMap_chars_spell]
      exact (List.Sublist.refl _).append (plainText_content_sublist path)
    have hinner := sublist_between hscheme o args
    rwa [List.append_assoc] at hinner
  | @documentReference path label =>
    rw [plainText_singleton, Element.plain]
    have hinner := sublist_between (plainText_content_sublist label)
      (spell "xref:" ++ (path ++ spell "[")) (spell "]")
    simpa only [List.append_assoc] using hinner
  | indexTerm =>
    rw [plainText_singleton, Element.plain]
    exact sublist_between (plainText_content_sublist _) ..

end Spells

namespace Fragment

variable {rule : Rule} {options : Options} {text : String} {parsed : List Element}

/-- Whatever a rule reads in a text, what is shown of it can be found in the text, character after
character and each only once. -/
theorem plainText_parse_sublist (accepted : parse rule options text = .ok parsed) :
    (plainText parsed).toList.Sublist text.toList := by
  by_cases hrule : rule = .attribution
  · subst hrule
    obtain ⟨author, ht, -, -, rfl⟩ := parse_attribution_eq_ok_iff.mp accepted
    rw [plainText_singleton, Element.plain, ht, String.toList_append]
    exact List.sublist_append_right ..
  · rw [parse_eq_ok hrule accepted, plainText_merge]
    have hread := (spells_read_construct options rule (scan text.toList)).plainText_sublist
    rwa [flatMap_chars_scan] at hread

theorem plainText_parse_nested :
    ∃ parsed, parse .quotes ⟨none⟩ "[.a]*b _c_ \\~d~*e" = .ok parsed ∧
      (plainText parsed).toList.Sublist "[.a]*b _c_ \\~d~*e".toList := by
  have clean : Clean "[.a]*b _c_ \\~d~*e" := by decide
  have accepted : parse .quotes ⟨none⟩ _ = .ok _ :=
    parse_of_clean (by decide) (by decide) clean ⟨none⟩
  exact ⟨_, accepted, plainText_parse_sublist accepted⟩

end Fragment

end Manuscript
