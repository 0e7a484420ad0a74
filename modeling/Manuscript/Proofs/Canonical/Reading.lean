import Manuscript.Proofs.Markup.Kinds

namespace Manuscript

open Glyph Reader

variable {rule : Rule} {options : Options} {x : Element} {xs : List Element}

section Pieces

theorem compact_leaf (hchildren : x.children = []) (hheld : x.held = []) : x.Compact :=
  compact_of_children (hchildren ▸ List.forall_mem_nil _) hheld

theorem compact_text (s : String) : (Element.text s).Compact := compact_leaf rfl rfl

theorem compact_merge : Everywhere Element.Compact (merge xs) ↔ Everywhere Element.Compact xs :=
  everywhere_merge_of_text compact_text

theorem canonical_merge (h : Everywhere Element.Compact xs) : Canonical (merge xs) :=
  ⟨merged_merge xs, compact_merge.mpr h⟩

theorem merged_fragment (s : String) : Merged (fragment s) := by
  rw [fragment]
  split
  · exact .nil
  · next hs => exact .text hs

theorem merged_path_below {directory : String} {location : Location Element}
    (h : Merged location.path) : Merged (Location.below directory location).path := by
  rcases Location.below_cases directory location with hsame | hmoved
  · rw [hsame]
    exact h
  · rw [hmoved]
    exact merged_merge _

end Pieces

def Rule.Flat (rule : Rule) : Prop :=
  rule ≠ .passthroughs ∧ rule ≠ .quotes ∧ rule ≠ .macros

theorem compact_of_makes (hrule : rule.Flat) (h : rule.Makes x) : x.Compact := by
  obtain ⟨hpassthroughs, hquotes, hmacros⟩ := hrule
  cases rule
  case passthroughs => exact absurd rfl hpassthroughs
  case quotes => exact absurd rfl hquotes
  case macros => exact absurd rfl hmacros
  all_goals cases x <;> first | exact compact_leaf rfl rfl | cases h

theorem compact_passthrough :
    Construct.passthrough.Yields fun _ x => Everywhere Element.Compact [x] :=
  Construct.yields_passthrough_of fun _ _ => everywhere_of_children
    (compact_of_children (List.forall_mem_singleton.mpr (merged_fragment _)) rfl)
    (List.forall_mem_singleton.mpr (everywhere_fragment (compact_text _))) rfl

theorem compact_wrap (wrapper : Wrapper) (hmerged : Merged xs) (h : Everywhere Element.Compact xs) :
    Everywhere Element.Compact [wrapper.wrap xs] := by
  cases wrapper with
  | quoted style roles =>
    have hchildren {P : List Element → Prop} (hxs : P xs) :
        ∀ s ∈ (Element.quoted style (roleAttributes roles) xs).children, P s := by
      rw [Element.children, sequencesOf_roleAttributes]
      exact List.forall_mem_singleton.mpr hxs
    exact everywhere_of_children (compact_of_children (hchildren hmerged) rfl) (hchildren h) rfl
  | quotation mark =>
    exact everywhere_of_children (compact_of_children (List.forall_mem_singleton.mpr hmerged) rfl)
      (List.forall_mem_singleton.mpr h) rfl

theorem quotable_compact : Quotable fun _ xs => Everywhere Element.Compact xs where
  nil := everywhere_nil
  append hxs hys := everywhere_append.mpr ⟨hxs, hys⟩
  merged hxs := compact_merge.mpr hxs
  glyph := everywhere_glyph compact_text fun _ => compact_leaf rfl rfl
  text _ := everywhere_leaf (compact_text _) rfl rfl
  escaped _ := everywhere_leaf (compact_text _) rfl rfl
  wrapped wrapper _ hmerged _ hxs _ := compact_wrap wrapper hmerged hxs

namespace Macro

theorem covers_compact : Covers Element.Compact where
  text := compact_text
  placeholder _ := compact_leaf rfl rfl
  link _ _ := id
  icon _ _ := id
  crossReference _ _ := compact_leaf rfl rfl
  documentReference _ _ := id
  footnote _ _ := id
  indexTerm _ := id
  hiddenIndexTerm _ _ _ := compact_leaf rfl rfl

theorem compact_image : (image options).Yields fun _ x => Everywhere Element.Compact [x] := by
  refine .after fun _ => .after fun _ => yields_path.bind fun t path hpath => ?_
  refine yields_arguments.bind fun t as ⟨_, has⟩ => .pure ?_
  have hmerged : Merged path := hpath ▸ merged_merge _
  have hinside : Everywhere Element.Compact path := covers_compact.path hpath
  have hstrings (location : Location Element) :
      sequencesOf (imageAttributes location as).entries = [] :=
    sequencesOf_onlyStrings (onlyStrings_imageAttributes has)
  refine everywhere_of_children (compact_of_children ?_ rfl) ?_ rfl
  · rw [Element.children, hstrings]
    exact List.forall_mem_singleton.mpr (merged_path_below hmerged)
  · rw [Element.children, hstrings]
    exact List.forall_mem_singleton.mpr (everywhere_path_below
      (fun s t => iff_of_true (compact_text _) ⟨compact_text s, compact_text t⟩) (compact_text _)
      (compact_text _) hinside)

theorem compact_any : (any Dict.ofList options).Yields fun _ x => Everywhere Element.Compact [x] := by
  rw [any_eq_firstOf]
  exact .firstOf (List.forall_mem_cons.mpr ⟨compact_image, covers_compact.yields_withoutImage⟩)

end Macro

namespace Fragment

theorem compact_construct (options : Options) (rule : Rule) :
    (construct options rule).Yields fun _ xs => Everywhere Element.Compact xs := by
  by_cases hrule : rule.Flat
  · exact (makes_construct options rule).mono fun _ _ h => h.mono fun _ => compact_of_makes hrule
  · cases rule
    case passthroughs => exact Construct.yields_single compact_passthrough
    case quotes => exact Construct.yields_single (Quote.yields_quote quotable_compact)
    case macros => exact Construct.yields_single Macro.compact_any
    all_goals exact absurd (by simp [Rule.Flat]) hrule

theorem compact_read (options : Options) (rule : Rule) (glyphs : List Glyph) :
    Everywhere Element.Compact (read (construct options rule) glyphs) :=
  @relates_read (fun _ xs => Everywhere Element.Compact xs) everywhere_nil
    (fun _ _ _ _ hxs hys => everywhere_append.mpr ⟨hxs, hys⟩)
    (everywhere_glyph compact_text fun _ => compact_leaf rfl rfl)
    (fun _ _ => everywhere_leaf (compact_text _) rfl rfl) _ (compact_construct options rule) glyphs

theorem canonical_parse {text : String} {parsed : List Element}
    (h : parse rule options text = .ok parsed) : Canonical parsed := by
  by_cases hrule : rule = .attribution
  · subst hrule
    obtain ⟨author, -, hne, -, rfl⟩ := parse_attribution_eq_ok_iff.mp h
    exact ⟨.text hne, everywhere_leaf (compact_text author) rfl rfl⟩
  · rw [parse_eq_ok hrule h]
    exact canonical_merge (compact_read options rule _)

end Fragment

end Manuscript
