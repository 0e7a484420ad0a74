import Manuscript.Proofs.Dict
import Manuscript.Proofs.Line
import Manuscript.Proofs.Placeholder.Conservation

namespace Manuscript

open Glyph Reader

def Rule.Makes : Rule → Element → Prop
  | _, .text _ | _, .placeholder _ => True
  | .passthroughs, .passthrough .. => True
  | .callouts, .callout _ => True
  | .specials, .special _ | .specials, .crossReference .. => True
  | .quotes, .quoted .. | .quotes, .quotation .. => True
  | .attributes, .attributeReference _ | .attributes, .counter _ => True
  | .replacements, .symbol _ => True
  | .macros, .image .. | .macros, .link .. | .macros, .documentReference .. => True
  | .macros, .crossReference .. | .macros, .footnote .. | .macros, .icon .. => True
  | .macros, .indexTerm _ | .macros, .hiddenIndexTerm .. => True
  | .postReplacements, .lineBreak => True
  | _, _ => False

variable {rule : Rule} {options : Options}

theorem Rule.makes_text (rule : Rule) (s : String) : rule.Makes (.text s) := by
  cases rule <;> trivial

theorem Rule.makes_placeholder (rule : Rule) (reference : UInt32) :
    rule.Makes (.placeholder reference) := by
  cases rule <;> trivial

theorem Rule.makes_text_append (rule : Rule) (s t : String) :
    rule.Makes (.text (s ++ t)) ↔ rule.Makes (.text s) ∧ rule.Makes (.text t) :=
  iff_of_true (rule.makes_text _) ⟨rule.makes_text s, rule.makes_text t⟩

section Pieces

variable {p : Element → Prop}

theorem everywhere_of_children {x : Element} (h : p x)
    (hchildren : ∀ s ∈ x.children, Everywhere p s) (hheld : x.held = []) : Everywhere p [x] :=
  everywhere_singleton.mpr ⟨h, hchildren, fun s hs => by rw [hheld] at hs; cases hs⟩

theorem everywhere_merge_of_text (htext : ∀ s, p (.text s)) {xs : List Element} :
    Everywhere p (merge xs) ↔ Everywhere p xs :=
  everywhere_merge (fun s t => iff_of_true (htext _) ⟨htext s, htext t⟩) (htext "") xs

variable (htext : ∀ s, p (.text s)) (hplaceholder : ∀ reference, p (.placeholder reference))
include htext hplaceholder

theorem everywhere_glyph (g : Glyph) : Everywhere p [g.element] := by
  cases g with
  | char c => exact everywhere_leaf (htext _) rfl rfl
  | token digits => exact everywhere_leaf (hplaceholder _) rfl rfl

theorem everywhere_content (t : List Glyph) : Everywhere p (content t) :=
  (everywhere_merge_of_text htext).mpr (everywhere_map fun g _ => everywhere_glyph htext hplaceholder g)

end Pieces

theorem makes_merge {xs : List Element} :
    Everywhere rule.Makes (merge xs) ↔ Everywhere rule.Makes xs :=
  everywhere_merge_of_text rule.makes_text

theorem makes_glyph (rule : Rule) (g : Glyph) : Everywhere rule.Makes [g.element] :=
  everywhere_glyph rule.makes_text rule.makes_placeholder g

theorem mem_sequencesOf_ofList {entries : List (String × Value)} {s : List Element}
    (h : s ∈ sequencesOf (Dict.ofList entries).entries) : s ∈ sequencesOf entries := by
  rw [sequencesOf_eq_flatMap, List.mem_flatMap] at h ⊢
  obtain ⟨entry, he, hs⟩ := h
  exact ⟨entry, Dict.mem_ofList he, hs⟩

abbrev Reader.MakesUnder (rule : Rule) (r : Reader Element) : Prop :=
  r.Yields fun _ x => Everywhere rule.Makes [x]

theorem makes_wrap (wrapper : Wrapper) {xs : List Element} (h : Everywhere Rule.quotes.Makes xs) :
    Everywhere Rule.quotes.Makes [wrapper.wrap xs] := by
  cases wrapper with
  | quoted style roles =>
    refine everywhere_of_children trivial (List.forall_mem_cons.mpr ⟨h, ?_⟩) rfl
    rw [sequencesOf_roleAttributes]
    exact fun _ => nofun
  | quotation mark => exact everywhere_of_children trivial (List.forall_mem_singleton.mpr h) rfl

theorem quotable_makes : Quotable fun _ xs => Everywhere Rule.quotes.Makes xs where
  nil := everywhere_nil
  append hxs hys := everywhere_append.mpr ⟨hxs, hys⟩
  merged hxs := makes_merge.mpr hxs
  glyph := makes_glyph .quotes
  text _ := everywhere_leaf trivial rfl rfl
  escaped _ := everywhere_leaf trivial rfl rfl
  wrapped wrapper _ _ _ hxs _ := makes_wrap wrapper hxs

namespace Construct

theorem makes_passthrough : passthrough.MakesUnder .passthroughs :=
  yields_passthrough_of fun _ _ => everywhere_of_children trivial
    (List.forall_mem_singleton.mpr (everywhere_fragment trivial)) rfl

theorem makes_callout : callout.MakesUnder .callouts :=
  yields_callout_of fun _ => everywhere_leaf trivial rfl rfl

theorem makes_special : special.MakesUnder .specials :=
  yields_special_of (fun _ _ => everywhere_leaf trivial rfl rfl)
    fun _ _ => everywhere_leaf trivial rfl rfl

theorem makes_attributeOrCounter : attributeOrCounter.MakesUnder .attributes :=
  yields_attributeOrCounter_of (fun _ => everywhere_leaf trivial rfl rfl)
    (fun _ => everywhere_leaf trivial rfl rfl) fun _ => everywhere_leaf trivial rfl rfl

theorem makes_contractionElement (g : Glyph) :
    Everywhere Rule.replacements.Makes [contractionElement g] := by
  unfold contractionElement
  split
  · split <;> exact everywhere_leaf trivial rfl rfl
  · exact makes_glyph _ _

theorem makes_replacement :
    replacement.Yields fun _ xs => Everywhere Rule.replacements.Makes xs := by
  have hcontraction : contraction.Yields fun _ xs => Everywhere Rule.replacements.Makes xs :=
    .after fun _ => .after fun _ => .pure (everywhere_map fun g _ => makes_contractionElement g)
  refine .orElse (yields_single (.firstOf fun r hr => ?_)) hcontraction
  simp only [List.mem_cons, List.not_mem_nil, or_false] at hr
  rcases hr with rfl | rfl | rfl
  · refine .firstOf (List.forall_mem_map.mpr fun name _ => ?_)
    exact .after fun _ => .pure (everywhere_leaf trivial rfl rfl)
  · exact .after fun _ => .after fun _ => .pure (everywhere_leaf trivial rfl rfl)
  · exact .after fun _ => .after fun _ => .pure (everywhere_leaf trivial rfl rfl)

theorem makes_lineBreak : lineBreak.MakesUnder .postReplacements :=
  yields_lineBreak_of (everywhere_leaf trivial rfl rfl)

end Construct

namespace Macro

def withoutImage : List (Reader Element) :=
  [link Dict.ofList, bareLink Dict.ofList, documentReference, Construct.crossReference,
    footnote Dict.ofList, hiddenIndexTerm, indexTerm, icon]

theorem any_eq_firstOf (options : Options) :
    any Dict.ofList options = firstOf (image options :: withoutImage) := rfl

structure Covers (p : Element → Prop) : Prop where
  text (s : String) : p (.text s)
  placeholder (reference : UInt32) : p (.placeholder reference)
  link (location : Location Element) (attributes : Attributes) :
    (Element.link location attributes).Compact → p (.link location attributes)
  icon (name : String) (attributes : Attributes) :
    (Element.icon name attributes).Compact → p (.icon name attributes)
  crossReference (id : String) (label : Option String) : p (.crossReference id label)
  documentReference (location : Location Element) (label : List Element) :
    (Element.documentReference location label).Compact → p (.documentReference location label)
  footnote (reference : Option String) (content : List Element) :
    (Element.footnote reference content).Compact → p (.footnote reference content)
  indexTerm (term : List Element) : (Element.indexTerm term).Compact → p (.indexTerm term)
  hiddenIndexTerm (first : String) (second third : Option String) : p (.hiddenIndexTerm first second third)

theorem exists_content_of_arguments {t : List Glyph} {entries : List (String × Value)}
    (hargs : Arguments t entries) :
    ∀ s ∈ sequencesOf (Dict.ofList entries : Attributes).entries, ∃ u, s = Glyph.content u := by
  intro s hs
  replace hs := mem_sequencesOf_ofList hs
  cases hargs with
  | absent => exact absurd hs List.not_mem_nil
  | named _ hstrings =>
    rw [sequencesOf_onlyStrings hstrings] at hs
    cases hs
  | textual _ hstrings =>
    rw [sequencesOf, sequencesOf_onlyStrings hstrings] at hs
    exact ⟨_, List.mem_singleton.mp hs⟩

namespace Covers

variable {p : Element → Prop} (h : Covers p)
include h

theorem content (t : List Glyph) : Everywhere p (Glyph.content t) :=
  everywhere_content h.text h.placeholder t

theorem path {t : List Glyph} {path : List Element} (hpath : path = Glyph.content t) :
    Everywhere p path :=
  hpath ▸ h.content t

theorem everywhere_of_content {x : Element} (hx : x.Compact → p x)
    (hchildren : ∀ s ∈ x.children, ∃ t, s = Glyph.content t) (hheld : x.held = []) :
    Everywhere p [x] := by
  refine everywhere_of_children (hx (compact_of_children (fun s hs => ?_) hheld)) (fun s hs => ?_) hheld
  · obtain ⟨t, rfl⟩ := hchildren s hs
    exact merged_merge _
  · obtain ⟨t, rfl⟩ := hchildren s hs
    exact h.content t

theorem yields_bareLink : (bareLink Dict.ofList).Yields fun _ x => Everywhere p [x] := by
  refine .after fun scheme => yields_linkPath.bind fun t path hpath => ?_
  have hargs : (Reader.optional linkArguments).Yields fun t entries =>
      Arguments t (entries.getD []) := .optional yields_linkArguments .absent
  refine hargs.bind fun t entries hentries => .pure (h.everywhere_of_content (h.link _ _) ?_ rfl)
  exact List.forall_mem_cons.mpr ⟨⟨_, hpath⟩, exists_content_of_arguments hentries⟩

theorem yields_link : (Macro.link Dict.ofList).Yields fun _ x => Everywhere p [x] := by
  refine .after fun _ => .after fun scheme => yields_path.bind fun t path hpath => ?_
  refine yields_linkArguments.bind fun t entries hentries =>
    .pure (h.everywhere_of_content (h.link _ _) ?_ rfl)
  exact List.forall_mem_cons.mpr ⟨⟨_, hpath⟩, exists_content_of_arguments hentries⟩

theorem yields_icon : Macro.icon.Yields fun _ x => Everywhere p [x] := by
  refine .after fun _ => .after fun name => ?_
  refine yields_arguments.bind fun t as ⟨_, has⟩ => .pure (h.everywhere_of_content (h.icon _ _) ?_ rfl)
  rw [Element.children, sequencesOf_onlyStrings (onlyStrings_ofList (onlyStrings_entries _ _ has))]
  exact List.forall_mem_nil _

theorem yields_documentReference :
    Macro.documentReference.Yields fun _ x => Everywhere p [x] := by
  refine .after fun _ => yields_path.bind fun t path hpath => .after fun _ => ?_
  have hlabel : (Reader.optional wholeLabel).Yields fun t label => label.getD [] = Glyph.content t :=
    .optional (yields_content : wholeLabel.Yields _) rfl
  refine hlabel.bind fun l label hl => .after fun _ =>
    .pure (h.everywhere_of_content (h.documentReference _ _) ?_ rfl)
  exact List.forall_mem_cons.mpr ⟨⟨_, hpath⟩, List.forall_mem_singleton.mpr ⟨_, hl⟩⟩

theorem yields_noteContent :
    (noteContent Dict.ofList).Yields fun _ xs => Merged xs ∧ Everywhere p xs := by
  have hitem : (firstOf [token, bareLink Dict.ofList, noteText]).Yields
      fun _ x => Everywhere p [x] := by
    refine .firstOf fun r hr => ?_
    simp only [List.mem_cons, List.not_mem_nil, or_false] at hr
    rcases hr with rfl | rfl | rfl
    · exact yields_token_of fun _ => everywhere_leaf (h.placeholder _) rfl rfl
    · exact h.yields_bareLink
    · exact .after fun _ => .pure (everywhere_leaf (h.text _) rfl rfl)
  refine hitem.many.bind fun t xs hxs =>
    .pure ⟨merged_merge xs, (everywhere_merge_of_text h.text).mpr ?_⟩
  induction hxs with
  | nil => exact everywhere_nil
  | cons hx _ ih => exact everywhere_append.mpr ⟨hx, ih⟩

theorem yields_footnote : (Macro.footnote Dict.ofList).Yields fun _ x => Everywhere p [x] := by
  refine .after fun _ => .after fun name => .after fun _ => ?_
  refine h.yields_noteContent.bind fun t xs ⟨hmerged, hxs⟩ => .after fun _ => .pure ?_
  have hcompact : (Element.footnote (name.map textOf) xs).Compact :=
    compact_of_children (List.forall_mem_singleton.mpr hmerged) rfl
  exact everywhere_of_children (h.footnote _ _ hcompact) (List.forall_mem_singleton.mpr hxs) rfl

theorem yields_indexTerm : Macro.indexTerm.Yields fun _ x => Everywhere p [x] :=
  .after fun _ => .after fun _ => .after fun _ => .after fun _ =>
    .pure (h.everywhere_of_content (h.indexTerm _) (List.forall_mem_singleton.mpr ⟨_, rfl⟩) rfl)

theorem yields_hiddenIndexTerm : Macro.hiddenIndexTerm.Yields fun _ x => Everywhere p [x] :=
  .after fun _ => .after fun _ => .after fun _ => .after fun _ =>
    .pure (everywhere_leaf (h.hiddenIndexTerm ..) rfl rfl)

theorem yields_withoutImage : ∀ r ∈ withoutImage, r.Yields fun _ x => Everywhere p [x] := by
  intro r hr
  simp only [withoutImage, List.mem_cons, List.not_mem_nil, or_false] at hr
  rcases hr with rfl | rfl | rfl | rfl | rfl | rfl | rfl | rfl
  · exact h.yields_link
  · exact h.yields_bareLink
  · exact h.yields_documentReference
  · exact Construct.yields_crossReference_of fun _ _ =>
      everywhere_leaf (h.crossReference ..) rfl rfl
  · exact h.yields_footnote
  · exact h.yields_hiddenIndexTerm
  · exact h.yields_indexTerm
  · exact h.yields_icon

end Covers

theorem covers_makes : Covers Rule.macros.Makes where
  text _ := trivial
  placeholder _ := trivial
  link _ _ _ := trivial
  icon _ _ _ := trivial
  crossReference _ _ := trivial
  documentReference _ _ _ := trivial
  footnote _ _ _ := trivial
  indexTerm _ _ := trivial
  hiddenIndexTerm _ _ _ := trivial

theorem makes_image : (image options).MakesUnder .macros := by
  refine .after fun _ => .after fun _ => yields_path.bind fun t path hpath => ?_
  refine yields_arguments.bind fun t as ⟨_, has⟩ => .pure (everywhere_of_children trivial ?_ rfl)
  rw [Element.children, sequencesOf_onlyStrings (onlyStrings_imageAttributes has)]
  exact List.forall_mem_singleton.mpr (everywhere_path_below (Rule.makes_text_append _)
    (Rule.makes_text _ _) (Rule.makes_text _ _) (covers_makes.path hpath))

theorem makes_any : (any Dict.ofList options).MakesUnder .macros := by
  rw [any_eq_firstOf]
  exact .firstOf (List.forall_mem_cons.mpr ⟨makes_image, covers_makes.yields_withoutImage⟩)

end Macro

namespace Fragment

theorem makes_construct (options : Options) (rule : Rule) :
    (construct options rule).Yields fun _ xs => Everywhere rule.Makes xs := by
  cases rule with
  | passthroughs => exact Construct.yields_single Construct.makes_passthrough
  | callouts => exact Construct.yields_single Construct.makes_callout
  | specials => exact Construct.yields_single Construct.makes_special
  | quotes => exact Construct.yields_single (Quote.yields_quote quotable_makes)
  | attributes => exact Construct.yields_single Construct.makes_attributeOrCounter
  | replacements => exact Construct.makes_replacement
  | macros => exact Construct.yields_single Macro.makes_any
  | postReplacements => exact Construct.yields_single Construct.makes_lineBreak
  | plain => exact .fail
  | attribution => exact .fail

theorem makes_read (options : Options) (rule : Rule) (glyphs : List Glyph) :
    Everywhere rule.Makes (read (construct options rule) glyphs) :=
  @relates_read (fun _ xs => Everywhere rule.Makes xs) everywhere_nil
    (fun _ _ _ _ hxs hys => everywhere_append.mpr ⟨hxs, hys⟩) (makes_glyph rule)
    (fun _ _ => everywhere_leaf (rule.makes_text _) rfl rfl) _ (makes_construct options rule) glyphs

theorem makes_parse {text : String} {parsed : List Element}
    (h : parse rule options text = .ok parsed) : Everywhere rule.Makes parsed := by
  by_cases hattribution : rule = .attribution
  · subst hattribution
    obtain ⟨author, -, -, -, rfl⟩ := parse_attribution_eq_ok_iff.mp h
    exact everywhere_leaf trivial rfl rfl
  · rw [parse_eq_ok hattribution h, makes_merge]
    exact makes_read options rule _

end Fragment

end Manuscript
