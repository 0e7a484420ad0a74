import Manuscript.Proofs.Canonical.Reading
import Manuscript.Proofs.Escaping.Reading
import Manuscript.Proofs.Markup.Callouts
import Manuscript.Proofs.Rereading.Lines

namespace Manuscript

open Glyph Pending Reader

theorem Spells.mem_of_mem_outline {keep : Macro.Keep} {options : Options} {t : List Glyph}
    {xs : List Element} (h : Spells keep options t xs) :
    ∀ c, some c ∈ outline xs → Glyph.char c ∈ t := by
  have hchars {u : List Glyph} (hu : Plain u) (c : Char) (hc : some c ∈ outline [.text (textOf u)]) :
      Glyph.char c ∈ u := by
    rw [outline_textOf hu] at hc
    obtain ⟨g, hg, he⟩ := List.mem_map.mp hc
    cases g <;> simp_all [char?]
  induction h with
  | nil => exact fun c hc => absurd hc List.not_mem_nil
  | append _ _ ht hu =>
    intro c hc
    rw [outline_append] at hc
    exact List.mem_append.mpr ((List.mem_append.mp hc).imp (ht c) (hu c))
  | merged _ ih => rwa [outline_merge]
  | glyph g => cases g <;> simp [outline, Element.outline, element]
  | text ht => exact hchars ht
  | escaped ht => exact fun c hc => List.mem_append_right _ (hchars ht c hc)
  | wrapped wrapper => cases wrapper <;> simp [Wrapper.wrap, outline, Element.outline]
  | _ => simp [Construct.shielded, outline, Element.outline]

namespace Fragment

variable {rule : Rule} {options : Options} {parsed : List Element} {s t : String}

theorem mem_scan_of_mem_outline (hrule : rule ≠ .attribution)
    (h : parse rule options s = .ok parsed) {c : Char} (hc : some c ∈ outline parsed) :
    Glyph.char c ∈ scan s.toList := by
  rw [parse_eq_ok hrule h, outline_merge] at hc
  exact (spells_read_construct options rule _).mem_of_mem_outline c hc

theorem clean_of_mem_parse (hrule : rule ≠ .attribution) (hs : Clean s)
    (h : parse rule options s = .ok parsed) (ht : .text t ∈ parsed) : Clean t := by
  intro hmem
  have hshown : some reservedChar ∈ outline parsed :=
    (infix_outline_of_mem ht).subset (List.mem_map_of_mem hmem)
  have hchar := mem_scan_of_mem_outline hrule h hshown
  rw [scan_of_clean hs] at hchar
  obtain ⟨c, hc, he⟩ := List.mem_map.mp hchar
  exact hs (Glyph.char.inj he ▸ hc)

structure Leaves (rule : Rule) (options : Options) : Prop where
  alone {s : String} {parsed : List Element} : Clean s → parse rule options s = .ok parsed →
    ∀ t, .text t ∈ parsed → parse rule options t = .ok [.text t]
  within {s : String} {parsed : List Element} {u : List Glyph} :
    parse rule options s = .ok parsed → u.map char? = outline parsed →
    (∀ digits ∈ numerals u, inRange digits) →
    outOfRange? rule 0 u = none ∧ merge (read (construct options rule) u) = content u

theorem outline_eq_nil_or_gap {xs : List Element} (h : ∀ x ∈ xs.getLast?, x.isText = false) :
    outline xs = [] ∨ ∃ o, outline xs = o ++ [none] := by
  rcases List.eq_nil_or_concat xs with rfl | ⟨before, x, rfl⟩
  · exact .inl rfl
  · have hx : x.isText = false := h x (by simp)
    refine .inr ⟨outline before, ?_⟩
    rw [List.concat_eq_append, outline_append, outline_singleton, Element.outline_of_not_isText hx]

theorem outline_text_of_cut {P : List (Option Char) → Prop}
    (hcut : ∀ a b, P (a ++ none :: b) → P a ∧ P b) (hmerged : Merged parsed)
    (ht : .text t ∈ parsed) (h : P (outline parsed)) : P (t.toList.map some) := by
  obtain ⟨before, after, rfl⟩ := List.append_of_mem ht
  obtain ⟨hbefore, hafter⟩ := hmerged.around_text
  have hrest : P (t.toList.map some ++ outline after) := by
    rw [outline_append, outline_cons] at h
    rcases outline_eq_nil_or_gap hbefore with hnone | ⟨o, ho⟩
    · rwa [hnone] at h
    · rw [ho, List.append_assoc] at h
      exact (hcut _ _ h).2
  cases after with
  | nil => rwa [outline, List.flatMap_nil, List.append_nil] at hrest
  | cons x rest =>
    rw [outline_cons, Element.outline_of_not_isText (hafter x rfl)] at hrest
    exact (hcut _ _ hrest).1

theorem takesNone_of_needs {construct : Reader (List Element)} {cs : List Char}
    (h : construct.Needs cs) {glyphs : List Glyph} (hno : ∀ c, Glyph.char c ∈ glyphs → c ∉ cs) :
    takesNone construct glyphs := by
  refine List.all_eq_true.mpr fun u hu => ?_
  rw [Bool.or_eq_true, Option.isNone_iff_eq_none]
  refine .inr (h.run_eq_none fun c hc => hno c ?_)
  exact ((List.mem_tails _ _).mp hu).subset hc

end Fragment

namespace Fragment

variable {options : Options} {parsed : List Element} {s : String}

theorem exists_text_of_mem_outline {c : Char} {xs : List Element} (h : some c ∈ outline xs) :
    ∃ t, .text t ∈ xs ∧ c ∈ t.toList := by
  obtain ⟨x, hx, hc⟩ := List.mem_flatMap.mp h
  cases htext : x.isText with
  | true =>
    obtain ⟨t, rfl⟩ := eq_text_of_isText htext
    obtain ⟨d, hd, he⟩ := List.mem_map.mp hc
    exact ⟨t, hx, Option.some.inj he ▸ hd⟩
  | false =>
    rw [Element.outline_of_not_isText htext] at hc
    cases List.mem_singleton.mp hc

theorem map_char?_spell (s : String) : (spell s).map char? = s.toList.map some := by
  rw [spell, List.map_map]
  rfl

theorem content_spell (hs : s ≠ "") : content (spell s) = [.text s] :=
  (merge_chars s).trans (Merged.text hs).merge_eq

theorem takesNone_specials {u : List Glyph} (h : ∀ c, Glyph.char c ∈ u → isRaw c = false) :
    takesNone (construct options .specials) u := by
  have hraw : ∀ c ∈ ['<', '>', '&'], isRaw c = true := by decide
  refine takesNone_of_needs (opens_special.bind.needs (List.Subset.refl _)) fun c hc hmem => ?_
  exact absurd (hraw c hmem) (by simp [h c hc])

theorem leaves_specials : Leaves .specials options where
  alone {s parsed} hs h t ht := by
    have hsafe : Safe t := escaped_text.mp (everywhere_iff.mp (escaped_parse_specials h) _ ht).1
    have hne : t ≠ "" := fun he => (canonical_parse h).merged.nonempty (he ▸ ht)
    refine parse_of_takesNone (by decide) (by decide) hne (clean_of_mem_parse (by decide) hs h ht)
      (takesNone_specials fun c hc => ?_)
    obtain ⟨d, hd, he⟩ := List.mem_map.mp hc
    exact Glyph.char.inj he ▸ hsafe d hd
  within {s parsed u} h hu hrange := by
    refine ⟨outOfRange?_eq_none (by decide) hrange 0,
      merge_read_of_takesNone (takesNone_specials fun c hc => ?_)⟩
    have hshown : some c ∈ outline parsed := hu ▸ List.mem_map_of_mem hc
    obtain ⟨t, ht, hmem⟩ := exists_text_of_mem_outline hshown
    exact escaped_text.mp (everywhere_iff.mp (escaped_parse_specials h) _ ht).1 c hmem

end Fragment

def calloutOutline (digits : List Char) : List (Option Char) :=
  ('<' :: (digits ++ ['>'])).map some

theorem map_char?_callout (digits : List Char) :
    (Numeral.callout digits).glyphs.map char? = calloutOutline digits := by
  rw [Numeral.glyphs_callout, List.map_map]
  rfl

inductive Ends (gaps : Bool) : List (Option Char) → Prop
  | finish : Ends gaps []
  | newline {c : Char} {o : List (Option Char)} : Cause.isNewline c → Ends gaps (some c :: o)
  | gap {o : List (Option Char)} : gaps → Ends gaps (none :: o)
  | space {o : List (Option Char)} : Ends gaps o → Ends gaps (some ' ' :: o)
  | callout {digits : List Char} {o : List (Option Char)} : digits ≠ [] →
      (∀ d ∈ digits, d.isDigit) → Ends gaps o → Ends gaps (calloutOutline digits ++ o)

def Uncalled (gaps : Bool) (o : List (Option Char)) : Prop :=
  ∀ before digits after, o = before ++ (calloutOutline digits ++ after) → digits ≠ [] →
    (∀ d ∈ digits, d.isDigit) → ¬ Ends gaps after

theorem Ends.append_gap {a : List (Option Char)} (h : Ends true a) (b : List (Option Char)) :
    Ends true (a ++ none :: b) := by
  induction h with
  | finish => exact .gap rfl
  | newline hc => exact .newline hc
  | gap h => exact .gap h
  | space _ ih => exact .space ih
  | callout hne hdigits _ ih =>
    rw [List.append_assoc]
    exact .callout hne hdigits ih

theorem Uncalled.of_cut {a b : List (Option Char)} (h : Uncalled true (a ++ none :: b)) :
    Uncalled true a ∧ Uncalled true b := by
  constructor
  · rintro before digits after rfl hne hdigits hends
    refine h before digits (after ++ none :: b) ?_ hne hdigits (hends.append_gap b)
    simp only [List.append_assoc]
  · rintro before digits after rfl hne hdigits
    refine h (a ++ none :: before) digits after ?_ hne hdigits
    simp only [List.append_assoc, List.cons_append]

inductive Hides : List Glyph → List (Option Char) → Prop
  | nil : Hides [] []
  | token (digits : List Char) {t : List Glyph} {o : List (Option Char)} : Hides t o →
      Hides (.token digits :: t) (none :: o)
  | callout {digits : List Char} {t : List Glyph} {o : List (Option Char)} : ClosesLine t →
      digits ≠ [] → (∀ d ∈ digits, d.isDigit) → Hides t o →
      Hides ((Numeral.callout digits).glyphs ++ t) (none :: o)
  | char {c : Char} {t : List Glyph} {o : List (Option Char)} :
      Construct.calloutNumber.run (.char c :: t) = none → Hides t o →
      Hides (.char c :: t) (some c :: o)

namespace Hides

variable {t : List Glyph} {o : List (Option Char)} {c : Char} {cs : List Char}

theorem chars (h : Hides t (cs.map some ++ o)) : ∃ u, t = cs.map .char ++ u ∧ Hides u o := by
  induction cs generalizing t with
  | nil => exact ⟨t, rfl, h⟩
  | cons c cs ih =>
    obtain _ | _ | _ | ⟨hnone, hrest⟩ := h
    obtain ⟨u, rfl, hu⟩ := ih hrest
    exact ⟨u, rfl, hu⟩

theorem callout_of {digits : List Char} (h : Hides t (calloutOutline digits ++ o)) :
    ∃ u, t = (Numeral.callout digits).glyphs ++ u ∧ Hides u o := by
  rw [Numeral.glyphs_callout]
  exact chars h

theorem closesLine {gaps : Bool} (h : Ends gaps o) (ht : Hides t o)
    (htokens : gaps → numerals t = []) : ClosesLine t := by
  induction h generalizing t with
  | finish =>
    cases ht
    exact .finish rfl
  | newline hc =>
    cases ht
    exact .finish hc
  | gap hgaps =>
    cases ht with
    | token digits _ => cases htokens hgaps
    | callout hcloses hne hdigits _ => exact .callout hne hdigits hcloses
  | space _ ih =>
    obtain _ | _ | _ | ⟨hnone, hrest⟩ := ht
    exact .space (ih hrest htokens)
  | callout hne hdigits _ ih =>
    obtain ⟨u, rfl, hu⟩ := callout_of ht
    refine .callout hne hdigits (ih hu fun hgaps => ?_)
    have hall := htokens hgaps
    rw [numerals_append] at hall
    exact (List.append_eq_nil_iff.mp hall).2

theorem uncalled {gaps : Bool} (ht : Hides t o) (htokens : gaps → numerals t = []) :
    Uncalled gaps o := by
  intro before digits after he hne hdigits hends
  induction ht generalizing before with
  | nil => simp [calloutOutline] at he
  | token ds _ ih =>
    cases before with
    | nil => cases he
    | cons _ before => exact ih (fun hgaps => by cases htokens hgaps) before (List.cons.inj he).2
  | @callout ds t o hcloses hne hdigits' hrest ih =>
    cases before with
    | nil => cases he
    | cons _ before =>
      refine ih (fun hgaps => ?_) before (List.cons.inj he).2
      have hall := htokens hgaps
      rw [numerals_append] at hall
      exact (List.append_eq_nil_iff.mp hall).2
  | @char c t o hnone hrest ih =>
    cases before with
    | nil =>
      rw [List.nil_append] at he
      obtain ⟨u, hu, hhides⟩ := callout_of (he ▸ Hides.char hnone hrest)
      have hcloses : ClosesLine u := by
        refine closesLine hends hhides fun hgaps => ?_
        have hall := htokens hgaps
        rw [hu, numerals_append] at hall
        exact (List.append_eq_nil_iff.mp hall).2
      rw [Construct.run_calloutNumber_eq_some_iff.mpr ⟨hu, hne, hdigits, hcloses⟩] at hnone
      cases hnone
    | cons _ before => exact ih (fun hgaps => htokens hgaps) before (List.cons.inj he).2

end Hides

theorem Settled.hides {pieces : List Piece} (h : Settled pieces) :
    Hides (pieces.flatMap Piece.glyphs) (outline (pieces.map Piece.element)) := by
  induction h with
  | nil => exact .nil
  | @glyph g pieces hnone _ ih =>
    cases g with
    | char c =>
      have houtline : (Element.text (String.singleton c)).outline = [some c] := by
        simp [Element.outline]
      rw [List.map_cons, outline_cons, Piece.element, element, houtline]
      exact .char hnone ih
    | token digits => exact .token digits ih
  | callout hne hdigits hcloses _ ih => exact .callout hcloses hne hdigits ih

namespace Fragment

variable {options : Options} {gaps : Bool} {u : List Glyph}

theorem hides_read (glyphs : List Glyph) :
    Hides glyphs (outline (read (construct options .callouts) glyphs)) := by
  obtain ⟨pieces, hsettled, rfl, hmerge⟩ := exists_settled_read options glyphs
  rw [← outline_merge, hmerge, outline_merge]
  exact hsettled.hides

theorem ends_of_closesLine (h : ClosesLine u) : Ends gaps (u.map char?) := by
  induction h with
  | @finish rest hend =>
    rcases rest with _ | ⟨c | digits, rest⟩
    · exact .finish
    · exact .newline hend
    · cases hend
  | space _ ih => exact .space ih
  | callout hne hdigits _ ih =>
    rw [List.map_append, map_char?_callout]
    exact .callout hne hdigits ih

theorem not_marked_of_uncalled (h : Uncalled gaps (u.map char?)) {before : List Glyph}
    {digits : List Char} : ¬ MarkedAt .callouts u before (.callout digits) := by
  rintro ⟨after, rfl, -, hne, hdigits, hcloses⟩
  refine h (before.map char?) digits (after.map char?) ?_ hne hdigits (ends_of_closesLine hcloses)
  rw [List.map_append, List.map_append, map_char?_callout]

theorem takesNone_callouts (h : Uncalled gaps (u.map char?)) :
    takesNone (construct options .callouts) u := by
  refine List.all_eq_true.mpr fun v hv => ?_
  obtain ⟨before, rfl⟩ := (List.mem_tails _ _).mp hv
  rw [Bool.or_eq_true, Option.isNone_iff_eq_none]
  cases hrun : (construct options .callouts).run v with
  | none => exact .inr rfl
  | some found =>
    obtain ⟨digits, -, hnumber⟩ := run_callouts_eq_some hrun
    obtain ⟨rfl, hstands⟩ := Construct.run_calloutNumber_eq_some_iff.mp hnumber
    exact absurd ⟨found.2, rfl, rfl, hstands⟩ (not_marked_of_uncalled h)

theorem outOfRange?_of_uncalled (h : Uncalled gaps (u.map char?))
    (hrange : ∀ digits ∈ numerals u, inRange digits) : outOfRange? .callouts 0 u = none := by
  refine outOfRange?_eq_none_iff.mpr fun before mark hmark => ?_
  cases mark with
  | callout digits => exact absurd hmark (not_marked_of_uncalled h)
  | token digits =>
    obtain ⟨after, rfl, -⟩ := hmark
    refine hrange digits ?_
    rw [numerals_append]
    exact List.mem_append_right _ List.mem_cons_self

theorem leaves_callouts : Leaves .callouts options where
  alone {s parsed} hs h t ht := by
    have hne : t ≠ "" := fun he => (canonical_parse h).merged.nonempty (he ▸ ht)
    have hclean := clean_of_mem_parse (by decide) hs h ht
    have huncalled : Uncalled true (outline parsed) := by
      rw [parse_eq_ok (by decide) h, outline_merge, scan_of_clean hs]
      exact (hides_read _).uncalled fun _ => numerals_spell s
    have htext := outline_text_of_cut (fun _ _ => Uncalled.of_cut) (canonical_parse h).merged ht
      huncalled
    rw [← map_char?_spell, ← scan_of_clean hclean] at htext
    have hrange : outOfRange? .callouts 0 (scan t.toList) = none := by
      refine outOfRange?_of_uncalled htext ?_
      rw [scan_of_clean hclean, numerals_spell]
      exact List.forall_mem_nil _
    rw [parse_of_inRange (by decide) hrange, merge_read_of_takesNone (takesNone_callouts htext),
      scan_of_clean hclean, content_spell hne]
  within {s parsed u} h hu hrange := by
    have huncalled : Uncalled false (u.map char?) := by
      rw [hu, parse_eq_ok (by decide) h, outline_merge]
      exact (hides_read _).uncalled fun hgaps => absurd hgaps Bool.false_ne_true
    exact ⟨outOfRange?_of_uncalled huncalled hrange,
      merge_read_of_takesNone (takesNone_callouts huncalled)⟩

end Fragment

end Manuscript
