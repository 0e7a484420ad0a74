import Manuscript.Proofs.Markup.Mapping
import Manuscript.Proofs.Markup.Visible

namespace Manuscript

open Glyph Reader

def Element.written : Element → String
  | .text s => s
  | .special name => name
  | .symbol name => name
  | .lineBreak => " +"
  | .passthrough shield content => shield.opening ++ (plainText content ++ shield.closing)
  | _ => ""

def written : List Element → String
  | [] => ""
  | element :: rest => element.written ++ written rest

theorem written_pushText (s : String) (elements : List Element) :
    written (pushText s elements) = s ++ written elements := by
  fun_cases pushText s elements with
  | case1 t rest => rw [written, written, Element.written, Element.written, String.append_assoc]
  | case2 elements _ h => rw [h, String.empty_append]
  | case3 => rw [written, Element.written]

theorem written_merge (elements : List Element) : written (merge elements) = written elements := by
  fun_induction merge elements with
  | case1 => rfl
  | case2 s rest ih => rw [written_pushText, ih, written, Element.written]
  | case3 element rest _ ih => rw [written, ih, written]

theorem Verbatim.written_eq {t : List Glyph} {x : Element} (h : Verbatim t x) :
    x.written = textOf t := by
  cases h with
  | text => rfl
  | passthrough shield =>
    rw [Construct.shielded, Element.written, plainText_fragment, textOf_append, textOf_append,
      textOf_spell, textOf_spell]
  | special | symbol | lineBreak => rw [Element.written, textOf_spell]

theorem written_of_repeats {t : List Glyph} {xs : List Element} (h : Repeats Verbatim t xs) :
    written xs = textOf t := by
  induction h with
  | nil => rfl
  | cons hx _ ih => rw [written, hx.written_eq, ih, textOf_append]

namespace Fragment

theorem repeats_read {construct : Reader (List Element)}
    (h : construct.Yields (Repeats Verbatim)) {glyphs : List Glyph} (hplain : Plain glyphs) :
    Repeats Verbatim glyphs (read construct glyphs) := by
  have happend (t u : List Glyph) (xs ys : List Element) (ht : Plain t → Repeats Verbatim t xs)
      (hu : Plain u → Repeats Verbatim u ys) (h : Plain (t ++ u)) :
      Repeats Verbatim (t ++ u) (xs ++ ys) :=
    (ht (plain_append.mp h).1).append (hu (plain_append.mp h).2)
  have hglyph (g : Glyph) (h : Plain [g]) : Repeats Verbatim [g] [g.element] := by
    obtain ⟨c, rfl, hc⟩ := (plain_cons.mp h).1
    exact .singleton (Construct.verbatim_char hc)
  exact relates_read (fun _ => .nil) happend hglyph (fun t ht _ => .singleton (.text ht))
    (h.mono fun _ _ hverbatim _ => hverbatim) glyphs hplain

theorem read_congr {construct other : Reader (List Element)} {glyphs : List Glyph}
    (h : ∀ rest, rest <:+ glyphs → construct.run rest = other.run rest) :
    read construct glyphs = read other glyphs := by
  fun_induction read construct glyphs with
  | case1 => rw [read]
  | case2 digits rest ih =>
    rw [read, ih fun u hu => h u (hu.trans (List.suffix_cons _ _))]
  | case3 c rest elements left htake ih =>
    rw [read, ← take?_congr (h _ (List.suffix_refl _)), htake]
    exact congrArg (elements ++ ·) (ih fun u hu => h u (hu.trans left.suffix))
  | case4 c rest htake hword word ih =>
    have hsuffix : word.2 <:+ .char c :: rest :=
      List.IsSuffix.trans ⟨word.1, breakAt_append ..⟩ (List.suffix_cons _ _)
    rw [read, ← take?_congr (h _ (List.suffix_refl _)), htake]
    simp [hword, ih fun u hu => h u (hu.trans hsuffix), word]
  | case5 c rest htake hword ih =>
    rw [read, ← take?_congr (h _ (List.suffix_refl _)), htake]
    simp [hword, ih fun u hu => h u (hu.trans (List.suffix_cons _ _))]

theorem written_read {construct : Reader (List Element)}
    (h : construct.Yields (Repeats Verbatim)) {text : String} (clean : Clean text) :
    written (read construct (spell text)) = text := by
  rw [written_of_repeats (repeats_read h (plain_spell.mpr clean)), textOf_spell]

theorem run_crossReference_eq_none {text : String} (h : ¬ "<<".toList <:+: text.toList)
    {rest : List Glyph} (hrest : rest <:+ spell text) : Construct.crossReference.run rest = none := by
  have hstart : startsWith "<<".toList rest = false := by
    refine Bool.eq_false_iff.mpr fun hstart => h ?_
    obtain ⟨before, hbefore⟩ := hrest
    have hchars := congrArg (·.flatMap chars) hbefore
    rw [spell_of_startsWith hstart] at hchars
    simp only [List.flatMap_append, flatMap_chars_map_char, flatMap_chars_spell] at hchars
    exact ⟨_, _, (List.append_assoc ..).trans hchars⟩
  change ((literal "<<").run rest).bind _ = none
  rw [run_literal_of_not hstart, Option.bind_none]

theorem written_read_specials {text : String} (clean : Clean text)
    (h : ¬ "<<".toList <:+: text.toList) :
    written (read (Construct.single Construct.special) (spell text)) = text := by
  have hread : read (Construct.single Construct.special) (spell text) =
      read (Construct.single Construct.specialChar) (spell text) := by
    refine read_congr fun rest hrest => ?_
    rw [Construct.single, Construct.single, run_bind, run_bind, Construct.special, run_orElse,
      run_crossReference_eq_none h hrest, Option.none_or]
  rw [hread]
  exact written_read (Construct.repeats_single Construct.yields_specialChar) clean

/-- Under these rules a text without the reserved character is read, and writing back what was read gives
exactly the text. With special characters this holds as long as no cross reference can start. -/
theorem written_parse {rule : Rule} {text : String} (clean : Clean text)
    (lossless : rule ∈ [.plain, .replacements, .postReplacements, .passthroughs] ∨
      rule = .specials ∧ ¬ "<<".toList <:+: text.toList) (options : Options) :
    ∃ parsed, parse rule options text = .ok parsed ∧ written parsed = text := by
  have hread : rule ≠ .callouts ∧ rule ≠ .attribution ∧
      written (read (construct options rule) (spell text)) = text := by
    rcases lossless with hrule | ⟨rfl, h⟩
    · simp only [List.mem_cons, List.not_mem_nil, or_false] at hrule
      rcases hrule with rfl | rfl | rfl | rfl
      · exact ⟨nofun, nofun, written_read .fail clean⟩
      · exact ⟨nofun, nofun, written_read Construct.yields_replacement clean⟩
      · exact ⟨nofun, nofun,
          written_read (Construct.repeats_single Construct.yields_lineBreak) clean⟩
      · exact ⟨nofun, nofun,
          written_read (Construct.repeats_single Construct.yields_passthrough) clean⟩
    · exact ⟨nofun, nofun, written_read_specials clean h⟩
  obtain ⟨hcallouts, hattribution, hwritten⟩ := hread
  exact ⟨_, parse_of_clean hcallouts hattribution clean options, by rw [written_merge, hwritten]⟩

theorem written_parse_angles : Clean "a< <b> &&<" ∧ ¬ "<<".toList <:+: "a< <b> &&<".toList ∧
    ∃ parsed, parse .specials ⟨none⟩ "a< <b> &&<" = .ok parsed ∧ written parsed = "a< <b> &&<" := by
  have clean : Clean "a< <b> &&<" := by decide
  have unreferring : ¬ "<<".toList <:+: "a< <b> &&<".toList := by simp [List.infix_cons_iff]
  exact ⟨clean, unreferring, written_parse clean (.inr ⟨rfl, unreferring⟩) ⟨none⟩⟩

end Fragment

end Manuscript
