import Mathlib.Data.List.Infix
import Manuscript.Proofs.Line
import Manuscript.Proofs.Markup.Macro
import Manuscript.Proofs.Markup.Mapping
import Manuscript.Proofs.Markup.Quote

namespace Manuscript

open Glyph Reader

theorem content_append {t : List Glyph} (h : ∀ g ∈ t, ∃ c, g = .char c) (u : List Glyph) :
    content (t ++ u) = pushText (textOf t) (content u) := by
  induction t with
  | nil => exact (pushText_empty _).symm
  | cons g t ih =>
    obtain ⟨⟨c, rfl⟩, ht⟩ := List.forall_mem_cons.mp h
    change pushText (String.singleton c) (content (t ++ u)) = _
    rw [ih ht, pushText_pushText, ← List.singleton_append, textOf_append]
    rfl

theorem merge_map_char (cs : List Char) :
    merge ((cs.map Glyph.char).map element) = merge [.text (String.ofList cs)] := by
  have h := content_append (List.forall_mem_map.mpr fun c (_ : c ∈ cs) => ⟨c, rfl⟩) []
  rw [List.append_nil, textOf, flatMap_chars_map_char] at h
  exact h

namespace Fragment

variable {keep : Macro.Keep} {options : Options}

def inWord (c : Char) : Bool := Text.isWordChar c || isIntrawordMark c

theorem inWord_of_mem_word {c : Char} (hc : Text.isWordChar c) (rest : List Glyph) :
    ∀ g ∈ Glyph.char c :: (breakAt (fun glyphs => !continuesWord glyphs) rest).1,
      ∃ d, g = .char d ∧ inWord d := by
  refine List.forall_mem_cons.mpr ⟨⟨c, rfl, by simp [inWord, hc]⟩, fun g hg => ?_⟩
  obtain ⟨after, hafter⟩ := mem_breakAt g hg
  have hword : continuesWord (g :: after) := by simpa using hafter
  cases g with
  | token digits => cases hword
  | char d =>
    rw [continuesWord, Bool.or_eq_true, Bool.and_eq_true] at hword
    refine ⟨d, rfl, ?_⟩
    rw [inWord, Bool.or_eq_true]
    exact hword.imp_right And.left

theorem relates_read_of_untaken {R : List Glyph → List Element → Prop}
    {construct : Reader (List Element)} (nil : R [] [])
    (append : ∀ t u xs ys, R t xs → R u ys → R (t ++ u) (xs ++ ys))
    (token : ∀ digits, R [.token digits] [.placeholder (reference digits)])
    (char : ∀ c rest, construct.take? (.char c :: rest) = none →
      R [.char c] [.text (String.singleton c)])
    (word : ∀ t, (∀ g ∈ t, ∃ c, g = .char c ∧ inWord c) → R t [.text (textOf t)])
    (h : construct.Yields R) (glyphs : List Glyph) : R glyphs (read construct glyphs) := by
  fun_induction read construct glyphs with
  | case1 => exact nil
  | case2 digits rest ih => exact append _ _ _ _ (token digits) ih
  | case3 c rest elements left htake ih =>
    obtain ⟨t, ht, helements⟩ := h.of_take? htake
    have hall := append _ _ _ _ helements ih
    rwa [← ht] at hall
  | case4 c rest htake hword split ih =>
    have hrest : split.1 ++ split.2 = rest := breakAt_append ..
    rw [← hrest]
    exact append _ _ _ _ (word _ (inWord_of_mem_word hword rest)) ih
  | case5 c rest htake hword ih => exact append _ _ _ _ (char c rest htake) ih

theorem relates_read {R : List Glyph → List Element → Prop} (nil : R [] [])
    (append : ∀ t u xs ys, R t xs → R u ys → R (t ++ u) (xs ++ ys))
    (glyph : ∀ g : Glyph, R [g] [g.element]) (word : ∀ t, Plain t → R t [.text (textOf t)])
    {construct : Reader (List Element)} (h : construct.Yields R) (glyphs : List Glyph) :
    R glyphs (read construct glyphs) := by
  have hreserved : inWord reservedChar = false := by
    rw [inWord, isWordChar_reservedChar]
    decide
  exact relates_read_of_untaken nil append (fun digits => glyph (.token digits))
    (fun c _ _ => glyph (.char c)) (fun t ht => word t (plain_of_chars ht hreserved)) h glyphs

theorem spells_read {construct : Reader (List Element)}
    (h : construct.Yields (Spells keep options)) (glyphs : List Glyph) :
    Spells keep options glyphs (read construct glyphs) :=
  relates_read .nil (fun _ _ _ _ => .append) .glyph (fun _ => .text) h glyphs

theorem yields_construct {rule : Rule} (hrule : rule ≠ .macros) :
    (construct options rule).Yields (Spells keep options) := by
  cases rule with
  | passthroughs =>
    exact (Construct.repeats_single Construct.yields_passthrough).mono fun _ _ => .of_repeats_verbatim
  | callouts => exact Construct.yields_single Construct.yields_callout
  | specials => exact Construct.yields_single Construct.yields_special
  | quotes => exact Construct.yields_single (Quote.yields_quote Spells.quotable)
  | attributes => exact Construct.yields_single Construct.yields_attributeOrCounter
  | replacements => exact Construct.yields_replacement.mono fun _ _ => .of_repeats_verbatim
  | macros => exact absurd rfl hrule
  | postReplacements =>
    exact (Construct.repeats_single Construct.yields_lineBreak).mono fun _ _ => .of_repeats_verbatim
  | plain => exact .fail
  | attribution => exact .fail

theorem yields_construct_macros :
    (construct options .macros).Yields (Spells Dict.ofList options) :=
  Construct.yields_single Macro.yields_any

theorem spells_read_construct (options : Options) (rule : Rule) (glyphs : List Glyph) :
    Spells Dict.ofList options glyphs (read (construct options rule) glyphs) := by
  by_cases hrule : rule = .macros
  · rw [hrule]
    exact spells_read yields_construct_macros glyphs
  · exact spells_read (yields_construct hrule) glyphs

theorem run_quotes_eq_none {glyphs : List Glyph} (hleaf : Quote.leaf.take? glyphs = none)
    (hopening : Quote.opening.take? glyphs = none) :
    (construct options .quotes).run glyphs = none := by
  change ((Quote.read? glyphs).map _).bind _ = none
  rw [Quote.read?, hleaf, hopening]
  rfl

def takesNone (construct : Reader (List Element)) (glyphs : List Glyph) : Bool :=
  glyphs.tails.all fun t => t.isEmpty || (construct.run t).isNone

theorem takesNone_cons {construct : Reader (List Element)} {g : Glyph} {rest : List Glyph}
    (h : construct.run (g :: rest) = none) (hrest : takesNone construct rest) :
    takesNone construct (g :: rest) := by
  rw [takesNone, List.tails_cons, List.all_cons, h]
  exact hrest

theorem run_of_takesNone {construct : Reader (List Element)} {g : Glyph} {rest : List Glyph}
    (h : takesNone construct (g :: rest)) : construct.run (g :: rest) = none :=
  Option.isNone_iff_eq_none.mp
    (List.all_eq_true.mp h _ ((List.mem_tails _ _).mpr (List.suffix_refl _)))

theorem takesNone_of_suffix {construct : Reader (List Element)} {t glyphs : List Glyph}
    (h : takesNone construct glyphs) (ht : t <:+ glyphs) : takesNone construct t :=
  List.all_eq_true.mpr fun u hu =>
    List.all_eq_true.mp h u ((List.mem_tails _ _).mpr (((List.mem_tails _ _).mp hu).trans ht))

theorem merge_word {c : Char} (hc : Text.isWordChar c) {rest : List Glyph} {xs : List Element}
    (h : merge xs = content (breakAt (fun glyphs => !continuesWord glyphs) rest).2) :
    merge (.text (textOf (.char c :: (breakAt (fun glyphs => !continuesWord glyphs) rest).1)) :: xs) =
      content (.char c :: rest) := by
  have hrest := breakAt_append (fun glyphs => !continuesWord glyphs) rest
  rw [merge, h, ← content_append fun g hg => ?_]
  · rw [List.cons_append, hrest]
  · obtain ⟨d, hd, -⟩ := inWord_of_mem_word hc rest g hg
    exact ⟨d, hd⟩

theorem merge_read_of_takesNone {construct : Reader (List Element)} {glyphs : List Glyph}
    (h : takesNone construct glyphs) : merge (read construct glyphs) = content glyphs := by
  fun_induction read construct glyphs with
  | case1 => rfl
  | case2 digits rest ih =>
    rw [merge.eq_3 _ _ (fun _ heq => by cases heq), ih (takesNone_of_suffix h (List.suffix_cons _ _))]
    rfl
  | case3 c rest elements left htake =>
    rw [take?_of_run_eq_none (run_of_takesNone h)] at htake
    cases htake
  | case4 c rest htake hword split ih =>
    have hrest : split.1 ++ split.2 = rest := breakAt_append ..
    have hsuffix : split.2 <:+ Glyph.char c :: rest := ⟨.char c :: split.1, by rw [← hrest]; rfl⟩
    exact merge_word hword (ih (takesNone_of_suffix h hsuffix))
  | case5 c rest htake hword ih =>
    rw [merge, ih (takesNone_of_suffix h (List.suffix_cons _ _))]
    rfl

theorem author?_eq_some_iff {text author : List Char} : author? text = some author ↔
    text = "-- ".toList ++ author ∧ author ≠ [] ∧ ∀ c ∈ author, Cause.isNewline c = false := by
  unfold author?
  split
  · next rest =>
    have hdashes : '-' :: '-' :: ' ' :: rest = "-- ".toList ++ author ↔ rest = author := by
      simp
    rw [hdashes]
    split
    · next h =>
      constructor
      · exact nofun
      · rintro ⟨rfl, hne, hline⟩
        rcases Bool.or_eq_true_iff.mp h with hempty | hany
        · exact absurd (List.isEmpty_iff.mp hempty) hne
        · obtain ⟨c, hc, hnewline⟩ := List.any_eq_true.mp hany
          rw [hline c hc] at hnewline
          cases hnewline
    · next h =>
      rw [Bool.or_eq_true, not_or, List.isEmpty_iff, List.any_eq_true] at h
      constructor
      · intro he
        obtain rfl := Option.some.inj he
        refine ⟨rfl, h.1, fun c hc => Bool.eq_false_iff.mpr fun hnewline => h.2 ⟨c, hc, hnewline⟩⟩
      · rintro ⟨rfl, -, -⟩
        rfl
  · next hno =>
    constructor
    · exact nofun
    · rintro ⟨rfl, -, -⟩
      exact absurd rfl (hno author)

theorem parse_attribution_eq_ok_iff {options : Options} {text : String} {parsed : List Element} :
    parse .attribution options text = .ok parsed ↔
      ∃ author : String, text = "-- " ++ author ∧ author ≠ "" ∧
        (∀ c ∈ author.toList, Cause.isNewline c = false) ∧ parsed = [.text author] := by
  have htext (author : String) :
      author? text.toList = some author.toList ↔ text = "-- " ++ author ∧ author ≠ "" ∧
        ∀ c ∈ author.toList, Cause.isNewline c = false := by
    rw [author?_eq_some_iff, ← String.toList_append, String.toList_inj, ne_eq,
      String.toList_eq_nil_iff]
  rw [parse]
  cases hauthor : author? text.toList with
  | none =>
    refine iff_of_false nofun fun ⟨author, ht, hne, hline, _⟩ => ?_
    rw [(htext author).mpr ⟨ht, hne, hline⟩] at hauthor
    cases hauthor
  | some cs =>
    obtain ⟨author, rfl⟩ : ∃ author : String, author.toList = cs :=
      ⟨String.ofList cs, String.toList_ofList⟩
    dsimp only
    rw [String.ofList_toList]
    constructor
    · intro h
      obtain ⟨ht, hne, hline⟩ := (htext author).mp hauthor
      exact ⟨author, ht, hne, hline, (Except.ok.inj h).symm⟩
    · rintro ⟨other, ht, hne, hline, rfl⟩
      rw [(htext other).mpr ⟨ht, hne, hline⟩, Option.some.injEq, String.toList_inj] at hauthor
      rw [hauthor]

end Fragment

end Manuscript
