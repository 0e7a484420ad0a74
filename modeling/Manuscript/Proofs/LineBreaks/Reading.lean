import Manuscript.Proofs.Escaping.Counters
import Manuscript.Proofs.LineBreaks.Basic
import Manuscript.Proofs.Markup.Range

namespace Manuscript

open Glyph Reader

def AtLineEnd (next : Option (Option Char)) : Prop :=
  next = none ∨ ∃ c, Cause.isNewline c ∧ next = some (some c)

def PlusBefore (next : Option (Option Char) → Prop) (o : List (Option Char)) : Prop :=
  ∃ front back, o = front ++ some ' ' :: some '+' :: back ∧ next back.head?

section

variable {next : Option (Option Char) → Prop} {c : Option Char} {o t : List (Option Char)}

theorem not_plusBefore_nil : ¬ PlusBefore next [] := by
  rintro ⟨front, back, h, -⟩
  exact absurd h.symm (by simp)

theorem plusBefore_cons : PlusBefore next (c :: o) ↔
    (c = some ' ' ∧ o.head? = some (some '+') ∧ next o.tail.head?) ∨ PlusBefore next o := by
  constructor
  · rintro ⟨front, back, h, hnext⟩
    cases front with
    | nil =>
      obtain ⟨hc, rfl⟩ := List.cons.inj h
      exact .inl ⟨hc, rfl, hnext⟩
    | cons d front =>
      obtain ⟨-, ho⟩ := List.cons.inj h
      exact .inr ⟨front, back, ho, hnext⟩
  · rintro (⟨rfl, hplus, hnext⟩ | ⟨front, back, rfl, hnext⟩)
    · obtain ⟨back, rfl⟩ := List.head?_eq_some_iff.mp hplus
      exact ⟨[], back, rfl, hnext⟩
    · exact ⟨c :: front, back, rfl, hnext⟩

theorem plusBefore_cons_of_ne (h : c ≠ some ' ') : PlusBefore next (c :: o) ↔ PlusBefore next o :=
  plusBefore_cons.trans (or_iff_right fun hc => h hc.1)

theorem plusBefore_append (h : some ' ' ∉ t) : PlusBefore next (t ++ o) ↔ PlusBefore next o := by
  induction t with
  | nil => rfl
  | cons c t ih =>
    rw [List.mem_cons, not_or] at h
    rw [List.cons_append, plusBefore_cons_of_ne (Ne.symm h.1), ih h.2]

end

section Glyphs

variable {next : Option (Option Char) → Prop} {glyphs left : List Glyph}

theorem atLineEnd_iff : AtLineEnd (glyphs.map char?).head? ↔ atLineEnd glyphs := by
  rcases glyphs with _ | ⟨c | digits, rest⟩
  · exact iff_of_true (.inl rfl) rfl
  · simp [AtLineEnd, atLineEnd, atNewline, headIs, char?]
  · simp [AtLineEnd, atLineEnd, atNewline, headIs, char?]

theorem run_single_lineBreak_append (rest : List Glyph) :
    (Construct.single Construct.lineBreak).run (spell " +" ++ rest) =
      if atLineEnd rest then some ([.lineBreak], rest) else none := by
  rw [Construct.single, Construct.lineBreak, run_bind, run_bind, run_literal_append,
    Option.bind_some, run_bind, run_ahead]
  split <;> rfl

theorem run_single_lineBreak {xs : List Element} :
    (Construct.single Construct.lineBreak).run glyphs = some (xs, left) ↔
      xs = [.lineBreak] ∧ glyphs = spell " +" ++ left ∧ atLineEnd left := by
  constructor
  · intro h
    have htaken : (Construct.single Construct.lineBreak).Yields fun t _ => t = spell " +" := by
      refine Construct.yields_single ((Yields.literal _).bind fun t _ ht => ?_)
      refine (Yields.ahead rfl).bind fun a _ (ha : a = []) => .pure ?_
      rw [ht, ha, List.append_nil, List.append_nil]
    obtain ⟨_, rfl, rfl⟩ := htaken _ _ _ h
    rw [run_single_lineBreak_append] at h
    split at h
    · next hend =>
      cases h
      exact ⟨rfl, rfl, hend⟩
    · cases h
  · rintro ⟨rfl, rfl, hend⟩
    rw [run_single_lineBreak_append, if_pos hend]

theorem head_flatMap_chars (hnext : ∀ c, next c → AtLineEnd c) :
    next ((glyphs.flatMap chars).map some).head? ↔ next (glyphs.map char?).head? := by
  rcases glyphs with _ | ⟨c | digits, rest⟩
  · rfl
  · rfl
  · refine iff_of_false (fun h => ?_) fun h => ?_
    · obtain hnone | ⟨c, hc, hsome⟩ := hnext _ h
      · cases hnone
      · obtain rfl : reservedChar = c := Option.some.inj (Option.some.inj hsome)
        exact absurd hc (by decide)
    · obtain hnone | ⟨c, hc, hsome⟩ := hnext _ h
      · cases hnone
      · cases hsome

theorem plusBefore_flatMap_chars (hnext : ∀ c, next c → AtLineEnd c)
    (hdigits : ∀ digits, .token digits ∈ glyphs → ∀ d ∈ digits, d.isDigit) :
    PlusBefore next ((glyphs.flatMap chars).map some) ↔ PlusBefore next (glyphs.map char?) := by
  induction glyphs with
  | nil => rfl
  | cons g rest ih =>
    have hrest := ih fun digits hmem => hdigits digits (List.mem_cons_of_mem g hmem)
    cases g with
    | char c =>
      rw [List.flatMap_cons, chars, List.singleton_append, List.map_cons, plusBefore_cons, hrest,
        List.map_cons, plusBefore_cons]
      refine or_congr_left (and_congr_right fun _ => ?_)
      rcases rest with _ | ⟨d | digits, rest⟩
      · rfl
      · exact and_congr_right fun _ => head_flatMap_chars hnext
      · refine iff_of_false (fun h => ?_) fun h => ?_
        · exact absurd (Option.some.inj (Option.some.inj h.1)) (by decide)
        · cases Option.some.inj h.1
    | token digits =>
      have hspace : some ' ' ∉ (chars (.token digits)).map some := by
        simp only [List.mem_map, Option.some.injEq, exists_eq_right, chars, List.cons_append,
          List.mem_cons, List.mem_append, List.not_mem_nil, or_false]
        rintro (h | h | h)
        · exact absurd h (by decide)
        · exact absurd (hdigits digits List.mem_cons_self _ h) (by decide)
        · exact absurd h (by decide)
      rw [List.flatMap_cons, List.map_append, plusBefore_append hspace, hrest, List.map_cons,
        plusBefore_cons_of_ne (by simp [char?])]

theorem isDigit_of_mem_scan {cs digits : List Char} (h : .token digits ∈ scan cs) :
    ∀ d ∈ digits, d.isDigit := by
  fun_induction scan cs with
  | case1 => cases h
  | case2 cs ds rest hrest ih =>
    rcases List.mem_cons.mp h with heq | h
    · obtain rfl := Glyph.token.inj heq
      exact (digits_of_tokenRest? hrest).2
    · exact ih h
  | case3 cs _ ih => exact ih ((List.mem_cons.mp h).resolve_left (by simp))
  | case4 c cs _ ih => exact ih ((List.mem_cons.mp h).resolve_left (by simp))

end Glyphs

section Serialized

open Pending

theorem isDigit_of_mem_lineGlyphs {k : Nat} {line : Line} {digits : List Char}
    (h : .token digits ∈ lineGlyphs k line) : ∀ d ∈ digits, d.isDigit := by
  have hmem : digits ∈ numerals (lineGlyphs k line) := List.mem_filterMap.mpr ⟨_, h, rfl⟩
  rw [numerals_lineGlyphs] at hmem
  obtain ⟨n, -, rfl⟩ := List.mem_map.mp hmem
  exact fun _ => isDigit_of_mem_digitsOf

variable {next : Option (Option Char) → Prop}

theorem plusBefore_serialized (hnext : ∀ c, next c → AtLineEnd c) (line : Line) :
    PlusBefore next ((serialized [line]).toList.map some) ↔ PlusBefore next (outline line) := by
  have hwritten : (serialized [line]).toList = (lineGlyphs 0 line).flatMap chars :=
    @toList_writeLine empty 0 rfl line
  rw [hwritten, plusBefore_flatMap_chars hnext fun _ => isDigit_of_mem_lineGlyphs,
    map_char?_lineGlyphs]

end Serialized

namespace Fragment

variable {next : Option (Option Char) → Prop} {options : Options} {glyphs : List Glyph}

theorem take?_lineBreak {xs : List Element} {rest : Rest glyphs} :
    (construct options .postReplacements).take? glyphs = some (xs, rest) ↔
      xs = [.lineBreak] ∧ glyphs = spell " +" ++ rest.left ∧ atLineEnd rest.left :=
  take?_eq_some_iff.trans run_single_lineBreak

theorem atLineEnd_of_take?_eq_none {rest : List Glyph}
    (h : (construct options .postReplacements).take? (spell " +" ++ rest) = none) :
    ¬ atLineEnd rest := by
  intro hend
  refine take?_eq_none_iff.mp h [.lineBreak] rest (run_single_lineBreak.mpr ⟨rfl, rfl, hend⟩) ?_
  rw [List.length_append]
  exact Nat.lt_add_of_pos_left (by decide)

theorem head_outline_read (h : atLineEnd glyphs) :
    (outline (read (construct options .postReplacements) glyphs)).head? =
      (glyphs.map char?).head? := by
  fun_cases read (construct options .postReplacements) glyphs with
  | case1 => rfl
  | case2 digits rest => cases h
  | case3 c rest elements left htake =>
    obtain ⟨-, hglyphs, -⟩ := take?_lineBreak.mp htake
    rw [hglyphs] at h
    cases h
  | case4 c rest htake hword split =>
    simp [outline_cons, Element.outline, textOf, chars, char?]
  | case5 c rest htake hword => simp [outline_cons, Element.outline, char?]

theorem breaksBefore_read : BreaksBefore next (read (construct options .postReplacements) glyphs) ↔
    ¬ PlusBefore (fun c => AtLineEnd c ∧ ¬ next c) (glyphs.map char?) := by
  fun_induction read (construct options .postReplacements) glyphs with
  | case1 => exact iff_of_true trivial not_plusBefore_nil
  | case2 digits rest ih =>
    rw [breaksBefore_placeholder_cons]
    refine ih.trans (not_congr ?_)
    exact (plusBefore_cons_of_ne (c := char? (.token digits)) (by simp [char?])).symm
  | case3 c rest elements left htake ih =>
    obtain ⟨rfl, hglyphs, hend⟩ := take?_lineBreak.mp htake
    have hline := atLineEnd_iff.mpr hend
    have hmap : (Glyph.char c :: rest).map char? = some ' ' :: some '+' :: left.left.map char? :=
      congrArg (List.map char?) hglyphs
    rw [List.singleton_append, BreaksBefore, ih, head_outline_read hend, hmap, plusBefore_cons,
      plusBefore_cons_of_ne (by decide), not_or]
    refine and_congr_left fun _ => ?_
    constructor
    · rintro hnext ⟨-, -, -, hnot⟩
      exact hnot hnext
    · intro hnot
      by_contra hnext
      exact hnot ⟨rfl, rfl, hline, hnext⟩
  | case4 c rest htake hword split ih =>
    have hrest : split.1 ++ split.2 = rest := breakAt_append ..
    have hspace : some ' ' ∉ (Glyph.char c :: split.1).map char? := by
      intro hmem
      obtain ⟨g, hg, hchar⟩ := List.mem_map.mp hmem
      obtain ⟨d, rfl, hd⟩ := inWord_of_mem_word hword rest g hg
      cases hchar
      exact absurd hd (by decide)
    rw [breaksBefore_text_cons, ih, ← hrest, ← List.cons_append, List.map_append,
      plusBefore_append hspace]
  | case5 c rest htake hword ih =>
    rw [breaksBefore_text_cons, ih, List.map_cons, plusBefore_cons]
    refine not_congr (or_iff_right ?_).symm
    rintro ⟨hspace, hplus, hend, -⟩
    obtain rfl : c = ' ' := Option.some.inj hspace
    rcases rest with _ | ⟨d | digits, rest⟩
    · cases hplus
    · obtain rfl : d = '+' := Option.some.inj (Option.some.inj hplus)
      exact atLineEnd_of_take?_eq_none htake (atLineEnd_iff.mp hend)
    · cases Option.some.inj hplus

theorem breaksBefore_parse {text : String}
    {parsed : List Element} (h : parse .postReplacements options text = .ok parsed) :
    BreaksBefore next parsed ↔
      ¬ PlusBefore (fun c => AtLineEnd c ∧ ¬ next c) (text.toList.map some) := by
  rw [parse_eq_ok (by decide) h, breaksBefore_merge, breaksBefore_read,
    ← plusBefore_flatMap_chars (fun _ h => h.1) fun _ => isDigit_of_mem_scan, flatMap_chars_scan]

theorem unbroken_parse {text : String} {parsed : List Element}
    (h : parse .postReplacements options text = .ok parsed) :
    Unbroken parsed ↔ ¬ PlusBefore AtLineEnd (text.toList.map some) := by
  rw [← breaksBefore_never, breaksBefore_parse h]
  simp only [not_false_iff, and_true]

end Fragment

end Manuscript
