import Manuscript.Proofs.Grammar.Quotes
import Manuscript.Proofs.Rereading.Leftovers

namespace Manuscript

open Glyph Reader

namespace Quote

variable {style : Style} {mark : String} {c d : Char} {rest : List Glyph}

theorem mem_starts_of_mem_marks (h : (style, mark, c) ∈ marks) : c ∈ starts := by
  have hmarks : ∀ entry ∈ marks, entry.2.2 ∈ starts := by decide
  exact hmarks _ h

theorem spell_of_mem_marks (h : (style, mark, c) ∈ marks) : spell mark = [.char c] := by
  rw [spell, toList_of_mem_marks h]
  rfl

theorem run_opening (h : (style, mark, c) ∈ marks) (hblank : Text.isBlank d = false) (hd : d ≠ c) :
    opening.run (.char c :: .char d :: rest) =
      some (⟨.quoted style none, mark, true⟩, .char d :: rest) := by
  have hother : ∀ entry ∈ marks, entry.2.2 ∉ ['"'] ∧ entry.2.2 ∉ ['\x27'] ∧ entry.2.2 ∉ ['['] := by
    decide
  obtain ⟨hdouble, hsingle, hbracket⟩ := hother _ h
  have hconstrained : (constrained none style mark c).run (.char c :: .char d :: rest) =
      some (⟨.quoted style none, mark, true⟩, .char d :: rest) := by
    have hliteral := run_literal_append mark (.char d :: rest)
    rw [spell_of_mem_marks h, List.singleton_append] at hliteral
    have hhead : headIs (fun e => Text.isBlank e || e == c) (.char d :: rest) = false := by
      simp [headIs, hblank, hd]
    rw [constrained, run_bind, hliteral, Option.bind_some, run_bind, run_ahead, hhead]
    rfl
  have hstyle := run_styleOpening h hconstrained
  have hroles : (Reader.optional Quote.roles).run (.char c :: .char d :: rest) =
      some (none, .char c :: .char d :: rest) := by
    rw [Reader.optional, run_orElse, run_map, opens_roles.run_eq_none hbracket]
    rfl
  rw [opening, run_firstOf_cons, (opens_quotationOpening rfl).run_eq_none hdouble, Option.none_or,
    run_firstOf_cons, (opens_quotationOpening rfl).run_eq_none hsingle, Option.none_or,
    run_firstOf_cons, textOpening, run_bind, hroles, Option.bind_some]
  exact congrArg (Option.or · _) hstyle

theorem run_mark_nil (h : (style, mark, c) ∈ marks) : quote.run [.char c] = none := by
  simp only [marks, List.mem_cons, List.not_mem_nil, or_false, Prod.mk.injEq] at h
  rcases h with ⟨-, -, rfl⟩ | ⟨-, -, rfl⟩ | ⟨-, -, rfl⟩ | ⟨-, -, rfl⟩ <;> cbv

theorem run_closing_mark (h : (style, mark, c) ∈ marks) :
    (closing ⟨.quoted style none, mark, true⟩).run [.char c] = some ((), []) := by
  have hliteral := run_literal_append mark []
  rw [spell_of_mem_marks h, List.append_nil] at hliteral
  rw [closing, run_bind, hliteral]
  rfl

theorem run_quote_marks (h : (style, mark, c) ∈ marks) {r : String}
    (hd : r.toList.head? = some d) (hblank : Text.isBlank d = false)
    (hr : ∀ a ∈ r.toList, a ∉ starts) :
    quote.run (.char c :: (spell r ++ [.char c])) = some (.quoted style ∅ [.text r], []) := by
  obtain ⟨ds, hds⟩ := List.head?_eq_some_iff.mp hd
  have hne : d ≠ c := fun he =>
    hr d (hds ▸ List.mem_cons_self) (he ▸ mem_starts_of_mem_marks h)
  have hspell : spell r = .char d :: ds.map .char := by rw [spell, hds, List.map_cons]
  have hleaf : leaf.run (.char c :: (spell r ++ [.char c])) = none := by
    have hmarks : ∀ entry ∈ marks, entry.2.2 ∉ ['\\', '[', '~', '^'] := by decide
    exact opens_leaf.run_eq_none (hmarks _ h) _
  have hopens : (closing ⟨.quoted style none, mark, true⟩).Opens [c] :=
    (Opens.literal (toList_of_mem_marks h)).bind
  have hcontents : (contents ⟨.quoted style none, mark, true⟩).run (spell r ++ [.char c]) =
      some ((spell r).map element, []) := by
    rw [spell, run_contents_chars hopens (fun a ha => ⟨?_, hr a ha⟩),
      run_contents_of_closing hopens (run_closing_mark h), Option.map_some]
    · exact congrArg (fun xs => some (xs, [])) (List.append_nil _)
    · rw [List.mem_singleton]
      exact fun he => hr a ha (he ▸ mem_starts_of_mem_marks h)
  have hmerge : merge ((spell r).map element) = [.text r] := by
    refine Fragment.content_spell ?_
    rintro rfl
    cases hd
  have henclose : (enclose ⟨.quoted style none, mark, true⟩).run (spell r ++ [.char c]) =
      some (.quoted style ∅ [.text r], []) := by
    change (((contents ⟨.quoted style none, mark, true⟩).run _).bind _).bind _ = _
    rw [hcontents, ← hmerge, hspell]
    rfl
  rw [quote_eq_leaf, run_orElse, hleaf, Option.none_or, run_bind]
  rw [hspell, List.cons_append] at henclose ⊢
  rw [run_opening h hblank hne]
  exact henclose

end Quote

namespace Fragment

variable {style : Style} {mark : String} {c d : Char} {rest : List Glyph} {w r : String}

theorem breakAt_word {cs : List Char} (hcs : ∀ a ∈ cs, Text.isWordChar a) (rest : List Glyph) :
    breakAt (fun glyphs => !continuesWord glyphs) (cs.map .char ++ rest) =
      (cs.map .char ++ (breakAt (fun glyphs => !continuesWord glyphs) rest).1,
        (breakAt (fun glyphs => !continuesWord glyphs) rest).2) := by
  induction cs with
  | nil => rfl
  | cons a cs ih =>
    obtain ⟨ha, hcs⟩ := List.forall_mem_cons.mp hcs
    have hword : continuesWord (.char a :: (cs.map .char ++ rest)) = true := by
      rw [continuesWord, ha, Bool.true_or]
    rw [List.map_cons, List.cons_append, breakAt, hword, ih hcs]
    rfl

theorem suffix_of_breakAt_mark (h : (style, mark, c) ∈ Quote.marks) (hd : Text.isWordChar d) :
    (breakAt (fun glyphs => !continuesWord glyphs) (.char c :: .char d :: rest)).2 <:+ rest := by
  have hmark : ∀ entry ∈ Quote.marks, isIntrawordMark entry.2.2 = true := by decide
  have hfirst : continuesWord (.char c :: .char d :: rest) = true := by
    rw [continuesWord, hmark _ h, headIs, hd]
    exact Bool.or_true _
  have hsecond : continuesWord (.char d :: rest) = true := by rw [continuesWord, hd, Bool.true_or]
  rw [breakAt, hfirst, breakAt, hsecond]
  exact ⟨_, breakAt_append ..⟩

theorem breakAt_mark_of_other (h : (style, mark, c) ∈ Quote.marks)
    (hd : Text.isWordChar d = false) :
    breakAt (fun glyphs => !continuesWord glyphs) (.char c :: .char d :: rest) =
      ([], .char c :: .char d :: rest) := by
  have hmark : ∀ entry ∈ Quote.marks, Text.isWordChar entry.2.2 = false := by decide +kernel
  have hstop : continuesWord (.char c :: .char d :: rest) = false := by
    rw [continuesWord, hmark _ h, headIs, hd, Bool.and_false, Bool.or_false]
  rw [breakAt, hstop]
  rfl

theorem takesNone_mark (h : (style, mark, c) ∈ Quote.marks) {cs : List Char}
    (hcs : ∀ a ∈ cs, a ∉ Quote.starts) (options : Options) :
    takesNone (construct options .quotes) (cs.map .char ++ [.char c]) := by
  induction cs with
  | nil =>
    refine takesNone_cons ?_ rfl
    rw [construct, Construct.single, run_bind, Quote.run_mark_nil h, Option.bind_none]
  | cons a cs ih =>
    obtain ⟨ha, hcs⟩ := List.forall_mem_cons.mp hcs
    exact takesNone_cons (Quote.opens_quote.bind.run_eq_none ha _) (ih hcs)

theorem spell_marked (h : (style, mark, c) ∈ Quote.marks) (w r : String) :
    spell (w ++ mark ++ r ++ mark) = spell w ++ .char c :: (spell r ++ [.char c]) := by
  rw [spell_append, spell_append, spell_append, Quote.spell_of_mem_marks h, List.append_assoc,
    List.append_assoc]
  rfl

theorem parse_quotes_of_word {text : String} (hclean : Clean text) {a : Char}
    (hspell : spell text = .char a :: rest) (ha : Text.isWordChar a) (options : Options) :
    parse .quotes options text = .ok (merge
      (.text (textOf (.char a :: (breakAt (fun glyphs => !continuesWord glyphs) rest).1)) ::
        read (construct options .quotes) (breakAt (fun glyphs => !continuesWord glyphs) rest).2)) := by
  have hrun : (construct options .quotes).run (.char a :: rest) = none :=
    Quote.opens_quote.bind.run_eq_none (Quote.not_starts_of_word ha) _
  rw [parse_of_clean (by decide) (by decide) hclean, hspell, read_word hrun ha rfl]

section

variable (h : (style, mark, c) ∈ Quote.marks) (options : Options)
  (hw : w ≠ "" ∧ ∀ a ∈ w.toList, Text.isWordChar a) (hr : r.toList.head? = some d)
  (hchars : ∀ a ∈ r.toList, a ≠ reservedChar ∧ a ∉ Quote.starts)

include hw in
theorem exists_word : ∃ a as, w.toList = a :: as ∧ Text.isWordChar a ∧ ∀ b ∈ as, Text.isWordChar b := by
  obtain ⟨a, as, has⟩ := List.exists_cons_of_ne_nil (String.toList_eq_nil_iff.not.mpr hw.1)
  exact ⟨a, as, has, List.forall_mem_cons.mp (has ▸ hw.2)⟩

include h hw hchars in
theorem clean_marked : Clean (w ++ mark ++ r ++ mark) := by
  have hword : Clean w := fun hmem => absurd (hw.2 _ hmem) (by rw [isWordChar_reservedChar]; decide)
  have hmarks : ∀ entry ∈ Quote.marks, Clean entry.2.1 := by decide
  refine clean_append.mpr ⟨clean_append.mpr ⟨clean_append.mpr ⟨hword, hmarks _ h⟩, ?_⟩, hmarks _ h⟩
  exact fun hmem => (hchars _ hmem).1 rfl

include h hw hr hchars

theorem parse_mark_before_word (hd : Text.isWordChar d) :
    parse .quotes options (w ++ mark ++ r ++ mark) = .ok [.text (w ++ mark ++ r ++ mark)] := by
  obtain ⟨a, as, hcons, ha, has⟩ := exists_word hw
  obtain ⟨ds, hds⟩ := List.head?_eq_some_iff.mp hr
  have hspell : spell (w ++ mark ++ r ++ mark) =
      .char a :: (as.map .char ++ .char c :: .char d :: (ds.map .char ++ [.char c])) := by
    rw [spell_marked h, spell, hcons, spell, hds]
    rfl
  have hwhole : w ++ mark ++ r ++ mark ≠ "" := fun he => by rw [he] at hspell; cases hspell
  have hnone : takesNone (construct options .quotes) (ds.map .char ++ [.char c]) :=
    takesNone_mark h (fun b hb => (hchars b (hds ▸ List.mem_cons_of_mem d hb)).2) options
  rw [parse_quotes_of_word (clean_marked h hw hchars) hspell ha, ← content_spell hwhole, hspell]
  refine congrArg Except.ok (merge_word ha ?_)
  rw [breakAt_word has]
  exact merge_read_of_takesNone (takesNone_of_suffix hnone (suffix_of_breakAt_mark h hd))

theorem parse_mark_before_other (hblank : Text.isBlank d = false) (hd : Text.isWordChar d = false) :
    parse .quotes options (w ++ mark ++ r ++ mark) =
      .ok [.text w, .quoted style ∅ [.text r]] := by
  obtain ⟨a, as, hcons, ha, has⟩ := exists_word hw
  obtain ⟨ds, hds⟩ := List.head?_eq_some_iff.mp hr
  have hspell : spell (w ++ mark ++ r ++ mark) =
      .char a :: (as.map .char ++ .char c :: (spell r ++ [.char c])) := by
    rw [spell_marked h, spell, hcons]
    rfl
  have hbreak : breakAt (fun glyphs => !continuesWord glyphs)
      (as.map .char ++ .char c :: (spell r ++ [.char c])) =
        (as.map .char, .char c :: (spell r ++ [.char c])) := by
    rw [breakAt_word has, spell, hds, List.map_cons, List.cons_append, breakAt_mark_of_other h hd,
      List.append_nil]
  have htext : textOf (.char a :: as.map .char) = w := by
    rw [← List.map_cons, ← hcons]
    exact textOf_spell w
  have hquote : (construct options .quotes).run (.char c :: (spell r ++ [.char c])) =
      some ([.quoted style ∅ [.text r]], []) := by
    rw [construct, Construct.single, run_bind,
      Quote.run_quote_marks h hr hblank fun b hb => (hchars b hb).2]
    rfl
  have hmerged : Merged [.text w, .quoted style ∅ [.text r]] :=
    Merged.cons_iff.mpr ⟨fun he => hw.1 (Element.text.inj he),
      fun _ hy => .inr (Option.some.inj hy ▸ rfl), .cons_other rfl .nil⟩
  rw [parse_quotes_of_word (clean_marked h hw hchars) hspell ha, hbreak, htext,
    read_of_run hquote (by simp), read]
  exact congrArg Except.ok hmerged.merge_eq

/-- Whether the text after a letter or number and a mark begins a word decides if it is quoted. -/
theorem intraword_mark_iff (hblank : Text.isBlank d = false) :
    (parse .quotes options (w ++ mark ++ r ++ mark) = .ok [.text (w ++ mark ++ r ++ mark)] ↔
      Text.isWordChar d) ∧
    (Text.isWordChar d = false → parse .quotes options (w ++ mark ++ r ++ mark) =
      .ok [.text w, .quoted style ∅ [.text r]]) := by
  refine ⟨⟨fun hparse => ?_, parse_mark_before_word h options hw hr hchars⟩,
    parse_mark_before_other h options hw hr hchars hblank⟩
  by_contra hd
  rw [parse_mark_before_other h options hw hr hchars hblank (Bool.eq_false_iff.mpr hd)] at hparse
  exact nomatch (List.cons.inj (Except.ok.inj hparse)).2

end

theorem intraword_mark_iff_inWord :
    ((Style.bold, "*", '*') ∈ Quote.marks ∧
      ("a1" ≠ "" ∧ ∀ a ∈ "a1".toList, Text.isWordChar a) ∧ "b (c)".toList.head? = some 'b' ∧
      (∀ a ∈ "b (c)".toList, a ≠ reservedChar ∧ a ∉ Quote.starts) ∧ Text.isBlank 'b' = false) ∧
    (parse .quotes ⟨none⟩ "a1*b (c)*" = .ok [.text "a1*b (c)*"] ↔ Text.isWordChar 'b') := by
  have hmark : (Style.bold, "*", '*') ∈ Quote.marks := by decide
  have hw : "a1" ≠ "" ∧ ∀ a ∈ "a1".toList, Text.isWordChar a := by decide
  have hr : "b (c)".toList.head? = some 'b' := by decide
  have hchars : ∀ a ∈ "b (c)".toList, a ≠ reservedChar ∧ a ∉ Quote.starts := by decide
  exact ⟨⟨hmark, hw, hr, hchars, by decide⟩,
    (intraword_mark_iff hmark ⟨none⟩ hw hr hchars (by decide)).1⟩

theorem mark_after_letter_quotes :
    Text.isWordChar 'a' ∧ Text.isBlank '(' = false ∧
      (∀ a ∈ "(b)".toList, a ≠ reservedChar ∧ a ∉ Quote.starts) ∧
      parse .quotes ⟨none⟩ "a*(b)*" = .ok [.text "a", .quoted .bold ∅ [.text "(b)"]] ∧
      parse .quotes ⟨none⟩ "a*(b)*" ≠ .ok [.text "a*(b)*"] := by
  have hmark : (Style.bold, "*", '*') ∈ Quote.marks := by decide
  have hw : "a" ≠ "" ∧ ∀ a ∈ "a".toList, Text.isWordChar a := by decide
  have hr : "(b)".toList.head? = some '(' := by decide
  have hchars : ∀ a ∈ "(b)".toList, a ≠ reservedChar ∧ a ∉ Quote.starts := by decide
  have hparse : parse .quotes ⟨none⟩ "a*(b)*" = .ok [.text "a", .quoted .bold ∅ [.text "(b)"]] :=
    parse_mark_before_other hmark ⟨none⟩ hw hr hchars (by decide) (by decide)
  refine ⟨by decide, by decide, hchars, hparse, fun h => ?_⟩
  rw [hparse] at h
  exact nomatch (List.cons.inj (Except.ok.inj h)).2

end Fragment

end Manuscript
