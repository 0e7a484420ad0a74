import Manuscript.Proofs.Grammar.Quotes
import Manuscript.Proofs.Rereading.Symbols
import Manuscript.Proofs.Resolution.Answered

namespace Manuscript

open Event Glyph Pending Reader

def markupChars : List Char :=
  ['+', '<', '>', '&', '*', '_', '\x60', '#', '~', '^', '"', '\x27', '\\', '\x7b', '(', '.', '-',
   ':', '[']

def Markless (o : List (Option Char)) : Prop :=
  ∀ x ∈ o, ∃ c, x = some c ∧ c ∉ reservedChar :: markupChars

namespace Markless

variable {o : List (Option Char)} {c : Char} {cs : List Char}

theorem of_chars (h : ∀ c ∈ cs, c ∉ reservedChar :: markupChars) : Markless (cs.map some) :=
  List.forall_mem_map.mpr fun c hc => ⟨c, rfl, h c hc⟩

theorem not_mem (h : Markless o) (hc : c ∈ reservedChar :: markupChars) : some c ∉ o := by
  intro hmem
  obtain ⟨d, hd, hnot⟩ := h _ hmem
  exact hnot (Option.some.inj hd ▸ hc)

theorem not_infix (h : Markless o) (hc : c ∈ markupChars) (hcs : c ∈ cs) : ¬ cs.map some <:+: o :=
  fun hinside => h.not_mem (List.mem_cons_of_mem _ hc) (hinside.subset (List.mem_map_of_mem hcs))

theorem outlines {lines : List Line} (h : ∀ line ∈ lines, Markless (outline line)) :
    Markless (outlines lines) := by
  induction lines with
  | nil => exact List.forall_mem_nil _
  | cons line rest ih =>
    obtain ⟨hline, hrest⟩ := List.forall_mem_cons.mp h
    by_cases hnone : rest = []
    · rw [hnone, outlines_singleton]
      exact hline
    · rw [outlines_cons hnone]
      have hbreak : '\n' ∉ reservedChar :: markupChars := by decide
      exact List.forall_mem_append.mpr
        ⟨hline, List.forall_mem_cons.mpr ⟨⟨'\n', rfl, hbreak⟩, ih hrest⟩⟩

theorem symbolless (h : Markless o) : Symbolless o := by
  induction o with
  | nil => exact .nil
  | cons x o ih =>
    obtain ⟨⟨c, rfl, hc⟩, hrest⟩ : _ ∧ Markless o := List.forall_mem_cons.mp h
    cases hword : Text.isWordChar c with
    | true =>
      refine .word hword (Bool.eq_false_iff.mpr fun hjoins => ?_) (ih hrest)
      obtain ⟨a, d, ha, -, hpre⟩ := Fragment.joinsOn_iff.mp hjoins
      obtain rfl := Peg.eq_apostrophe ha
      have hinside : ['\x27', d].map some <:+: o := hpre.isInfix
      exact hrest.not_infix (by decide : '\x27' ∈ markupChars) List.mem_cons_self hinside
    | false =>
      have hsymbols : ∀ name ∈ symbolNames, '(' ∈ name.toList ∨ '.' ∈ name.toList := by decide
      refine .other hword (fun he => hc ?_) (fun name hname hpre => ?_) (ih hrest)
      · rw [he]
        decide
      · rcases hsymbols name hname with hopen | hdot
        · exact h.not_infix (by decide : '(' ∈ markupChars) hopen hpre.isInfix
        · exact h.not_infix (by decide : '.' ∈ markupChars) hdot hpre.isInfix

theorem uncalled (h : Markless o) : Uncalled false o := by
  rintro before digits after rfl - - -
  exact h.not_infix (by decide : '<' ∈ markupChars) List.mem_cons_self
    ⟨before, after, List.append_assoc ..⟩

end Markless

namespace Fragment

variable {options : Options} {rule : Rule} {u : List Glyph}

theorem needs_passthrough : Construct.passthrough.Needs markupChars := by
  refine .firstOf fun r hr => ?_
  simp only [List.mem_cons, List.not_mem_nil, or_false] at hr
  rcases hr with rfl | rfl | rfl
  · exact .bind (.literal (c := '+') (by decide) (by decide))
  · exact .bind (.literal (c := '+') (by decide) (by decide))
  · exact .bind (.literal (c := ':') (by decide) (by decide))

theorem needs_attributeOrCounter : Construct.attributeOrCounter.Needs markupChars := by
  refine .firstOf fun r hr => ?_
  simp only [List.mem_cons, List.not_mem_nil, or_false] at hr
  rcases hr with rfl | rfl | rfl
  all_goals exact .bind (.literal (c := '\x7b') (by decide) (by decide))

theorem needs_linkScheme : Macro.linkScheme.Needs markupChars := by
  have hschemes : ∀ scheme ∈ ["https://", "http://", "ftp://", "irc://", "mailto:"],
      ':' ∈ scheme.toList := by decide
  exact .firstOf (List.forall_mem_map.mpr fun scheme hscheme =>
    .bind (.literal (by decide) (hschemes scheme hscheme)))

theorem needs_macro {keep : Macro.Keep} : (Macro.any keep options).Needs markupChars := by
  have hnamed {name : String} {f : Unit → Reader Element} (hname : ':' ∈ name.toList) :
      (literal name >>= f).Needs markupChars := .bind (.literal (by decide) hname)
  refine .firstOf fun r hr => ?_
  simp only [List.mem_cons, List.not_mem_nil, or_false] at hr
  rcases hr with rfl | rfl | rfl | rfl | rfl | rfl | rfl | rfl | rfl
  · exact hnamed (by decide)
  · exact hnamed (by decide)
  · exact needs_linkScheme.bind
  · exact hnamed (by decide)
  · exact .bind (.literal (c := '<') (by decide) (by decide))
  · exact hnamed (by decide)
  · exact .bind (.literal (c := '(') (by decide) (by decide))
  · exact .bind (.literal (c := '(') (by decide) (by decide))
  · exact hnamed (by decide)

theorem needs_construct (hrule : rule ≠ .replacements) :
    (construct options rule).Needs markupChars := by
  cases rule with
  | passthroughs => exact needs_passthrough.bind
  | callouts => exact Opens.needs Construct.opens_calloutNumber.bind.bind (by decide)
  | specials => exact Opens.needs opens_special.bind (by decide)
  | quotes => exact Opens.needs Quote.opens_quote.bind (by decide)
  | attributes => exact needs_attributeOrCounter.bind
  | replacements => exact absurd rfl hrule
  | macros => exact needs_macro.bind
  | postReplacements => exact .bind (.bind (.literal (c := '+') (by decide) (by decide)))
  | plain => exact Yields.fail
  | attribution => exact Yields.fail

theorem merge_read_of_markless (h : Markless (u.map char?)) :
    merge (read (construct options rule) u) = content u := by
  by_cases hrule : rule = .replacements
  · subst hrule
    exact merge_read_of_symbolless h.symbolless u rfl
  · refine merge_read_of_takesNone (takesNone_of_needs (needs_construct hrule) fun c hc hmarkup => ?_)
    exact h.not_mem (List.mem_cons_of_mem _ hmarkup) (List.mem_map_of_mem hc)

theorem outOfRange?_of_markless (h : Markless (u.map char?)) : outOfRange? rule 0 u = none := by
  have hrange : ∀ digits ∈ numerals u, inRange digits := by
    intro digits hdigits
    obtain ⟨g, hg, hnumeral⟩ := List.mem_filterMap.mp hdigits
    obtain ⟨c, hc, -⟩ := h _ (List.mem_map_of_mem hg)
    cases g with
    | char c => cases hnumeral
    | token digits => cases hc
  by_cases hrule : rule = .callouts
  · subst hrule
    exact outOfRange?_of_uncalled h.uncalled hrange
  · exact outOfRange?_eq_none hrule hrange 0

end Fragment

structure Prose (line : Line) : Prop where
  merged : Merged line
  markless : Markless (outline line)

namespace Prose

variable {line : Line} {lines : List Line} {x : Element} {s : String}

theorem empty : Prose [] := ⟨.nil, List.forall_mem_nil _⟩

theorem text (hs : s ≠ "") (h : ∀ c ∈ s.toList, c ∉ reservedChar :: markupChars) :
    Prose [.text s] :=
  ⟨.text hs, outline_singleton (x := .text s) ▸ .of_chars h⟩

theorem joined (h : ∀ line ∈ lines, Prose line) :
    Prose (merge ([.text "\n"].intercalate lines)) where
  merged := merged_merge _
  markless := by
    rw [outline_merge, outline_intercalate]
    exact .outlines fun line hline => (h line hline).markless

theorem isText (h : Prose line) (hx : x ∈ line) : x.isText := by
  refine Bool.of_not_eq_false fun htext => ?_
  have hgap := (infix_outline_of_mem hx).subset
  rw [Element.outline_of_not_isText htext] at hgap
  obtain ⟨c, hc, -⟩ := h.markless none (hgap List.mem_cons_self)
  cases hc

theorem unforged (h : Prose line) : Unforged line := fun _ hs hmem =>
  h.markless.not_mem List.mem_cons_self ((infix_outline_of_mem hs).subset (List.mem_map_of_mem hmem))

theorem setAside_eq_nil (h : ∀ line ∈ lines, Prose line) : setAside lines = [] := by
  refine List.eq_nil_iff_forall_not_mem.mpr fun x hx => ?_
  obtain ⟨line, hline, hmem⟩ := mem_of_mem_setAside hx
  have htext := (h line hline).isText hmem
  rw [isText_of_mem_setAside hx] at htext
  cases htext

theorem visited (h : Prose line) (hx : Visited x line) : ∃ s, x = .text s := by
  induction hx with
  | here hmem => exact eq_text_of_isText (h.isText hmem)
  | inside hy hs _ _ =>
    obtain ⟨t, rfl⟩ := eq_text_of_isText (h.isText hy)
    cases hs

theorem answered (h : Prose line) : Answered line := by
  refine .intro h.merged (fun x hx => ?_) fun x hx s hs => ?_
  · obtain ⟨t, rfl⟩ := h.visited (.here hx)
    rfl
  · obtain ⟨t, rfl⟩ := h.visited (.here hx)
    cases hs

theorem runFrom_resolve (h : Prose line) (r : Resolution) :
    runFrom r (resolve line) = (.ok line, r) := by
  have hevents : gather ofElement? line = [] := (gather_eq_nil_iff _).mpr fun x hx => by
    obtain ⟨t, rfl⟩ := h.visited hx
    rfl
  refine h.answered.runFrom_resolve_of_replayed ?_
  rw [hevents]
  exact replayed_nil r

end Prose

namespace Pass

variable {rule : Rule} {options : Options} {step : Step} {steps : List Step} {line : Line}
  {lines : List Line}

theorem reread_of_prose (hrule : rule ≠ .attribution) (h : ∀ line ∈ lines, Prose line) :
    reread Fragment.parse rule options lines = .ok (merge ([.text "\n"].intercalate lines)) := by
  have haside := Prose.setAside_eq_nil h
  have hmarkless : Markless ((linesGlyphs 0 lines).map char?) := by
    rw [map_char?_linesGlyphs]
    exact .outlines fun line hline => (h line hline).markless
  refine reread_of_read_eq_content hrule ?_ (fun line hline => (h line hline).unforged) ?_
    (Fragment.outOfRange?_of_markless hmarkless) (Fragment.merge_read_of_markless hmarkless)
  · rw [haside]
    decide
  · rw [haside]
    exact List.forall_mem_nil _

theorem runFrom_applyStep_of_prose (tracing : Bool) (block : String) (s : PassState)
    (hstep : step ≠ .splitLines) (h : ∀ line ∈ lines, Prose line) :
    runFrom s (applyStep ⟨Fragment.parse, tracing⟩ block step lines) =
      (.ok [merge ([.text "\n"].intercalate lines)], s) := by
  obtain ⟨rule, hrule, hne⟩ : ∃ rule, step.rule? = some rule ∧ rule ≠ .attribution := by
    cases step <;> first | exact ⟨_, rfl, nofun⟩ | exact absurd rfl hstep
  by_cases hattributes : step = .attributes
  · subst hattributes
    have hresolve := (Prose.joined h).runFrom_resolve s.resolution
    exact runFrom_applyStep_attributes block (reread_of_prose nofun h) hresolve
  · exact runFrom_applyStep block hrule hattributes (reread_of_prose hne h)

theorem exists_applySteps_of_prose (tracing : Bool) (block : String) (index : Nat) (s : PassState)
    (hsteps : .splitLines ∉ steps) (h : Prose line) : ∃ records, ∀ rest,
      runFrom s (applySteps ⟨Fragment.parse, tracing⟩ block index (steps ++ rest) [line]) =
        runFrom { s with trace := s.trace ++ records }
          (applySteps ⟨Fragment.parse, tracing⟩ block (index + steps.length) rest [line]) := by
  induction steps generalizing index s with
  | nil => exact ⟨[], fun rest => by rw [List.append_nil]; rfl⟩
  | cons step steps ih =>
    obtain ⟨hstep, hrest⟩ := List.ne_and_not_mem_of_not_mem_cons hsteps
    have hline := runFrom_applyStep_of_prose tracing block s hstep.symm
      (List.forall_mem_singleton.mpr h)
    rw [List.intercalate_singleton, h.merged.merge_eq] at hline
    obtain ⟨records, hfirst⟩ := exists_applySteps_of_unchanged hline index
    obtain ⟨others, hothers⟩ := ih (index + 1) { s with trace := s.trace ++ records } hrest
    refine ⟨records ++ others, fun rest => ?_⟩
    rw [List.cons_append, hfirst, hothers, List.append_assoc, List.length_cons, Nat.add_assoc,
      Nat.add_comm 1]

theorem applyLines_of_prose (tracing : Bool) (block : String) (s : PassState)
    (hsteps : .splitLines ∉ step :: steps)
    (h : ∀ line ∈ lines, Prose line ∧ some '\n' ∉ outline line) :
    ∃ records, runFrom s (applyLines ⟨Fragment.parse, tracing⟩ (step :: steps ++ [.splitLines])
      block lines) = (.ok lines, { s with trace := s.trace ++ records }) := by
  by_cases hempty : lines = []
  · subst hempty
    exact ⟨[], by rw [List.append_nil]; rfl⟩
  have hprose : ∀ line ∈ lines, Prose line := fun line hline => (h line hline).1
  obtain ⟨hstep, hrest⟩ := List.ne_and_not_mem_of_not_mem_cons hsteps
  obtain ⟨first, hfirst⟩ := exists_applySteps_of_unchanged
    (runFrom_applyStep_of_prose tracing block s hstep.symm hprose) 0
  obtain ⟨others, hothers⟩ := exists_applySteps_of_prose tracing block 1
    { s with trace := s.trace ++ first } hrest (Prose.joined hprose)
  obtain ⟨last, hlast⟩ := exists_applySteps_of_unchanged
    (runFrom_applyStep_splitLines ⟨Fragment.parse, tracing⟩ block
      (merge ([.text "\n"].intercalate lines)) { s with trace := s.trace ++ first ++ others })
    (1 + steps.length)
  have hsplit := splitLine_merge_intercalate hempty fun line hline =>
    ⟨(hprose line hline).merged, (h line hline).2⟩
  refine ⟨first ++ others ++ last, ?_⟩
  rw [applyLines, if_neg (by simpa using hempty), List.cons_append, hfirst, hothers, hlast, hsplit,
    List.append_assoc, List.append_assoc, List.append_assoc]
  rfl

/-- Lines that are empty or a single text, without line feeds, reserved characters and markup, come out of the
usual steps as they went in, and neither attributes nor counters nor warnings change. -/
theorem applyLines_prose (tracing : Bool) (block : String) (s : PassState) (lines : List Line)
    (h : ∀ line ∈ lines, line = [] ∨ ∃ t, t ≠ "" ∧ line = [.text t] ∧
      ∀ c ∈ t.toList, c ≠ '\n' ∧ c ≠ reservedChar ∧ c ∉ markupChars) :
    ∃ records, runFrom s (applyLines ⟨Fragment.parse, tracing⟩ (normalSteps ++ [.splitLines])
      block lines) = (.ok lines, { s with trace := s.trace ++ records }) := by
  refine applyLines_of_prose tracing block s (by decide) fun line hline => ?_
  rcases h line hline with rfl | ⟨t, hne, rfl, hchars⟩
  · exact ⟨.empty, List.not_mem_nil⟩
  · constructor
    · exact .text hne fun c hc =>
        List.not_mem_cons_of_ne_of_not_mem (hchars c hc).2.1 (hchars c hc).2.2
    · intro hbreak
      rw [outline_singleton] at hbreak
      obtain ⟨c, hc, he⟩ := List.mem_map.mp hbreak
      exact (hchars c hc).1 (Option.some.inj he)

def letter : List Line :=
  [[.text "Frau Müller, 100 % sicher!"], [], [.text "  x = y/z;\tja?"]]

theorem applyLines_prose_letter :
    (∀ line ∈ letter, line = [] ∨ ∃ t, t ≠ "" ∧ line = [.text t] ∧
      ∀ c ∈ t.toList, c ≠ '\n' ∧ c ≠ reservedChar ∧ c ∉ markupChars) ∧
    ∃ records, runFrom ⟨⟨answers, [.missingAttribute "gone"]⟩, []⟩
      (applyLines ⟨Fragment.parse, true⟩ (normalSteps ++ [.splitLines]) "paragraph" letter) =
        (.ok letter, ⟨⟨answers, [.missingAttribute "gone"]⟩, records⟩) := by
  have hletter : ∀ line ∈ letter, line = [] ∨ ∃ t, t ≠ "" ∧ line = [.text t] ∧
      ∀ c ∈ t.toList, c ≠ '\n' ∧ c ≠ reservedChar ∧ c ∉ markupChars :=
    List.forall_mem_cons.mpr ⟨.inr ⟨_, by decide, rfl, by decide⟩,
      List.forall_mem_cons.mpr ⟨.inl rfl,
        List.forall_mem_singleton.mpr (.inr ⟨_, by decide, rfl, by decide⟩)⟩⟩
  exact ⟨hletter, applyLines_prose true "paragraph" _ letter hletter⟩

end Pass

end Manuscript
