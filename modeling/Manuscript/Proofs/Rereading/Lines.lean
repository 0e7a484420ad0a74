import Manuscript.Proofs.Escaping.Counters
import Manuscript.Proofs.Rereading.Regular

namespace Manuscript

open Glyph Pending Reader

section PutBack

variable {original : UInt32 → Element} {xs ys : List Element}

def Element.refilled (original : UInt32 → Element) (x : Element) : Element :=
  match placeholder? x with
  | some reference => original reference
  | none => x.withChildren (x.children.map (putBack original))

theorem putBack_eq_map (original : UInt32 → Element) (xs : List Element) :
    putBack original xs = xs.map (Element.refilled original) := by
  rw [putBack, substituted_eq, id]
  exact List.map_congr_left fun x _ => by cases x <;> rfl

theorem putBack_append (original : UInt32 → Element) (xs ys : List Element) :
    putBack original (xs ++ ys) = putBack original xs ++ putBack original ys := by
  simp only [putBack_eq_map, List.map_append]

theorem merge_putBack (h : ∀ reference, (original reference).isText = false)
    (xs : List Element) : merge (putBack original (merge xs)) = merge (putBack original xs) := by
  have hother (x : Element) (s : String) (hx : x.refilled original = .text s) : x = .text s := by
    rw [Element.refilled] at hx
    cases hplaceholder : placeholder? x with
    | some reference =>
      rw [hplaceholder] at hx
      exact absurd hx (ne_text_of_not_isText (h reference) s)
    | none =>
      rw [hplaceholder] at hx
      have houtline := x.outline_withChildren (x.children.map (putBack original))
      cases htext : x.isText with
      | true =>
        obtain ⟨t, rfl⟩ := eq_text_of_isText htext
        exact hx
      | false =>
        rw [Element.outline_of_not_isText htext] at houtline
        change x.withChildren (x.children.map (putBack original)) = _ at hx
        rw [hx, Element.outline] at houtline
        cases hs : s.toList with
        | nil => simp [hs] at houtline
        | cons c cs => simp [hs] at houtline
  rw [putBack_eq_map, putBack_eq_map, map_merge (fun _ => rfl) hother]
  exact (merged_merge _).merge_eq

theorem nth_append_cons (before after : List Element) (x : Element)
    (few : (before ++ x :: after).length < UInt32.size) :
    nth (before ++ x :: after) (UInt32.ofNat (before.length + 1)) = x := by
  have hlength : before.length + 1 < UInt32.size := by
    rw [List.length_append, List.length_cons] at few
    omega
  rw [nth, UInt32.toNat_ofNat_of_lt' hlength, Nat.add_sub_cancel, List.getElem?_append_right le_rfl,
    Nat.sub_self]
  rfl

theorem putBack_chars (original : UInt32 → Element) (cs : List Char) :
    putBack original ((cs.map Glyph.char).map element) = (cs.map Glyph.char).map element := by
  rw [putBack_eq_map, List.map_congr_left, List.map_id]
  simp only [List.mem_map]
  rintro _ ⟨_, ⟨c, -, rfl⟩, rfl⟩
  rfl

theorem merge_chars (s : String) :
    merge ((s.toList.map Glyph.char).map element) = merge [.text s] := by
  rw [merge_map_char, String.ofList_toList]

theorem merge_putBack_lineGlyphs (line : Line) (before after : List Element)
    (few : (before ++ (line.filter (!·.isText) ++ after)).length < UInt32.size) :
    merge (putBack (nth (before ++ (line.filter (!·.isText) ++ after)))
      ((lineGlyphs before.length line).map element)) = merge line := by
  induction line generalizing before with
  | nil =>
    rw [putBack_eq_map]
    rfl
  | cons x rest ih =>
    cases htext : x.isText with
    | true =>
      obtain ⟨s, rfl⟩ := eq_text_of_isText htext
      change merge (putBack (nth (before ++ (rest.filter (!·.isText) ++ after)))
        ((s.toList.map Glyph.char ++ lineGlyphs before.length rest).map element)) = _
      rw [List.map_append, putBack_append, putBack_chars]
      exact merge_append_congr (merge_chars s) (ih before few)
    | false =>
      have hfilter : (x :: rest).filter (!·.isText) = x :: rest.filter (!·.isText) := by
        rw [List.filter_cons_of_pos (by simp [htext])]
      rw [hfilter, List.cons_append] at few ⊢
      have hnext := ih (before ++ [x])
      simp only [List.append_assoc, List.singleton_append, List.length_append,
        List.length_singleton] at hnext few
      rw [lineGlyphs.eq_3 _ _ _ (ne_text_of_not_isText htext), List.map_cons, putBack_eq_map,
        List.map_cons, ← putBack_eq_map]
      change merge (nth _ (reference (digitsOf _)) :: _) = _
      rw [reference_digitsOf, nth_append_cons _ _ _ (by simpa using few), merge_cons htext,
        merge_cons htext, hnext (by simpa [Nat.add_assoc] using few)]

theorem merge_putBack_linesGlyphs (lines : List Line) (before : List Element)
    (few : (before ++ setAside lines).length < UInt32.size) :
    merge (putBack (nth (before ++ setAside lines))
      ((linesGlyphs before.length lines).map element)) =
        merge ([.text "\n"].intercalate lines) := by
  induction lines generalizing before with
  | nil =>
    rw [putBack_eq_map]
    rfl
  | cons line rest ih =>
    have haside : setAside (line :: rest) = line.filter (!·.isText) ++ setAside rest := by
      rw [setAside, List.flatten_cons, List.filter_append, setAside]
    rw [haside] at few ⊢
    cases rest with
    | nil =>
      rw [linesGlyphs, List.intercalate_singleton]
      exact merge_putBack_lineGlyphs line before _ few
    | cons next rest =>
      have hrest := ih (before ++ line.filter (!·.isText)) (by rwa [List.append_assoc])
      rw [List.append_assoc, List.length_append] at hrest
      rw [linesGlyphs, List.map_append, putBack_append, List.intercalate_cons_cons]
      have hbreak (glyphs : List Glyph) : (Glyph.char '\n' :: glyphs).map element =
          ((['\n'].map Glyph.char).map element) ++ glyphs.map element := rfl
      rw [hbreak, putBack_append, putBack_chars, List.append_assoc]
      refine merge_append_congr (merge_putBack_lineGlyphs line before _ few) ?_
      exact merge_append_congr (merge_chars "\n") hrest
      exact List.cons_ne_nil next rest

end PutBack

theorem map_char?_linesGlyphs (k : Nat) (lines : List Line) :
    (linesGlyphs k lines).map char? = outlines lines := by
  fun_induction linesGlyphs k lines with
  | case1 => rfl
  | case2 k line => rw [map_char?_lineGlyphs, outlines_singleton]
  | case3 k line rest hne ih =>
    rw [List.map_append, map_char?_lineGlyphs, List.map_cons, ih, outlines_cons hne]
    rfl

theorem outline_intercalate (lines : List Line) :
    outline ([.text "\n"].intercalate lines) = outlines lines := by
  induction lines with
  | nil => rfl
  | cons line rest ih =>
    cases rest with
    | nil => rw [List.intercalate_singleton, outlines_singleton]
    | cons next rest =>
      rw [List.intercalate_cons_cons, outline_append, outline_append, ih, List.append_assoc,
        outlines_cons (List.cons_ne_nil _ _)]
      rfl

theorem isText_of_mem_setAside {lines : List Line} {x : Element} (h : x ∈ setAside lines) :
    x.isText = false := by
  simpa using (List.mem_filter.mp h).2

theorem isText_nth {xs : List Element} (h : ∀ x ∈ xs, x.isText = false) (reference : UInt32) :
    (nth xs reference).isText = false := by
  rw [nth]
  cases hx : xs[reference.toNat - 1]? with
  | none => rfl
  | some x => exact h x (List.mem_of_getElem? hx)

theorem isText_original {parse : String → Except Fault (List Element)} {lines : List Line}
    {payloads : List Element} (h : (setAside lines).mapM (parsePayload parse) = .ok payloads)
    (reference : UInt32) : ((handedOut payloads).original reference).isText = false := by
  have hpayloads : ∀ x ∈ payloads, x.isText = false :=
    forall_of_mapM_ok (fun _ _ hx hpayload => (isText_of_parsePayload hpayload).trans hx) h
      fun _ => isText_of_mem_setAside
  rcases original_handedOut_cases payloads reference with hmem | hnone
  · exact hpayloads _ hmem
  · rw [hnone]
    rfl

namespace Pass

variable {rule : Rule} {options : Options} {lines : List Line}

theorem reread_of_read_eq_content (hrule : rule ≠ .attribution)
    (few : (setAside lines).length < UInt32.size) (clean : ∀ line ∈ lines, Unforged line)
    (hfixed : ∀ x ∈ setAside lines, parsePayload (Fragment.parse rule options) x = .ok x)
    (hrange : Fragment.outOfRange? rule 0 (linesGlyphs 0 lines) = none)
    (hread : merge (Fragment.read (Fragment.construct options rule) (linesGlyphs 0 lines)) =
      content (linesGlyphs 0 lines)) :
    reread Fragment.parse rule options lines = .ok (merge ([.text "\n"].intercalate lines)) := by
  have hpayloads : (setAside lines).mapM (parsePayload (Fragment.parse rule options)) =
      .ok (setAside lines) := by
    rw [mapM_eq_ok_iff, List.forall₂_same]
    exact hfixed
  have hparsed : Fragment.parse rule options (serialized lines) =
      .ok (content (linesGlyphs 0 lines)) := by
    rw [← scan_serialized clean] at hrange hread ⊢
    rw [Fragment.parse_of_inRange hrule hrange, hread]
  have honce : ExactlyOnce (setAside lines).length (content (linesGlyphs 0 lines)) := by
    refine exactlyOnce_of_references few ?_
    rw [references_content, ← scan_serialized clean, tokens_scan_serialized clean]
  rw [reread_eq_ok few hpayloads hparsed honce, content,
    merge_putBack (isText_nth fun _ => isText_of_mem_setAside)]
  exact congrArg Except.ok (merge_putBack_linesGlyphs lines [] few)

end Pass

section Split

variable {line : Line} {lines : List Line} {xs : List Element} {s : String}

theorem Text.fields_append_cons {sep : Char → Bool} {cs : List Char} {c : Char} (hc : sep c)
    (h : ∀ d ∈ cs, sep d = false) (rest : List Char) :
    fields sep (cs ++ c :: rest) = cs :: fields sep rest := by
  induction cs with
  | nil => rw [List.nil_append, fields, if_pos hc]
  | cons d cs ih =>
    obtain ⟨hd, hcs⟩ := List.forall_mem_cons.mp h
    rw [List.cons_append, fields, if_neg (by simp [hd]), ih hcs]

theorem Text.fields_of_forall {sep : Char → Bool} {cs : List Char}
    (h : ∀ d ∈ cs, sep d = false) : fields sep cs = [cs] := by
  induction cs with
  | nil => rfl
  | cons d cs ih =>
    obtain ⟨hd, hcs⟩ := List.forall_mem_cons.mp h
    rw [fields, if_neg (by simp [hd]), ih hcs]

theorem beq_eq_false_of_not_mem {c : Char} {cs : List Char} (h : c ∉ cs) :
    ∀ d ∈ cs, (d == c) = false :=
  fun _ hd => beq_eq_false_iff_ne.mpr fun he => h (he ▸ hd)

theorem splitOn_line (h : '\n' ∉ s.toList) (t : String) :
    Text.splitOn '\n' (s ++ "\n" ++ t) = s :: Text.splitOn '\n' t := by
  have htext : (s ++ "\n" ++ t).toList = s.toList ++ '\n' :: t.toList := by simp
  rw [Text.splitOn, htext, Text.fields_append_cons rfl (beq_eq_false_of_not_mem h), List.map_cons, String.ofList_toList]
  rfl

theorem joinLines_cons (h : lines ≠ []) (after : List Line) :
    joinLines (line :: lines) after = line :: joinLines lines after :=
  joinLines.eq_3 _ _ _ h

theorem prependTo_nil (h : lines ≠ []) : prependTo [] lines = lines := by
  obtain ⟨first, rest, rfl⟩ := List.exists_cons_of_ne_nil h
  rfl

theorem splitLine_pushText_line (h : '\n' ∉ s.toList) (xs : List Element) :
    splitLine (pushText (s ++ "\n") xs) = fragment s :: splitLine xs := by
  have hne : s ++ "\n" ≠ "" := fun he => absurd (String.append_eq_empty_iff.mp he).2 (by decide)
  fun_cases pushText (s ++ "\n") xs with
  | case1 t rest =>
    rw [splitLine, splitOn_line h, List.map_cons, joinLines_cons (splitOn_ne_nil t), splitLine]
  | case2 _ hnot hempty => exact absurd hempty hne
  | case3 _ hnot hsome =>
    have hcut := splitOn_line h ""
    rw [String.append_empty] at hcut
    rw [splitLine, hcut, List.map_cons, joinLines_cons (splitOn_ne_nil "")]
    exact congrArg (fragment s :: ·) (prependTo_nil (splitLine_ne_nil xs))

theorem splitOn_of_not_mem (h : '\n' ∉ s.toList) : Text.splitOn '\n' s = [s] := by
  rw [Text.splitOn, Text.fields_of_forall (beq_eq_false_of_not_mem h), List.map_singleton, String.ofList_toList]

theorem splitLine_merge_line (hline : Merged line) (h : some '\n' ∉ outline line)
    (xs : List Element) :
    splitLine (merge (line ++ .text "\n" :: xs)) = line :: splitLine (merge xs) := by
  induction line with
  | nil =>
    rw [List.nil_append, merge, ← String.empty_append (s := "\n")]
    exact splitLine_pushText_line (by simp) _
  | cons x rest ih =>
    obtain ⟨hx, hhead, hrest⟩ := Merged.cons_iff.mp hline
    rw [outline_cons, List.mem_append, not_or] at h
    cases htext : x.isText with
    | false =>
      rw [List.cons_append, merge_cons htext, splitLine.eq_3 _ _ (ne_text_of_not_isText htext),
        ih hrest h.2]
      rfl
    | true =>
      obtain ⟨s, rfl⟩ := eq_text_of_isText htext
      have hs : '\n' ∉ s.toList := fun hmem => h.1 (List.mem_map_of_mem hmem)
      have hne : s ≠ "" := fun he => hx (he ▸ rfl)
      cases rest with
      | nil =>
        rw [List.singleton_append, merge, merge, pushText_pushText, splitLine_pushText_line hs,
          fragment, if_neg hne]
      | cons y others =>
        have hy : y.isText = false := (hhead y rfl).resolve_left (by simp [Element.isText])
        have hsplit := ih hrest h.2
        have hapart : ∀ z ∈ (y :: merge (others ++ .text "\n" :: xs)).head?, z.isText = false :=
          fun z hz => Option.some.inj hz ▸ hy
        rw [List.cons_append, merge_cons hy] at hsplit
        rw [List.cons_append, List.cons_append, merge, merge_cons hy, pushText_of_apart hne hapart,
          splitLine, hsplit, splitOn_of_not_mem hs, List.map_singleton, fragment, if_neg hne]
        rfl

theorem splitLine_of_unsplit (h : Unsplit line) : splitLine line = [line] := by
  induction line with
  | nil => rfl
  | cons x rest ih =>
    obtain ⟨hbreak, hempty⟩ := h
    rw [outline_cons, List.mem_append, not_or] at hbreak
    obtain ⟨hx, hrest⟩ := List.ne_and_not_mem_of_not_mem_cons hempty
    have hsplit := ih ⟨hbreak.2, hrest⟩
    cases htext : x.isText with
    | false =>
      rw [splitLine.eq_3 _ _ (ne_text_of_not_isText htext), hsplit]
      rfl
    | true =>
      obtain ⟨s, rfl⟩ := eq_text_of_isText htext
      have hs : '\n' ∉ s.toList := fun hmem => hbreak.1 (List.mem_map_of_mem hmem)
      have hne : s ≠ "" := fun he => hx (he ▸ rfl)
      rw [splitLine, hsplit, splitOn_of_not_mem hs, List.map_singleton, fragment, if_neg hne]
      rfl

theorem splitLine_merge_intercalate (hne : lines ≠ [])
    (h : ∀ line ∈ lines, Merged line ∧ some '\n' ∉ outline line) :
    splitLine (merge ([.text "\n"].intercalate lines)) = lines := by
  induction lines with
  | nil => exact absurd rfl hne
  | cons line rest ih =>
    obtain ⟨⟨hline, hbreak⟩, hrest⟩ := List.forall_mem_cons.mp h
    cases rest with
    | nil => rw [List.intercalate_singleton, hline.merge_eq, splitLine_of_unsplit ⟨hbreak, hline.nonempty⟩]
    | cons next rest =>
      rw [List.intercalate_cons_cons, List.append_assoc, List.singleton_append,
        splitLine_merge_line hline hbreak, ih (List.cons_ne_nil _ _) hrest]

end Split

namespace Pass

variable {s : PassState} {options : Options} {lines : List Line}

theorem runFrom_recordStep (setting : Setting) (record : Record) (s : PassState) :
    ∃ records, runFrom s (recordStep setting record) =
      (.ok (), { s with trace := s.trace ++ records }) := by
  rw [recordStep]
  split
  · exact ⟨[record], rfl⟩
  · exact ⟨[], by rw [List.append_nil]; rfl⟩

theorem exists_applySteps_of_unchanged {setting : Setting} {block : String} {step : Step}
    {after : List Line} (h : runFrom s (applyStep setting block step lines) = (.ok after, s))
    (index : Nat) : ∃ records, ∀ rest,
      runFrom s (applySteps setting block index (step :: rest) lines) =
        runFrom { s with trace := s.trace ++ records }
          (applySteps setting block (index + 1) rest after) := by
  obtain ⟨records, hrecord⟩ := runFrom_recordStep setting ⟨block, index, step, after⟩ s
  have htake : runFrom s (takeStep setting block index step lines) = (.ok after, _) :=
    (runFrom_bind_ok h _).trans (runFrom_bind_ok hrecord _)
  refine ⟨records, fun rest => ?_⟩
  rw [applySteps_cons]
  exact runFrom_bind_ok htake _

theorem parse_plain (options : Options) {text : String} (hne : text ≠ "") (hclean : Clean text) :
    Fragment.parse .plain options text = .ok [.text text] :=
  Fragment.parse_of_takesNone (by decide) (by decide) hne hclean
    (List.all_eq_true.mpr fun _ _ => Bool.or_true _)

theorem fixed_plain {content : List Element} (h : Regular content) (options : Options) :
    Fixed (Fragment.parse .plain options) content where
  merged := h.merged
  texts s hs := parse_plain options (fun he => h.merged.nonempty (he ▸ hs)) (h.unforged s hs)

theorem reread_plain (few : (setAside lines).length < UInt32.size)
    (clean : ∀ line ∈ lines, Unforged line) (hquotes : ∀ line ∈ lines, AllQuote Regular line)
    (options : Options) : reread Fragment.parse .plain options lines =
      .ok (merge ([.text "\n"].intercalate lines)) := by
  have hnone : Fragment.takesNone (Fragment.construct options .plain) (linesGlyphs 0 lines) :=
    List.all_eq_true.mpr fun _ _ => Bool.or_true _
  refine reread_of_read_eq_content (by decide) few clean (fun x hx => ?_) ?_
    (Fragment.merge_read_of_takesNone hnone)
  · obtain ⟨line, hline, hmem⟩ := mem_of_mem_setAside hx
    have hx := allQuote_iff.mp (hquotes line hline) x hmem
    exact parsePayload_of_fixed x (hx.mono (fun _ h => fixed_plain h options) x)
  · refine Fragment.outOfRange?_eq_none (by decide) (fun digits hd => ?_) 0
    rw [numerals_linesGlyphs] at hd
    obtain ⟨n, -, rfl⟩ := List.mem_map.mp hd
    exact inRange_digitsOf n

/-- Reading lines without looking for anything, and splitting what comes of it, gives the same lines: all that
was set aside comes back where it was, and no text is taken apart. The numbers of placeholders have 32 bits, so
there is one for everything that is set aside only if that is less than `2 ^ 32`. -/
theorem applyLines_plain_splitLines (tracing : Bool) (block : String) (s : PassState)
    {lines : List Line} (few : (setAside lines).length < UInt32.size)
    (hlines : ∀ line ∈ lines, Regular line ∧ some '\n' ∉ outline line)
    (hquotes : ∀ line ∈ lines, AllQuote Regular line) :
    ∃ records, runFrom s (applyLines ⟨Fragment.parse, tracing⟩ [.plain, .splitLines] block lines) =
      (.ok lines, { s with trace := s.trace ++ records }) := by
  by_cases hempty : lines = []
  · subst hempty
    exact ⟨[], by rw [List.append_nil]; rfl⟩
  have hread := reread_plain few (fun line hline => (hlines line hline).1.unforged) hquotes
    (optionsOf s.resolution.store)
  have hsplit := splitLine_merge_intercalate hempty fun line hline =>
    ⟨(hlines line hline).1.merged, (hlines line hline).2⟩
  have hstep : runFrom s (applyStep ⟨Fragment.parse, tracing⟩ block .plain lines) =
      (.ok [merge ([.text "\n"].intercalate lines)], s) :=
    runFrom_applyStep block rfl (by decide) hread
  obtain ⟨records, hplain⟩ := exists_applySteps_of_unchanged hstep 0
  obtain ⟨others, hlast⟩ := exists_applySteps_of_unchanged
    (runFrom_applyStep_splitLines ⟨Fragment.parse, tracing⟩ block
      (merge ([.text "\n"].intercalate lines)) { s with trace := s.trace ++ records }) 1
  refine ⟨records ++ others, ?_⟩
  rw [applyLines, if_neg (by simpa using hempty), hplain, hlast, hsplit, List.append_assoc]
  rfl

def start : PassState := ⟨⟨.ofOverrides ∅, []⟩, []⟩

def mixedLines : List Line :=
  [[.text "*1", .quoted .bold ∅ [.text "<2>", .lineBreak], .lineBreak, .text "3*"], [],
    [.quotation .single [.quoted .italic ∅ [.text "--"]]]]

theorem regular_mixedLines : (∀ line ∈ mixedLines, Regular line ∧ some '\n' ∉ outline line) ∧
    ∀ line ∈ mixedLines, AllQuote Regular line := by
  have hlast : Regular [.text "3*"] := .text (by decide)
  have hbold : Regular [.text "<2>", .lineBreak] :=
    .cons_text (by decide) (fun _ hy => Option.some.inj hy ▸ rfl) (.cons_other rfl .nil)
  have hitalic : Regular [.text "--"] := .text (by decide)
  have hfirst : Regular [.text "*1", .quoted .bold ∅ [.text "<2>", .lineBreak], .lineBreak,
      .text "3*"] :=
    .cons_text (by decide) (fun _ hy => Option.some.inj hy ▸ rfl)
      (.cons_other rfl (.cons_other rfl hlast))
  constructor
  · refine List.forall_mem_cons.mpr ⟨⟨hfirst, by decide⟩, List.forall_mem_cons.mpr ⟨⟨.nil, by decide⟩, ?_⟩⟩
    exact List.forall_mem_singleton.mpr ⟨.cons_other rfl .nil, by decide⟩
  · refine List.forall_mem_cons.mpr ⟨?_, List.forall_mem_cons.mpr ⟨trivial, ?_⟩⟩
    · exact ⟨trivial, ⟨hbold, trivial, trivial, trivial⟩, trivial, trivial, trivial⟩
    · exact List.forall_mem_singleton.mpr
        ⟨⟨.cons_other rfl .nil, ⟨hitalic, trivial, trivial⟩, trivial⟩, trivial⟩

theorem applyLines_mixedLines : (setAside mixedLines).length < UInt32.size ∧
    (∀ line ∈ mixedLines, Regular line ∧ some '\n' ∉ outline line) ∧
    (∀ line ∈ mixedLines, AllQuote Regular line) ∧
    ∃ records, runFrom ⟨⟨.ofOverrides ∅, []⟩, []⟩ (applyLines ⟨Fragment.parse, true⟩
      [.plain, .splitLines] "paragraph" mixedLines) =
        (.ok mixedLines, ⟨⟨.ofOverrides ∅, []⟩, records⟩) := by
  have few : (setAside mixedLines).length < UInt32.size := by decide
  obtain ⟨hlines, hquotes⟩ := regular_mixedLines
  exact ⟨few, hlines, hquotes, applyLines_plain_splitLines true "paragraph" _ few hlines hquotes⟩

end Pass

end Manuscript
