import Manuscript.Proofs.Rereading.Steps

namespace Manuscript

open Glyph Pending Reader

section Count

variable {line : Line} {lines : List Line}

theorem count_outlines (hne : lines ≠ []) (h : ∀ line ∈ lines, some '\n' ∉ outline line) :
    (outlines lines).count (some '\n') + 1 = lines.length := by
  induction lines with
  | nil => exact absurd rfl hne
  | cons line rest ih =>
    obtain ⟨hline, hrest⟩ := List.forall_mem_cons.mp h
    by_cases hnone : rest = []
    · rw [hnone, outlines_singleton, List.count_eq_zero_of_not_mem hline]
      rfl
    · rw [outlines_cons hnone, List.count_append, List.count_eq_zero_of_not_mem hline, Nat.zero_add,
        List.count_cons_self, ih hnone hrest, List.length_cons]

theorem length_splitLine (line : Line) :
    (splitLine line).length = (outline line).count (some '\n') + 1 := by
  have hunsplit : ∀ part ∈ splitLine line, some '\n' ∉ outline part :=
    fun part hpart => (unsplit_of_mem_splitLine part hpart).1
  rw [← outlines_splitLine, count_outlines (splitLine_ne_nil line) hunsplit]

theorem count_map_char? (c : Char) (t : List Glyph) :
    (t.map char?).count (some c) = t.count (.char c) := by
  induction t with
  | nil => rfl
  | cons g t ih => cases g <;> simp [List.count_cons, char?, ih]

theorem Hides.count {t : List Glyph} {o : List (Option Char)} (h : Hides t o) :
    o.count (some '\n') = t.count (.char '\n') := by
  induction h with
  | nil => rfl
  | token digits _ ih => rwa [List.count_cons_of_ne (by simp), List.count_cons_of_ne (by simp)]
  | @callout digits t o _ _ hdigits _ ih =>
    have hnone : .char '\n' ∉ (Numeral.callout digits).glyphs := by
      rw [Numeral.glyphs_callout]
      intro hmem
      obtain ⟨c, hc, he⟩ := List.mem_map.mp hmem
      obtain rfl := Glyph.char.inj he
      simp only [List.mem_cons, List.mem_append, List.not_mem_nil, or_false] at hc
      rcases hc with hc | hc | hc
      · cases hc
      · exact absurd (hdigits _ hc) (by decide)
      · cases hc
    rw [List.count_cons_of_ne (by simp), List.count_append, List.count_eq_zero_of_not_mem hnone,
      Nat.zero_add, ih]
  | char _ _ ih => simp [List.count_cons, ih]

end Count

namespace Fragment

variable {construct : Reader (List Element)}

def taken (construct : Reader (List Element)) (glyphs : List Glyph) : List (List Glyph) :=
  match glyphs with
  | [] => []
  | .token _ :: rest => taken construct rest
  | .char c :: rest =>
      match construct.take? (.char c :: rest) with
      | some (_, left) =>
          (.char c :: rest).take ((.char c :: rest).length - left.left.length) ::
            taken construct left.left
      | none =>
          if Text.isWordChar c then
            taken construct (breakAt (fun glyphs => !continuesWord glyphs) rest).2
          else taken construct rest
termination_by glyphs.length
decreasing_by
  · simp
  · exact left.shorter
  · have := congrArg List.length (breakAt_append (fun glyphs => !continuesWord glyphs) rest)
    simp at this ⊢
    omega
  · simp

theorem taken_of_take? {t : List Glyph} {c : Char} {rest : List Glyph} {elements : List Element}
    {left : Rest (.char c :: rest)}
    (htake : construct.take? (.char c :: rest) = some (elements, left))
    (ht : .char c :: rest = t ++ left.left) :
    taken construct (.char c :: rest) = t :: taken construct left.left := by
  have hpart {whole after : List Glyph} (h : whole = t ++ after) :
      whole.take (whole.length - after.length) = t := by
    rw [h, List.length_append, Nat.add_sub_cancel, List.take_left]
  rw [taken, htake]
  exact congrArg (· :: _) (hpart ht)

theorem count_outline_eq_zero {xs : List Element} (h : ∀ x ∈ xs, x.isText = false) (c : Char) :
    (outline xs).count (some c) = 0 := by
  refine List.count_eq_zero_of_not_mem fun hmem => ?_
  obtain ⟨t, ht, -⟩ := exists_text_of_mem_outline hmem
  exact absurd rfl (ne_text_of_not_isText (h _ ht) t)

theorem count_outline_read (hgaps : construct.Yields fun _ xs => ∀ x ∈ xs, x.isText = false)
    (c : Char) (t : List Glyph) :
    (outline (read construct t)).count (some c) + (taken construct t).flatten.count (.char c) =
      t.count (.char c) := by
  fun_induction read construct t with
  | case1 =>
    rw [taken]
    rfl
  | case2 digits rest ih =>
    rw [taken, List.count_cons_of_ne (by simp), ← ih, outline_cons]
    exact congrArg (· + _) (List.count_cons_of_ne (by simp))
  | case3 d rest elements left htake ih =>
    obtain ⟨t, ht, helements⟩ := hgaps.of_take? htake
    rw [taken_of_take? htake ht, outline_append, List.count_append,
      count_outline_eq_zero helements, Nat.zero_add, List.flatten_cons, List.count_append,
      Nat.add_left_comm, ih, ← List.count_append]
    exact congrArg (List.count _) ht.symm
  | case4 d rest htake hword split ih =>
    have hrest : split.1 ++ split.2 = rest := breakAt_append ..
    obtain ⟨cs, hcs, -⟩ := exists_chars_of_word hword rest
    have hsplit : taken construct (.char d :: rest) = taken construct split.2 := by
      rw [taken, htake]
      exact if_pos hword
    have houtline : (Element.text (textOf (.char d :: split.1))).outline =
        (Glyph.char d :: split.1).map char? := by
      rw [hcs, textOf_map_char, Element.outline, String.toList_ofList, List.map_map]
      rfl
    rw [hsplit, outline_cons, houtline, List.count_append, count_map_char?, Nat.add_assoc, ih,
      ← List.count_append, List.cons_append, hrest]
  | case5 d rest htake hword ih =>
    have hnext : taken construct (.char d :: rest) = taken construct rest := by
      rw [taken, htake]
      exact if_neg hword
    have houtline : (Element.text (String.singleton d)).outline = [Glyph.char d].map char? := by
      simp [Element.outline, char?]
    rw [hnext, outline_cons, houtline, List.count_append, count_map_char?, Nat.add_assoc, ih,
      ← List.count_append]
    rfl

theorem gaps_specials (options : Options) :
    (Fragment.construct options .specials).Yields fun _ xs => ∀ x ∈ xs, x.isText = false :=
  Construct.yields_single (Construct.yields_special_of
    (fun _ _ => List.forall_mem_singleton.mpr rfl) fun _ _ => List.forall_mem_singleton.mpr rfl)

end Fragment

namespace Pass

variable {rule : Rule} {options : Options} {lines : List Line} {payloads parsed : List Element}

theorem reread_of_parse (hmacros : rule ≠ .macros) (hattribution : rule ≠ .attribution)
    (few : (setAside lines).length < UInt32.size) (clean : ∀ line ∈ lines, Unforged line)
    (hpayloads : (setAside lines).mapM (parsePayload (Fragment.parse rule options)) = .ok payloads)
    (hparsed : Fragment.parse rule options (serialized lines) = .ok parsed) :
    reread Fragment.parse rule options lines = .ok (merge (putBack (nth payloads) parsed)) := by
  have hrefs := (Fragment.parse_serialized_conserves hmacros hattribution options few clean hparsed).1
  exact reread_eq_ok few hpayloads hparsed (exactlyOnce_of_references few hrefs)

theorem setAside_of_text (htext : ∀ line ∈ lines, ∀ x ∈ line, x.isText = true) :
    setAside lines = [] := by
  refine List.filter_eq_nil_iff.mpr fun x hx => ?_
  obtain ⟨line, hline, hmem⟩ := List.mem_flatten.mp hx
  simp [htext line hline x hmem]

theorem exists_reread_callouts (htext : ∀ line ∈ lines, ∀ x ∈ line, x.isText = true)
    (clean : ∀ line ∈ lines, Unforged line)
    (hrange : ∀ before mark, MarkedAt .callouts (scan (serialized lines).toList) before mark →
      inRange mark.digits) (options : Options) :
    ∃ whole, reread Fragment.parse .callouts options lines = .ok whole ∧
      (outline whole).count (some '\n') = (outlines lines).count (some '\n') ∧ Unforged whole ∧
      ∀ x ∈ setAside [whole], ∀ p, x.Quotes p := by
  have hnone := setAside_of_text htext
  have hparsed : Fragment.parse .callouts options (serialized lines) = .ok _ :=
    Fragment.parse_of_inRange (by decide) (Fragment.outOfRange?_eq_none_iff.mpr hrange)
  have hpayloads : (setAside lines).mapM (parsePayload (Fragment.parse .callouts options)) =
      .ok [] := by
    rw [hnone]
    rfl
  have hread := reread_of_parse (by decide) (by decide) (by rw [hnone]; decide) clean hpayloads hparsed
  have houtline := outline_merge (putBack (nth [])
    (merge (Fragment.read (Fragment.construct options .callouts) (scan (serialized lines).toList))))
  rw [outline_putBack (isText_nth (List.forall_mem_nil _))] at houtline
  refine ⟨_, hread, ?_, unforged_of_outline (by decide) clean hparsed houtline, fun x hx p => ?_⟩
  · rw [houtline, outline_merge, (Fragment.hides_read _).count, scan_serialized clean,
      ← count_map_char?, map_char?_linesGlyphs]
  · obtain ⟨_, hline, hmem⟩ := mem_of_mem_setAside hx
    rw [List.mem_singleton.mp hline] at hmem
    have hback := mem_of_mem_merge hmem (isText_of_mem_setAside hx)
    rw [putBack_eq_map] at hback
    obtain ⟨y, hy, rfl⟩ := List.mem_map.mp hback
    have hmakes := (everywhere_iff.mp (Fragment.makes_parse hparsed) y hy).1
    cases hplaceholder : placeholder? y with
    | none =>
      rw [Rule.refilled_of_makes (by decide) hmakes hplaceholder]
      exact Rule.quotes_of_makes (by decide) hmakes p
    | some reference =>
      rw [Element.refilled, hplaceholder]
      trivial

def specialsIn (lines : List Line) : List (List Glyph) :=
  Fragment.taken (Construct.single Construct.special) (scan (serialized lines).toList)

theorem exists_reread_specials {whole : Line} (few : (setAside [whole]).length < UInt32.size)
    (clean : Unforged whole) (hplain : ∀ x ∈ setAside [whole], ∀ p, x.Quotes p) (options : Options) :
    ∃ line, reread Fragment.parse .specials options [whole] = .ok line ∧
      (outline line).count (some '\n') + (specialsIn [whole]).flatten.count (.char '\n') =
        (outline whole).count (some '\n') := by
  have hunforged : ∀ line ∈ [whole], Unforged line := List.forall_mem_singleton.mpr clean
  have hparsed : Fragment.parse .specials options (serialized [whole]) = _ :=
    Fragment.parse_serialized (by decide) (by decide) hunforged options
  have hpayloads : (setAside [whole]).mapM (parsePayload (Fragment.parse .specials options)) =
      .ok (setAside [whole]) := by
    rw [mapM_eq_ok_iff, List.forall₂_same]
    exact fun x hx => parsePayload_of_fixed x (hplain x hx _)
  refine ⟨_, reread_of_parse (by decide) (by decide) few hunforged hpayloads hparsed, ?_⟩
  rw [outline_merge, outline_putBack (isText_nth fun _ => isText_of_mem_setAside), outline_merge]
  refine (Fragment.count_outline_read (Fragment.gaps_specials options) '\n' _).trans ?_
  rw [scan_serialized hunforged, ← count_map_char?, map_char?_linesGlyphs, outlines_singleton]

section Verbatim

variable {kind : BlockKind} {attributes : Attributes}

theorem steps_of_verbatim (hkind : kind ∈ [.listing, .fenced, .literal])
    (hsubs : attributes.text? "subs" = none) :
    Directive.forBlock kind attributes = .ok [.callouts, .specials, .splitLines] := by
  rw [Directive.forBlock, Directive.selectFor, hsubs]
  simp only [List.mem_cons, List.not_mem_nil, or_false] at hkind
  rcases hkind with rfl | rfl | rfl <;> rfl

theorem runFrom_applyElement_verbatim (hkind : kind ∈ [.listing, .fenced, .literal])
    (hsubs : attributes.text? "subs" = none) {setting : Setting} {after : List Line}
    {s s' : PassState}
    (h : runFrom s (applyLines setting [.callouts, .specials, .splitLines] kind.name lines) =
      (.ok after, s')) :
    runFrom s (applyElement setting (.lineBlock kind attributes lines)) =
      (.ok (.lineBlock kind attributes after), s') := by
  have hmove : moveAttribution setting kind attributes lines = pure (attributes, lines) := by
    rw [moveAttribution, if_neg]
    rintro rfl
    exact absurd hkind (by decide)
  rw [applyElement, steps_of_verbatim hkind hsubs, hmove]
  exact runFrom_bind_ok h _

theorem count_specialsIn_eq_zero_iff :
    (specialsIn lines).flatten.count (.char '\n') = 0 ↔
      ∀ part ∈ specialsIn lines, .char '\n' ∉ part := by
  rw [List.count_eq_zero]
  simp only [List.mem_flatten, not_exists, not_and]

theorem exists_applySteps_specials {block : String} {index : Nat} {whole : Line}
    (few : (setAside [whole]).length < UInt32.size) (clean : Unforged whole)
    (hplain : ∀ x ∈ setAside [whole], ∀ p, x.Quotes p) (tracing : Bool) (s : PassState) :
    ∃ after s', runFrom s (applySteps ⟨Fragment.parse, tracing⟩ block index [.specials, .splitLines]
        [whole]) = (.ok after, s') ∧
      after.length + (specialsIn [whole]).flatten.count (.char '\n') =
        (outline whole).count (some '\n') + 1 := by
  obtain ⟨line, hread, hlost⟩ := exists_reread_specials few clean hplain
    (optionsOf s.resolution.store)
  have hspecials : runFrom s (applyStep ⟨Fragment.parse, tracing⟩ block .specials [whole]) =
      (.ok [line], s) := runFrom_applyStep block rfl (by decide) hread
  obtain ⟨records, hfirst⟩ := exists_applySteps_of_unchanged hspecials index
  obtain ⟨others, hlast⟩ := exists_applySteps_of_unchanged
    (runFrom_applyStep_splitLines ⟨Fragment.parse, tracing⟩ block line
      { s with trace := s.trace ++ records }) (index + 1)
  refine ⟨splitLine line, _, (hfirst _).trans (hlast []), ?_⟩
  rw [length_splitLine, ← hlost]
  exact Nat.add_right_comm _ _ _

/-- A block that is shown as it is written has fewer lines afterwards by as many line ends as stand inside the
special characters and cross references that are found once the callouts are. -/
theorem applyElement_verbatim_lines (tracing : Bool) (hkind : kind ∈ [.listing, .fenced, .literal])
    (hsubs : attributes.text? "subs" = none)
    (htext : ∀ line ∈ lines, ∀ x ∈ line, x.isText = true)
    (hlines : ∀ line ∈ lines, Unforged line ∧ some '\n' ∉ outline line)
    (hrange : ∀ before mark, MarkedAt .callouts (scan (serialized lines).toList) before mark →
      inRange mark.digits) (s : PassState) :
    ∃ marked s₁, runFrom s (applyLines ⟨Fragment.parse, tracing⟩ [.callouts] kind.name lines) =
        (.ok marked, s₁) ∧
      ((setAside marked).length < UInt32.size → ∃ after s',
        runFrom s (applyElement ⟨Fragment.parse, tracing⟩ (.lineBlock kind attributes lines)) =
          (.ok (.lineBlock kind attributes after), s') ∧
        after.length + (specialsIn marked).flatten.count (.char '\n') = lines.length ∧
        (after.length = lines.length ↔ ∀ part ∈ specialsIn marked, .char '\n' ∉ part)) := by
  by_cases hempty : lines = []
  · subst hempty
    have hnone : specialsIn [] = [] := by
      rw [specialsIn, show (serialized []).toList = [] from rfl, scan, Fragment.taken]
    refine ⟨[], s, rfl, fun _ => ⟨[], s, runFrom_applyElement_verbatim hkind hsubs rfl, ?_⟩⟩
    simp [hnone]
  obtain ⟨whole, hread, hcount, clean, hplain⟩ := exists_reread_callouts htext
    (fun line hline => (hlines line hline).1) hrange (optionsOf s.resolution.store)
  have hcallouts : runFrom s (applyStep ⟨Fragment.parse, tracing⟩ kind.name .callouts lines) =
      (.ok [whole], s) := runFrom_applyStep kind.name rfl (by decide) hread
  obtain ⟨records, hfirst⟩ := exists_applySteps_of_unchanged hcallouts 0
  set s₁ : PassState := { s with trace := s.trace ++ records }
  have hmarked (steps : List Step) :
      runFrom s (applyLines ⟨Fragment.parse, tracing⟩ (.callouts :: steps) kind.name lines) =
        runFrom s₁ (applySteps ⟨Fragment.parse, tracing⟩ kind.name 1 steps [whole]) := by
    rw [applyLines, if_neg (by simpa using hempty), hfirst]
  refine ⟨[whole], s₁, hmarked [], fun few => ?_⟩
  obtain ⟨after, s', hlast, hlost⟩ := exists_applySteps_specials few clean hplain tracing s₁
  have htotal : after.length + (specialsIn [whole]).flatten.count (.char '\n') = lines.length := by
    rw [hlost, hcount, count_outlines hempty fun line hline => (hlines line hline).2]
  refine ⟨after, s', runFrom_applyElement_verbatim hkind hsubs ((hmarked _).trans hlast), htotal, ?_⟩
  rw [← count_specialsIn_eq_zero_iff]
  omega

end Verbatim

section Listing

theorem unforged_text {s : String} (h : reservedChar ∉ s.toList) : Unforged [.text s] := by
  intro t ht
  rw [Element.text.inj (List.mem_singleton.mp ht)]
  exact h

def escaped : List Line := [[.text "x < y"], [.text "b & c"]]

theorem isText_escaped : ∀ line ∈ escaped, ∀ x ∈ line, x.isText = true := by decide

theorem unforged_escaped : ∀ line ∈ escaped, Unforged line ∧ some '\n' ∉ outline line := by
  refine List.forall_mem_cons.mpr ⟨⟨unforged_text (by decide), by decide⟩, ?_⟩
  exact List.forall_mem_singleton.mpr ⟨unforged_text (by decide), by decide⟩

theorem outOfRange?_escaped :
    Fragment.outOfRange? .callouts 0 (scan (serialized escaped).toList) = none := by
  rw [scan_serialized fun line hline => (unforged_escaped line hline).1]
  rfl

theorem inRange_escaped (before : List Glyph) (mark : Numeral)
    (h : MarkedAt .callouts (scan (serialized escaped).toList) before mark) : inRange mark.digits :=
  Fragment.outOfRange?_eq_none_iff.mp outOfRange?_escaped before mark h

theorem applyElement_verbatim_lines_escaped :
    BlockKind.listing ∈ [.listing, .fenced, .literal] ∧ (∅ : Attributes).text? "subs" = none ∧
    (∀ line ∈ escaped, ∀ x ∈ line, x.isText = true) ∧
    (∀ line ∈ escaped, Unforged line ∧ some '\n' ∉ outline line) ∧
    (∀ before mark, MarkedAt .callouts (scan (serialized escaped).toList) before mark →
      inRange mark.digits) ∧
    ∃ marked s₁, runFrom start
        (applyLines ⟨Fragment.parse, true⟩ [.callouts] BlockKind.listing.name escaped) =
          (.ok marked, s₁) ∧
      ((setAside marked).length < UInt32.size → ∃ after s',
        runFrom start (applyElement ⟨Fragment.parse, true⟩ (.lineBlock .listing ∅ escaped)) =
          (.ok (.lineBlock .listing ∅ after), s') ∧
        after.length + (specialsIn marked).flatten.count (.char '\n') = escaped.length ∧
        (after.length = escaped.length ↔ ∀ part ∈ specialsIn marked, .char '\n' ∉ part)) :=
  ⟨by decide, rfl, isText_escaped, unforged_escaped, inRange_escaped,
    applyElement_verbatim_lines true (by decide) rfl isText_escaped unforged_escaped inRange_escaped
      start⟩

def broken : List Line := [[.text "<<a,b"], [.text "c>>"]]

theorem unforged_broken : ∀ line ∈ broken, Unforged line ∧ some '\n' ∉ outline line := by
  refine List.forall_mem_cons.mpr ⟨⟨unforged_text (by decide), by decide⟩, ?_⟩
  exact List.forall_mem_singleton.mpr ⟨unforged_text (by decide), by decide⟩

theorem reread_callouts_broken :
    reread Fragment.parse .callouts ⟨none⟩ broken = .ok [.text "<<a,b\nc>>"] := by
  have hnone : Fragment.takesNone (Fragment.construct ⟨none⟩ .callouts) (linesGlyphs 0 broken) := rfl
  have hread : reread Fragment.parse .callouts ⟨none⟩ broken =
      .ok (merge ([.text "\n"].intercalate broken)) :=
    reread_of_read_eq_content (by decide) (by decide)
      (fun line hline => (unforged_broken line hline).1) (List.forall_mem_nil _) rfl
      (Fragment.merge_read_of_takesNone hnone)
  exact hread.trans rfl

theorem reread_specials_broken : reread Fragment.parse .specials ⟨none⟩ [[.text "<<a,b\nc>>"]] =
    .ok [.crossReference "a" (some "b\nc")] := by
  have clean : ∀ line ∈ [[Element.text "<<a,b\nc>>"]], Unforged line :=
    List.forall_mem_singleton.mpr (unforged_text (by decide))
  have hrun : (Fragment.construct ⟨none⟩ .specials).run (linesGlyphs 0 [[.text "<<a,b\nc>>"]]) =
      some ([.crossReference "a" (some "b\nc")], []) := rfl
  have hread : Fragment.read (Fragment.construct ⟨none⟩ .specials)
      (linesGlyphs 0 [[.text "<<a,b\nc>>"]]) = [.crossReference "a" (some "b\nc")] := by
    refine (Fragment.read_of_run hrun (by decide)).trans ?_
    rw [Fragment.read]
    rfl
  have hparsed : Fragment.parse .specials ⟨none⟩ (serialized [[.text "<<a,b\nc>>"]]) = _ :=
    Fragment.parse_serialized (by decide) (by decide) clean ⟨none⟩
  rw [scan_serialized clean, hread] at hparsed
  have honce : ExactlyOnce 0 [.crossReference "a" (some "b\nc")] :=
    exactlyOnce_of_references (by decide) (references_of_leaf rfl rfl)
  rw [reread_eq_ok (by decide) rfl hparsed honce, putBack_eq_map]
  rfl

theorem crossReference_over_line_end :
    (∀ line ∈ broken, ∀ x ∈ line, x.isText = true) ∧
    (∀ line ∈ broken, Unforged line ∧ some '\n' ∉ outline line) ∧
    (∀ before mark, MarkedAt .callouts (scan (serialized broken).toList) before mark →
      inRange mark.digits) ∧
    runFrom start (applyElement ⟨Fragment.parse, false⟩ (.lineBlock .listing ∅ broken)) =
      (.ok (.lineBlock .listing ∅ [[.crossReference "a" (some "b\nc")]]), start) ∧
    [[Element.crossReference "a" (some "b\nc")]].length < broken.length := by
  have hrange : Fragment.outOfRange? .callouts 0 (scan (serialized broken).toList) = none := by
    rw [scan_serialized fun line hline => (unforged_broken line hline).1]
    rfl
  refine ⟨by decide, unforged_broken, Fragment.outOfRange?_eq_none_iff.mp hrange,
    runFrom_applyElement_verbatim (by decide) rfl ?_, by decide⟩
  change runFrom start (applySteps ⟨Fragment.parse, false⟩ "listing" 0
    [.callouts, .specials, .splitLines] broken) = _
  refine runFrom_applySteps_of_through ?_
  refine .cons (runFrom_applyStep "listing" rfl (by decide) reread_callouts_broken) ?_
  refine .cons (runFrom_applyStep "listing" rfl (by decide) reread_specials_broken) ?_
  exact .cons (runFrom_applyStep_splitLines ⟨Fragment.parse, false⟩ "listing" _ start) .nil

end Listing

end Pass

end Manuscript
