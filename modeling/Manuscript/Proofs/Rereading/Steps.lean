import Manuscript.Proofs.Rereading.Symbols

namespace Manuscript

open Glyph Pending Reader

def Rule.final : List Rule := [.specials, .replacements, .callouts]

namespace Rule

variable {rule : Rule} {x : Element}

theorem ne_attribution_of_final (hrule : rule ∈ final) : rule ≠ .attribution :=
  ne_of_mem_of_not_mem hrule (by decide)

theorem quotes_of_makes (hrule : rule ∈ final) (h : rule.Makes x) (p : List Element → Prop) :
    x.Quotes p := by
  cases x <;> first | trivial | (simp only [final, List.mem_cons, List.not_mem_nil, or_false] at hrule
                                 rcases hrule with rfl | rfl | rfl <;> cases h)

theorem refilled_of_makes (hrule : rule ∈ final) (h : rule.Makes x) (hx : placeholder? x = none)
    (original : UInt32 → Element) : x.refilled original = x := by
  rw [Element.refilled, hx]
  cases x <;> first | rfl | (simp only [final, List.mem_cons, List.not_mem_nil, or_false] at hrule
                             rcases hrule with rfl | rfl | rfl <;> cases h)

end Rule

namespace Fragment

variable {rule : Rule}

theorem parse_of_final (hrule : rule ∈ Rule.final) (options options' : Options) :
    parse rule options = parse rule options' := by
  simp only [Rule.final, List.mem_cons, List.not_mem_nil, or_false] at hrule
  rcases hrule with rfl | rfl | rfl <;> rfl

theorem leaves_of_final (hrule : rule ∈ Rule.final) (options : Options) : Leaves rule options := by
  simp only [Rule.final, List.mem_cons, List.not_mem_nil, or_false] at hrule
  rcases hrule with rfl | rfl | rfl
  · exact leaves_specials
  · exact leaves_replacements
  · exact leaves_callouts

theorem settles_of_final (hrule : rule ∈ Rule.final) (options : Options) :
    Fixes (parse rule options) := by
  intro s parsed _ hclean h
  refine ⟨⟨(canonical_parse h).merged, fun t =>
    (leaves_of_final hrule options).alone hclean h t⟩, allQuote_iff.mpr fun x hx => ?_⟩
  exact Rule.quotes_of_makes hrule (everywhere_iff.mp (makes_parse h) x hx).1 _

end Fragment

namespace Pass

variable {rule : Rule} {options : Options} {lines : List Line} {line : Line}
  {payloads parsed : List Element}

theorem outline_of_reread
    (hpayloads : (setAside lines).mapM (parsePayload (Fragment.parse rule options)) = .ok payloads) :
    outline (merge (putBack (handedOut payloads).original parsed)) = outline parsed := by
  rw [outline_merge, outline_putBack (isText_original hpayloads)]

theorem unforged_of_outline (hrule : rule ≠ .attribution) (clean : ∀ line ∈ lines, Unforged line)
    (hparsed : Fragment.parse rule options (serialized lines) = .ok parsed)
    (h : outline line = outline parsed) : Unforged line := by
  intro t ht hmem
  have hshown : some reservedChar ∈ outline line :=
    (infix_outline_of_mem ht).subset (List.mem_map_of_mem hmem)
  rw [h] at hshown
  exact char_ne_reserved_of_mem_scan clean (Fragment.mem_scan_of_mem_outline hrule hparsed hshown) rfl

theorem quotes_fixed_of_reread (hrule : rule ∈ Rule.final)
    (hquotes : ∀ line ∈ lines, AllQuote Regular line)
    (hpayloads : (setAside lines).mapM (parsePayload (Fragment.parse rule options)) = .ok payloads)
    (hparsed : Fragment.parse rule options (serialized lines) = .ok parsed) :
    ∀ x ∈ putBack (handedOut payloads).original parsed,
      x.Quotes (Fixed (Fragment.parse rule options)) := by
  have hfixed : ∀ x ∈ payloads, x.Quotes (Fixed (Fragment.parse rule options)) := by
    refine forall_of_mapM_ok (fun x payload hx hpayload =>
      fixed_of_parsePayload (Fragment.settles_of_final hrule options) x hx payload hpayload)
      hpayloads fun x hx => ?_
    obtain ⟨line, hline, hmem⟩ := mem_of_mem_setAside hx
    exact allQuote_iff.mp (hquotes line hline) x hmem
  rw [putBack_eq_map]
  refine List.forall_mem_map.mpr fun x hx => ?_
  have hmakes := (everywhere_iff.mp (Fragment.makes_parse hparsed) x hx).1
  cases hplaceholder : placeholder? x with
  | none =>
    rw [Rule.refilled_of_makes hrule hmakes hplaceholder]
    exact Rule.quotes_of_makes hrule hmakes _
  | some reference =>
    rw [Element.refilled, hplaceholder]
    rcases original_handedOut_cases payloads reference with hmem | hnone
    · exact hfixed _ hmem
    · change ((handedOut payloads).original reference).Quotes _
      rw [hnone]
      trivial

theorem reread_again (hrule : rule ∈ Rule.final) (clean : ∀ line ∈ lines, Unforged line)
    (hquotes : ∀ line ∈ lines, AllQuote Regular line)
    (h : reread Fragment.parse rule options lines = .ok line)
    (few : (setAside [line]).length < UInt32.size) (options' : Options) :
    reread Fragment.parse rule options' [line] = .ok line := by
  have hne := Rule.ne_attribution_of_final hrule
  obtain ⟨payloads, hpayloads⟩ := exists_payloads_of_reread h
  obtain ⟨parsed, hparsed⟩ := exists_parsed_of_reread h hpayloads
  obtain rfl := eq_of_reread h hpayloads hparsed
  have houtline : outline (merge (putBack (handedOut payloads).original parsed)) = outline parsed :=
    outline_of_reread hpayloads
  generalize hline : merge (putBack (handedOut payloads).original parsed) = line at *
  have hunforged : Unforged line := unforged_of_outline hne clean hparsed houtline
  have hfixed : ∀ x ∈ setAside [line], parsePayload (Fragment.parse rule options') x = .ok x := by
    intro x hx
    obtain ⟨_, hmem, hx'⟩ := mem_of_mem_setAside hx
    rw [List.mem_singleton.mp hmem, ← hline] at hx'
    rw [Fragment.parse_of_final hrule options' options]
    exact parsePayload_of_fixed x (quotes_fixed_of_reread hrule hquotes hpayloads hparsed x
      (mem_of_mem_merge hx' (isText_of_mem_setAside hx)))
  have hchars : (linesGlyphs 0 [line]).map char? = outline parsed := by
    rw [linesGlyphs, map_char?_lineGlyphs, houtline]
  have hrange : ∀ digits ∈ numerals (linesGlyphs 0 [line]), inRange digits := by
    rw [numerals_linesGlyphs]
    exact List.forall_mem_map.mpr fun n _ => inRange_digitsOf n
  rw [Fragment.parse_of_final hrule options options'] at hparsed
  obtain ⟨hnone, hread⟩ := (Fragment.leaves_of_final hrule options').within hparsed hchars hrange
  have hmerged : merge line = line := hline ▸ (merged_merge _).merge_eq
  rw [reread_of_read_eq_content hne few (List.forall_mem_singleton.mpr hunforged) hfixed hnone hread,
    List.intercalate_singleton, hmerged]

/-- The step that replaces special characters, the one that replaces symbols and the one for callouts change
nothing in what they have made. The numbers of placeholders have 32 bits, so there is one for everything that is
set aside only if that is less than `2 ^ 32`. -/
theorem applyStep_again {setting : Setting} (hgrammar : setting.grammar = Fragment.parse)
    {block : String} {step : Step} (hstep : step ∈ [.specials, .replacements, .callouts])
    {lines after : List Line} (clean : ∀ line ∈ lines, Unforged line)
    (hquotes : ∀ line ∈ lines, AllQuote Regular line) {s s' : PassState}
    (h : runFrom s (applyStep setting block step lines) = (.ok after, s'))
    (few : (setAside after).length < UInt32.size) (t : PassState) :
    ∃ line, after = [line] ∧ runFrom t (applyStep setting block step [line]) = (.ok [line], t) := by
  obtain ⟨rule, hrule, hfinal, hne⟩ :
      ∃ rule, step.rule? = some rule ∧ rule ∈ Rule.final ∧ step ≠ .attributes := by
    simp only [List.mem_cons, List.not_mem_nil, or_false] at hstep
    rcases hstep with rfl | rfl | rfl <;> exact ⟨_, rfl, by decide, by decide⟩
  obtain ⟨line, hread, ⟨-, rfl, -⟩ | ⟨hattributes, -⟩⟩ := applyStep_cases hrule h
  · rw [hgrammar] at hread
    have hagain := reread_again hfinal clean hquotes hread few (optionsOf t.resolution.store)
    rw [← hgrammar] at hagain
    exact ⟨line, rfl, runFrom_applyStep block hrule hne hagain⟩
  · exact absurd hattributes hne

def angleInBold : List Line := [[.text "&", .quoted .bold ∅ [.text "<"]]]

theorem regular_angleInBold : (∀ line ∈ angleInBold, Unforged line) ∧
    ∀ line ∈ angleInBold, AllQuote Regular line := by
  refine ⟨List.forall_mem_singleton.mpr ?_, List.forall_mem_singleton.mpr ⟨trivial, ?_⟩⟩
  · intro t ht
    simp only [List.mem_cons, List.not_mem_nil, or_false, Element.text.injEq, reduceCtorEq] at ht
    rw [ht]
    decide
  · exact ⟨⟨.text (by decide), trivial, trivial⟩, trivial⟩

theorem reread_angleInBold : reread Fragment.parse .specials ⟨none⟩ angleInBold =
    .ok [.special "&", .quoted .bold ∅ [.special "<"]] := by
  have hangle : Fragment.parse .specials ⟨none⟩ "<" = .ok [.special "<"] := by
    have hrun : (Fragment.construct ⟨none⟩ .specials).run (spell "<") =
        some ([.special "<"], []) := rfl
    have hread : Fragment.read (Fragment.construct ⟨none⟩ .specials) (spell "<") =
        [.special "<"] := by
      refine (Fragment.read_of_run hrun (by decide)).trans ?_
      rw [Fragment.read]
      rfl
    rw [Fragment.parse_of_clean (by decide) (by decide) (by decide), hread]
    rfl
  have hpayloads : (setAside angleInBold).mapM (parsePayload (Fragment.parse .specials ⟨none⟩)) =
      .ok [.quoted .bold ∅ [.special "<"]] := by
    change [Element.quoted .bold ∅ [.text "<"]].mapM _ = _
    rw [List.mapM_cons, parsePayload, parseFragments, hangle, parseFragments]
    rfl
  have hrun : (Fragment.construct ⟨none⟩ .specials).run (linesGlyphs 0 angleInBold) =
      some ([.special "&"], [.token (digitsOf 1)]) := rfl
  have hread : Fragment.read (Fragment.construct ⟨none⟩ .specials) (linesGlyphs 0 angleInBold) =
      [.special "&", .placeholder 1] := by
    refine (Fragment.read_of_run hrun (by decide)).trans ?_
    rw [Fragment.read, Fragment.read, reference_digitsOf]
    rfl
  have hparsed : Fragment.parse .specials ⟨none⟩ (serialized angleInBold) =
      .ok [.special "&", .placeholder 1] := by
    rw [Fragment.parse_serialized (by decide) (by decide) regular_angleInBold.1,
      scan_serialized regular_angleInBold.1, hread]
    rfl
  have honce : ExactlyOnce 1 [.special "&", .placeholder 1] :=
    exactlyOnce_of_references (by decide) (by simp [references_cons, placeholder?, Element.children]; rfl)
  rw [reread_eq_ok (by decide) hpayloads hparsed honce, putBack_eq_map]
  rfl

theorem applyStep_again_angleInBold :
    (∀ line ∈ angleInBold, Unforged line) ∧ (∀ line ∈ angleInBold, AllQuote Regular line) ∧
    ∃ after s', runFrom ⟨⟨.ofOverrides ∅, []⟩, []⟩
        (applyStep ⟨Fragment.parse, true⟩ "paragraph" .specials angleInBold) = (.ok after, s') ∧
      (setAside after).length < UInt32.size ∧
      ∃ line, after = [line] ∧ runFrom ⟨⟨.ofOverrides ∅, []⟩, []⟩
        (applyStep ⟨Fragment.parse, true⟩ "paragraph" .specials [line]) =
          (.ok [line], ⟨⟨.ofOverrides ∅, []⟩, []⟩) := by
  obtain ⟨clean, hquotes⟩ := regular_angleInBold
  have hfirst : runFrom ⟨⟨.ofOverrides ∅, []⟩, []⟩
      (applyStep ⟨Fragment.parse, true⟩ "paragraph" .specials angleInBold) =
        (.ok [[.special "&", .quoted .bold ∅ [.special "<"]]], ⟨⟨.ofOverrides ∅, []⟩, []⟩) :=
    runFrom_applyStep "paragraph" rfl (by decide) reread_angleInBold
  have few : (setAside [[.special "&", .quoted .bold ∅ [.special "<"]]]).length < UInt32.size := by
    decide
  exact ⟨clean, hquotes, _, _, hfirst, few,
    applyStep_again rfl (by decide) clean hquotes hfirst few _⟩

end Pass

end Manuscript
