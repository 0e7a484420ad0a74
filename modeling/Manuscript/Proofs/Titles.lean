import Manuscript.Proofs.Directive
import Manuscript.Proofs.Passthroughs.Steps
import Manuscript.Proofs.Reserved.Document
import Manuscript.Proofs.Splitting

namespace Manuscript.Pass

inductive ForTitles : List Step → Prop
  | outside : ForTitles normalSteps
  | inside {kind : BlockKind} {attributes : Attributes} {steps : List Step}
      (h : Directive.forBlock kind attributes = .ok steps) : ForTitles steps

theorem ForTitles.cases {steps : List Step} (h : ForTitles steps) :
    .splitLines ∉ steps ∨ ∃ others, steps = others ++ [.splitLines] ∧ .splitLines ∉ others := by
  cases h with
  | outside => exact .inl (by decide)
  | @inside kind attributes _ h =>
    exact .inr (Directive.exists_of_forBlock h)

variable {setting : Setting} {steps others : List Step} {block : String} {index : Nat}
  {lines after : List Line} {line : Line} {s s' : PassState}

theorem runFrom_applyInline (h : runFrom s (applyLines setting steps block [line]) = (.ok lines, s')) :
    runFrom s (applyInline setting steps block line) = (.ok (lines.headD []), s') :=
  runFrom_bind_ok h _

/-- Outside of blocks, a title keeps all of its lines. Inside a block, it keeps all of them exactly when the
text handed to the last step has no line feed, and all but empty ones exactly when there are only line
feeds from the first one on. -/
theorem applyInline_complete_iff (hsteps : ForTitles steps)
    (h : runFrom s (applyLines setting steps block [line]) = (.ok lines, s')) :
    ∃ result, runFrom s (applyInline setting steps block line) = (.ok result, s') ∧
      (.splitLines ∉ steps → lines = [result]) ∧
      ∀ others, steps = others ++ [.splitLines] →
        ∃ whole s'', runFrom s (applyLines setting others block [line]) = (.ok [whole], s'') ∧
          lines = splitLine whole ∧
          (lines = [result] ↔ some '\n' ∉ outline whole) ∧
          (lines.flatten = result ↔
            ∀ o ∈ (outline whole).dropWhile (· ≠ some '\n'), o = some '\n') := by
  refine ⟨_, runFrom_applyInline h, fun hnone => ?_, fun others heq => ?_⟩
  · rw [applyLines_singleton] at h
    obtain ⟨whole, rfl⟩ := exists_line_of_through hnone (through_of_applySteps h)
    rfl
  · have hothers : .splitLines ∉ others := by
      obtain hnone | ⟨others', heq', hnone⟩ := hsteps.cases
      · exact fun hmem => hnone (heq ▸ List.mem_append_left _ hmem)
      · exact List.append_cancel_right (heq.symm.trans heq') ▸ hnone
    rw [heq, applyLines_singleton, applySteps_append] at h
    obtain ⟨middle, s'', hmiddle, hlast⟩ := runFrom_bind_eq_ok.mp h
    obtain ⟨whole, rfl⟩ := exists_line_of_through hothers (through_of_applySteps hmiddle)
    obtain rfl := splitLine_of_applySteps hlast
    obtain ⟨first, rest, hsplit, hfirst, hrest, houtline⟩ := exists_splitLine_eq whole
    refine ⟨whole, s'', by rwa [applyLines_singleton], rfl, ?_, ?_⟩
    · rw [hsplit, List.headD_cons, ← rest_eq_nil_iff hfirst houtline, List.cons.injEq, eq_self, true_and]
    · rw [hsplit, List.headD_cons, ← flatten_rest_eq_nil_iff hfirst hrest houtline, List.flatten_cons,
        List.append_right_eq_self]

section TwoLines

def twoLines : PassState := ⟨⟨Store.ofOverrides (Dict.ofList [("x", "a\nb")]), []⟩, []⟩

theorem forTitles_attributes : ForTitles [.attributes, .splitLines] := by
  have h : Directive.forBlock .exampleBlock (Dict.ofList [("subs", .string "attributes")]) =
      .ok [.attributes, .splitLines] := rfl
  exact .inside h

theorem parse_reference : Fragment.parse .attributes ⟨none⟩ "\x7bx\x7d" =
    .ok [.attributeReference "x"] := by
  have hspell : Glyph.spell "\x7bx\x7d" = .char '\x7b' :: Glyph.spell "x\x7d" := rfl
  have hrun : (Fragment.construct ⟨none⟩ .attributes).run (.char '\x7b' :: Glyph.spell "x\x7d") =
      some ([.attributeReference "x"], []) := rfl
  rw [Fragment.parse_of_clean (by decide) (by decide) (by decide), hspell,
    Fragment.read_of_run hrun (Nat.zero_lt_succ _), Fragment.read]
  rfl

theorem reread_reference :
    reread Fragment.parse .attributes (optionsOf twoLines.resolution.store)
      [[.text "\x7bx\x7d"]] = .ok [.attributeReference "x"] := by
  have hoptions : optionsOf twoLines.resolution.store = ⟨none⟩ := rfl
  rw [hoptions]
  exact reread_text parse_reference (references_of_leaf rfl rfl)

theorem applyLines_twoLines :
    runFrom twoLines (applyLines ⟨Fragment.parse, false⟩ [.attributes, .splitLines] "section title"
      [[.text "\x7bx\x7d"]]) = (.ok [[.text "a"], [.text "b"]], twoLines) := by
  have hresolve : runFrom twoLines.resolution (resolve [.attributeReference "x"]) =
      (.ok [.text "a\nb"], twoLines.resolution) := by
    simp only [resolve_eq_mapM, List.mapM_cons, List.mapM_nil, resolveElement, resolving?]
    rfl
  have hread : reread (Setting.mk Fragment.parse false).grammar .attributes _ _ = _ :=
    reread_reference
  have hattributes := runFrom_applyStep_attributes "section title" hread hresolve
  have hsplit : splitLines [[.text "a\nb"]] = [[.text "a"], [.text "b"]] := rfl
  rw [applyLines_singleton, applySteps_untraced hattributes, ← hsplit]
  rfl

theorem applyInline_complete_iff_twoLines :
    ForTitles [.attributes, .splitLines] ∧
      ∃ result whole, runFrom twoLines (applyInline ⟨Fragment.parse, false⟩
        [.attributes, .splitLines] "section title" [.text "\x7bx\x7d"]) = (.ok result, twoLines) ∧
        splitLine whole = [[.text "a"], [.text "b"]] ∧
        ([[.text "a"], [.text "b"]].flatten = result ↔
          ∀ o ∈ (outline whole).dropWhile (· ≠ some '\n'), o = some '\n') := by
  obtain ⟨result, hresult, -, hinside⟩ :=
    applyInline_complete_iff forTitles_attributes applyLines_twoLines
  obtain ⟨whole, -, -, hlines, -, hcomplete⟩ := hinside [.attributes] rfl
  exact ⟨forTitles_attributes, result, whole, hresult, hlines.symm, hcomplete⟩

theorem applyInline_drops_second_line :
    ForTitles [.attributes, .splitLines] ∧
      runFrom twoLines (applyLines ⟨Fragment.parse, false⟩ [.attributes, .splitLines] "section title"
        [[.text "\x7bx\x7d"]]) = (.ok [[.text "a"], [.text "b"]], twoLines) ∧
      runFrom twoLines (applyInline ⟨Fragment.parse, false⟩ [.attributes, .splitLines]
        "section title" [.text "\x7bx\x7d"]) = (.ok [.text "a"], twoLines) :=
  ⟨forTitles_attributes, applyLines_twoLines, runFrom_applyInline applyLines_twoLines⟩

end TwoLines

end Manuscript.Pass
