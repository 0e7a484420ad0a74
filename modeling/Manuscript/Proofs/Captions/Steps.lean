import Manuscript.Proofs.Captions.Images
import Manuscript.Proofs.Rereading.Symbols
import Manuscript.Proofs.Passthroughs.Steps
import Manuscript.Proofs.Steady

namespace Manuscript

open Glyph Pending

namespace Element

def Named : Element → Prop
  | .image location attributes => attributes.find? "alt" = some (.string location.stem)
  | _ => False

def Telling : Element → Prop
  | .image location _ => location.textual.stem = location.stem
  | _ => False

theorem bare_withChildren (x : Element) (ss : List (List Element)) :
    (x.withChildren ss).Bare ↔ x.Bare := by
  fun_cases withChildren x ss with
  | case5 location attributes path rest =>
    rw [Bare, Bare, contains_withSequences]
  | _ => rfl

theorem named_captioned_iff {x : Element} (h : x.Bare) : x.captioned.Named ↔ x.Telling := by
  cases x with
  | image location attributes =>
    have halt : attributes.contains "alt" = false := h
    have hnone := (contains_withSequences attributes "alt"
      ((sequencesOf attributes.entries).map Manuscript.captioned)).trans halt
    set filled : Location Element := { location with path := Manuscript.captioned location.path }
    have htextual : filled.textual = location.textual := by
      rw [Location.textual, Location.textual, filter_isText_captioned]
    have hstem : filled.stem = location.stem := by
      rw [Location.stem, Location.stem, Location.url, Location.url, plainText_captioned]
    rw [captioned, children, List.map_cons, withChildren, caption, if_neg (by simp [hnone]), Named,
      Dict.find?_insert_self, Option.some.injEq, Value.string.injEq, htextual, hstem, Telling]
  | _ => exact absurd h id

end Element

theorem visited_captioned {x : Element} {xs : List Element} (h : Visited x xs) :
    Visited x.captioned (captioned xs) := by
  induction h with
  | here hx => exact .here (captioned_eq_map _ ▸ List.mem_map_of_mem hx)
  | @inside _ _ y hy hs _ ih =>
    refine .inside (captioned_eq_map _ ▸ List.mem_map_of_mem hy) ?_ ih
    rw [y.children_captioned]
    exact List.mem_map_of_mem hs

namespace Pass

variable {grammar grammar' : Grammar} {tracing : Bool} {block : String} {index : Nat} {step : Step}
  {steps : List Step} {lines after : List Line} {s s' t : PassState}

theorem reread_congr {rule : Rule} (h : grammar rule = grammar' rule) (options : Options)
    (lines : List Line) : reread grammar rule options lines = reread grammar' rule options lines := by
  rw [reread, reread, h]

theorem applySteps_parseBare (h : .macros ∉ steps) (block : String) (index : Nat) (lines : List Line) :
    applySteps ⟨Fragment.parseBare, tracing⟩ block index steps lines =
      applySteps ⟨Fragment.parse, tracing⟩ block index steps lines := by
  induction steps generalizing index lines with
  | nil => rfl
  | cons step rest ih =>
    rw [List.mem_cons, not_or] at h
    have hstep : applyStep ⟨Fragment.parseBare, tracing⟩ block step lines =
        applyStep ⟨Fragment.parse, tracing⟩ block step lines := by
      rw [applyStep, applyStep]
      cases hrule : step.rule? with
      | none => rfl
      | some rule =>
        have hne : rule ≠ .macros := Step.rule_ne_of_ne (Ne.symm h.1) hrule rfl
        simp only [reread_congr (Fragment.parseBare_of_ne hne)]
    rw [applySteps, applySteps, hstep]
    simp only [fun index lines => ih h.2 index lines]
    rfl

theorem exists_applyStep_of_captioned (hstep : step ≠ .attributes)
    (h : runFrom s (applyStep ⟨Fragment.parse, tracing⟩ block step (lines.map captioned)) =
      (.ok after, s')) (ht : t.resolution = s.resolution) :
    ∃ bare, runFrom t (applyStep ⟨Fragment.parseBare, tracing⟩ block step lines) = (.ok bare, t) ∧
      after = bare.map captioned ∧ s' = s := by
  cases hrule : step.rule? with
  | none =>
    rw [applyStep, hrule] at h
    obtain ⟨rfl, rfl⟩ : splitLines (lines.map captioned) = after ∧ s = s' := by
      cases h
      exact ⟨rfl, rfl⟩
    refine ⟨splitLines lines, by rw [applyStep, hrule]; rfl, ?_, rfl⟩
    rw [splitLines, splitLines, List.flatMap_map, List.map_flatMap]
    simp only [splitLine_captioned]
  | some rule =>
    obtain ⟨line, hread, ⟨-, rfl, rfl⟩ | ⟨hattributes, -⟩⟩ := applyStep_cases hrule h
    · obtain ⟨bare, hbare, rfl⟩ := exists_reread_of_captioned
        (Fragment.parse_eq_map_captioned rule _) hread
      rw [← ht] at hbare
      exact ⟨[bare], runFrom_applyStep block hrule hstep hbare, rfl, rfl⟩
    · exact absurd hattributes hstep

theorem exists_applySteps_of_captioned (hsteps : .attributes ∉ steps)
    (h : runFrom s (applySteps ⟨Fragment.parse, tracing⟩ block index steps (lines.map captioned)) =
      (.ok after, s')) (ht : t.resolution = s.resolution) :
    ∃ bare t', runFrom t (applySteps ⟨Fragment.parseBare, tracing⟩ block index steps lines) =
      (.ok bare, t') ∧ after = bare.map captioned := by
  induction steps generalizing index lines s t with
  | nil =>
    cases h
    exact ⟨lines, t, rfl, rfl⟩
  | cons step rest ih =>
    rw [List.mem_cons, not_or] at hsteps
    obtain ⟨middle, s₁, s₂, hfirst, hresolution, hnext⟩ := cases_applySteps_cons h
    obtain ⟨bare, hbare, rfl, rfl⟩ := exists_applyStep_of_captioned (Ne.symm hsteps.1) hfirst ht
    obtain ⟨records, hrest⟩ := exists_applySteps_of_unchanged hbare index
    rw [hrest]
    exact ih hsteps.2 hnext (ht.trans hresolution.symm)

def Unpictured (x : Element) : Prop := ¬ x.Bare ∧ x.Inline

theorem stable_unpictured : Stable Unpictured where
  text _ := ⟨id, rfl⟩
  blankLine := ⟨id, rfl⟩
  withChildren x ss := and_congr (not_congr (x.bare_withChildren ss)) (inline_withChildren x ss)
  inline h := h.2

theorem unpictured_parse {rule : Rule} {options : Options} {text : String} {parsed : List Element}
    (hstep : step ≠ .macros) (hrule : step.rule? = some rule)
    (h : Fragment.parse rule options text = .ok parsed) : Everywhere Unpictured parsed := by
  have hne : rule ≠ .macros := Step.rule_ne_of_ne hstep hrule rfl
  exact ((Fragment.makes_parse h).and (Fragment.inline_parse h)).mono fun x hx =>
    ⟨Rule.not_bare_of_makes hne hx.1, hx.2⟩

/-- In a paragraph, every image without a written alternative text gets one, and this is the name of the file
in its location just if the texts of the location tell that name by themselves. -/
theorem alternative_texts (htext : ∀ line ∈ lines, ∀ x ∈ line, x.isText) {final : List Step}
    (hfinal : final ∈ [[], [.splitLines]])
    (h : runFrom s (applyLines ⟨Fragment.parse, tracing⟩ (normalSteps ++ final) block lines) =
      (.ok after, s')) :
    ∃ bare t, runFrom s (applyLines ⟨Fragment.parseBare, tracing⟩ (normalSteps ++ final) block lines) =
        (.ok bare, t) ∧
      after = bare.map captioned ∧
      ∀ line ∈ bare, ∀ x, Visited x line → x.Bare →
        Visited x.captioned (captioned line) ∧ (x.captioned.Named ↔ x.Telling) := by
  suffices hbare : ∃ bare t, runFrom s (applyLines ⟨Fragment.parseBare, tracing⟩
      (normalSteps ++ final) block lines) = (.ok bare, t) ∧ after = bare.map captioned by
    obtain ⟨bare, t, hrun, hafter⟩ := hbare
    exact ⟨bare, t, hrun, hafter, fun line _ x hx hbare =>
      ⟨visited_captioned hx, Element.named_captioned_iff hbare⟩⟩
  rw [applyLines] at h ⊢
  split at h
  · next hempty =>
    cases h
    exact ⟨[], s, by rw [if_pos hempty]; rfl, rfl⟩
  · next hsome =>
    have hsteps : normalSteps ++ final =
        [.passthroughs, .specials, .quotes, .attributes, .replacements] ++
          ([.macros, .postReplacements] ++ final) := rfl
    rw [hsteps, applySteps_append] at h
    obtain ⟨middle, s₁, hfirst, hlast⟩ := runFrom_bind_eq_ok.mp h
    have hlines : ∀ line ∈ lines, Everywhere Unpictured line := fun line hline =>
      everywhere_of_text (htext line hline) fun t _ => stable_unpictured.text t
    have hmacros : ∀ step ∈ [Step.passthroughs, .specials, .quotes, .attributes, .replacements],
        step ≠ .macros := by decide
    have hmiddle := stable_unpictured.applySteps
      (fun step hstep _ _ _ _ => unpictured_parse (hmacros step hstep)) hlines hfirst
    have hsame : middle.map captioned = middle := by
      rw [List.map_congr_left, List.map_id]
      exact fun line hline => captioned_of_everywhere ((hmiddle line hline).mono fun _ hx => hx.1)
    rw [← hsame] at hlast
    have hnone : Step.attributes ∉ [Step.macros, .postReplacements] ++ final := by
      simp only [List.mem_cons, List.not_mem_nil, or_false] at hfinal
      rcases hfinal with rfl | rfl <;> decide
    obtain ⟨bare, t, hbare, hafter⟩ := exists_applySteps_of_captioned hnone hlast (t := s₁) rfl
    refine ⟨bare, t, ?_, hafter⟩
    rw [if_neg hsome, hsteps, applySteps_append, applySteps_parseBare (by decide)]
    exact (runFrom_bind_ok hfirst _).trans hbare

section Ampersand

open Fragment

def written : String := "image:a&b[]"

def escapedLine : Line := [.text "image:a", .special "&", .text "b[]"]

def imageLine (attributes : Attributes) : Line :=
  [.image ⟨"", [.text "a", .special "&", .text "b"]⟩ attributes]

def stemmed : Attributes := (∅ : Attributes).insert "alt" (.string "ab")

theorem reread_passthroughs_written :
    reread Fragment.parse .passthroughs ⟨none⟩ [[.text written]] = .ok [.text written] :=
  reread_text (parse_of_takesNone (by decide) (by decide) (by decide) (by decide) rfl)
    (references_of_leaf rfl rfl)

theorem reread_specials_written :
    reread Fragment.parse .specials ⟨none⟩ [[.text written]] = .ok escapedLine := by
  have hbehind : Fragment.read (construct ⟨none⟩ .specials) (spell "&b[]") =
      [.special "&", .text "b", .text "[", .text "]"] := by
    have hrun : (construct ⟨none⟩ .specials).run (spell "&b[]") = some ([.special "&"], spell "b[]") :=
      rfl
    refine (read_of_run hrun (by decide)).trans (congrArg (_ :: ·) ?_)
    refine (read_word rfl (by decide) rfl).trans (congrArg (_ :: ·) ?_)
    refine (read_char rfl (by decide)).trans (congrArg (_ :: ·) ?_)
    refine (read_char rfl (by decide)).trans (congrArg (_ :: ·) ?_)
    exact Fragment.read.eq_1 _
  have hread : Fragment.read (construct ⟨none⟩ .specials) (spell written) =
      [.text "image", .text ":", .text "a", .special "&", .text "b", .text "[", .text "]"] := by
    refine (read_word rfl (by decide) rfl).trans (congrArg (_ :: ·) ?_)
    refine (read_char rfl (by decide)).trans (congrArg (_ :: ·) ?_)
    exact (read_word rfl (by decide) rfl).trans (congrArg (_ :: ·) hbehind)
  have hparse : Fragment.parse .specials ⟨none⟩ written = .ok escapedLine := by
    rw [parse_of_clean (by decide) (by decide) (by decide), hread]
    rfl
  exact reread_text hparse (by simp [escapedLine, references_cons, placeholder?, Element.children])

theorem unforged_escapedLine : Unforged escapedLine := by
  intro t ht
  simp only [escapedLine, List.mem_cons, List.not_mem_nil, or_false, Element.text.injEq,
    reduceCtorEq, false_or] at ht
  rcases ht with rfl | rfl <;> decide

theorem reread_unread {rule : Rule} {line : Line} (hattribution : rule ≠ .attribution)
    (clean : Unforged line) (few : (setAside [line]).length < UInt32.size)
    (hfixed : ∀ x ∈ setAside [line], parsePayload (Fragment.parse rule ⟨none⟩) x = .ok x)
    (hrange : outOfRange? rule 0 (linesGlyphs 0 [line]) = none) (hline : merge line = line)
    (hread : merge (Fragment.read (construct ⟨none⟩ rule) (linesGlyphs 0 [line])) =
      content (linesGlyphs 0 [line])) : reread Fragment.parse rule ⟨none⟩ [line] = .ok line := by
  rw [reread_of_read_eq_content hattribution few
      (List.forall_mem_singleton.mpr clean) hfixed hrange hread,
    List.intercalate_singleton, hline]

theorem takesNone_quotes_escapedLine :
    takesNone (construct ⟨none⟩ .quotes) (linesGlyphs 0 [escapedLine]) := by
  have hnone (t : List Glyph) (h : (Quote.leaf.take? t).isNone ∧ (Quote.opening.take? t).isNone) :
      (construct ⟨none⟩ .quotes).run t = none :=
    run_quotes_eq_none (Option.isNone_iff_eq_none.mp h.1) (Option.isNone_iff_eq_none.mp h.2)
  refine List.all_eq_true.mpr fun t ht => ?_
  rw [Bool.or_eq_true, Option.isNone_iff_eq_none]
  refine .inr (hnone t ?_)
  revert t
  decide

theorem symbolless_escapedLine : Symbolless ((linesGlyphs 0 [escapedLine]).map char?) := by
  have hbehind : Symbolless ("b[]".toList.map some) :=
    .word rfl rfl (.other rfl (by decide) (by decide) (.other rfl (by decide) (by decide) .nil))
  have hcolon : Symbolless (":a".toList.map some ++ none :: "b[]".toList.map some) :=
    .other rfl (by decide) (by decide) (.word rfl rfl (.gap hbehind))
  exact .word rfl rfl (.word rfl rfl (.word rfl rfl (.word rfl rfl (.word rfl rfl hcolon))))

theorem reread_escapedLine {rule : Rule} (hrule : rule ∈ [.quotes, .attributes, .replacements]) :
    reread Fragment.parse rule ⟨none⟩ [escapedLine] = .ok escapedLine := by
  have hread : merge (Fragment.read (construct ⟨none⟩ rule) (linesGlyphs 0 [escapedLine])) =
      content (linesGlyphs 0 [escapedLine]) := by
    simp only [List.mem_cons, List.not_mem_nil, or_false] at hrule
    rcases hrule with rfl | rfl | rfl
    · exact merge_read_of_takesNone takesNone_quotes_escapedLine
    · exact merge_read_of_takesNone rfl
    · exact merge_read_of_symbolless symbolless_escapedLine _ rfl
  have hfixed : ∀ x ∈ setAside [escapedLine], parsePayload (Fragment.parse rule ⟨none⟩) x = .ok x := by
    exact List.forall_mem_singleton.mpr (parsePayload_of_fixed (.special "&") trivial)
  refine reread_unread ?_ unforged_escapedLine (by decide) hfixed ?_ rfl hread
  · rintro rfl
    exact absurd hrule (by decide)
  · exact outOfRange?_eq_none (by rintro rfl; exact absurd hrule (by decide)) (by decide) 0

def openImage (attributes : Attributes) : Element :=
  .image ⟨"", [.text "a", .placeholder 1, .text "b"]⟩ attributes

section Run

theorem run_name : (Reader.literal "image:").run (linesGlyphs 0 [escapedLine]) =
    some ((), spell "a" ++ .token ['1'] :: spell "b[]") := rfl

theorem run_colon : (Reader.ahead fun glyphs => !headIs (· == ':') glyphs).run
    (spell "a" ++ .token ['1'] :: spell "b[]") =
      some ((), spell "a" ++ .token ['1'] :: spell "b[]") := rfl

theorem run_path : Macro.path.run (spell "a" ++ .token ['1'] :: spell "b[]") =
    some ([.text "a", .placeholder 1, .text "b"], spell "[]") := rfl

theorem run_brackets : Macro.arguments.run (spell "[]") = some ([], []) := rfl

theorem run_image : (Macro.image ⟨none⟩).run (linesGlyphs 0 [escapedLine]) =
    some (openImage stemmed, []) := by
  have hattributes : Macro.imageAttributes (Location.below "" ⟨"", [.text "a", .placeholder 1,
      .text "b"]⟩) [] = stemmed := rfl
  simp only [Macro.image, Reader.run_bind, run_name, run_colon, run_path, run_brackets,
    Option.bind_some, Option.getD_none, hattributes, Reader.run_pure]
  rfl

theorem run_bareImage : (Macro.bareImage ⟨none⟩).run (linesGlyphs 0 [escapedLine]) =
    some (openImage ∅, []) := by
  simp only [Macro.bareImage, Reader.run_bind, run_name, run_colon, run_path, run_brackets,
    Option.bind_some, Reader.run_pure]
  rfl

theorem read_macros_escapedLine {image : Reader Element} {attributes : Attributes}
    (h : image.run (linesGlyphs 0 [escapedLine]) = some (openImage attributes, [])) :
    Fragment.read (Construct.single (Reader.firstOf (image :: Macro.withoutImage)))
      (scan (serialized [escapedLine]).toList) = [openImage attributes] := by
  have hrun : (Construct.single (Reader.firstOf (image :: Macro.withoutImage))).run
      (linesGlyphs 0 [escapedLine]) = some ([openImage attributes], []) := by
    rw [Construct.single, Reader.run_bind, Reader.run_firstOf_cons, h]
    rfl
  rw [scan_serialized (List.forall_mem_singleton.mpr unforged_escapedLine)]
  refine (read_of_run hrun (by decide)).trans ?_
  rw [Fragment.read]
  rfl

theorem parse_macros_escapedLine :
    Fragment.parse .macros ⟨none⟩ (serialized [escapedLine]) = .ok [openImage stemmed] := by
  have clean : ∀ line ∈ [escapedLine], Unforged line :=
    List.forall_mem_singleton.mpr unforged_escapedLine
  rw [parse_serialized (by decide) (by decide) clean, construct, Macro.any_eq_firstOf,
    read_macros_escapedLine run_image]
  rfl

theorem parseBare_macros_escapedLine :
    Fragment.parseBare .macros ⟨none⟩ (serialized [escapedLine]) = .ok [openImage ∅] := by
  have hrange : outOfRange? .macros 0 (scan (serialized [escapedLine]).toList) = none := by
    rw [scan_serialized (List.forall_mem_singleton.mpr unforged_escapedLine)]
    rfl
  rw [parseBare, hrange, Macro.anyBare, read_macros_escapedLine run_bareImage]
  rfl

end Run

section Attributes

variable {grammar : Grammar} {attributes : Attributes}

theorem reread_macros_escapedLine (hentries : sequencesOf attributes.entries = [])
    (hparsed : grammar .macros ⟨none⟩ (serialized [escapedLine]) = .ok [openImage attributes]) :
    reread grammar .macros ⟨none⟩ [escapedLine] = .ok (imageLine attributes) := by
  have hpayloads : (setAside [escapedLine]).mapM (parsePayload (grammar .macros ⟨none⟩)) =
      .ok [.special "&"] := by
    have hspecial : parsePayload (grammar .macros ⟨none⟩) (.special "&") = _ :=
      parsePayload_of_fixed (.special "&") trivial
    change [Element.special "&"].mapM _ = _
    rw [List.mapM_cons, hspecial]
    rfl
  have hreferences : references [openImage attributes] = numbers 1 1 := by
    simp [openImage, references_cons, placeholder?, Element.children, hentries, numbers]
  have hsame : (⟨withSequences attributes.entries []⟩ : Attributes) = attributes := by
    rw [← hentries, withSequences_sequencesOf]
  have hback : putBack (nth [.special "&"]) [openImage attributes] = imageLine attributes := by
    simp [openImage, putBack_eq_map, Element.refilled, placeholder?, Element.children,
      Element.withChildren, hentries, hsame, imageLine, nth]
  rw [reread_eq_ok (by decide) hpayloads hparsed (exactlyOnce_of_references (by decide) hreferences),
    hback]
  rfl

theorem reread_postReplacements_imageLine (attributes : Attributes) :
    reread Fragment.parse .postReplacements ⟨none⟩ [imageLine attributes] =
      .ok (imageLine attributes) := by
  have hglyphs : linesGlyphs 0 [imageLine attributes] = [.token (digitsOf 1)] := rfl
  have hfixed : ∀ x ∈ setAside [imageLine attributes],
      parsePayload (Fragment.parse .postReplacements ⟨none⟩) x = .ok x :=
    List.forall_mem_singleton.mpr (parsePayload_of_fixed (.image _ attributes) trivial)
  have few : (setAside [imageLine attributes]).length < UInt32.size := by
    change 1 < UInt32.size
    decide
  refine reread_unread (by decide) (by simp [imageLine, Unforged]) few hfixed ?_ rfl ?_
  · rw [hglyphs]
    rfl
  · rw [hglyphs]
    exact merge_read_of_takesNone rfl

theorem applyLines_written (hsame : ∀ rule, rule ≠ .macros → grammar rule = Fragment.parse rule)
    (hentries : sequencesOf attributes.entries = [])
    (hparsed : grammar .macros ⟨none⟩ (serialized [escapedLine]) = .ok [openImage attributes]) :
    runFrom start (applyLines ⟨grammar, false⟩ (normalSteps ++ [.splitLines]) "paragraph"
      [[.text written]]) = (.ok [imageLine attributes], start) := by
  have hread {rule : Rule} (hrule : rule ≠ .macros) (lines : List Line) :
      reread grammar rule ⟨none⟩ lines = reread Fragment.parse rule ⟨none⟩ lines :=
    reread_congr (hsame rule hrule) _ _
  have hescaped {rule : Rule} (hrule : rule ∈ [.quotes, .attributes, .replacements]) :
      reread grammar rule ⟨none⟩ [escapedLine] = .ok escapedLine := by
    have hne : rule ≠ .macros := by rintro rfl; simp at hrule
    rw [hread hne, reread_escapedLine hrule]
  have hresolve : runFrom start.resolution (resolve escapedLine) =
      (.ok escapedLine, start.resolution) := by
    simp [escapedLine, resolve_eq_mapM, resolveElement, resolving?, Event.ofElement?,
      Element.mapChildrenM, Element.children, Element.withChildren, merge, pushText]
  have hsplit : splitLine (imageLine attributes) = [imageLine attributes] := rfl
  rw [← hsplit]
  exact runFrom_applyLines_normalSteps "paragraph" rfl
    ((hread (by decide) _).trans reread_passthroughs_written)
    ((hread (by decide) _).trans reread_specials_written)
    (hescaped (by decide)) (hescaped (by decide)) hresolve (hescaped (by decide))
    (reread_macros_escapedLine hentries hparsed)
    ((hread (by decide) _).trans (reread_postReplacements_imageLine attributes))

end Attributes

theorem isText_written : ∀ line ∈ [[Element.text written]], ∀ x ∈ line, x.isText :=
  List.forall_mem_singleton.mpr (List.forall_mem_singleton.mpr rfl)

theorem applyLines_parse_written :
    runFrom start (applyLines ⟨Fragment.parse, false⟩ (normalSteps ++ [.splitLines]) "paragraph"
      [[.text written]]) = (.ok [imageLine stemmed], start) :=
  applyLines_written (fun _ _ => rfl) rfl parse_macros_escapedLine

theorem alternative_texts_written :
    (∀ line ∈ [[Element.text written]], ∀ x ∈ line, x.isText) ∧
    ∃ bare t, runFrom start (applyLines ⟨Fragment.parseBare, false⟩ (normalSteps ++ [.splitLines])
        "paragraph" [[.text written]]) = (.ok bare, t) ∧
      [imageLine stemmed] = bare.map captioned ∧
      ∀ line ∈ bare, ∀ x, Visited x line → x.Bare →
        Visited x.captioned (captioned line) ∧ (x.captioned.Named ↔ x.Telling) :=
  ⟨isText_written, alternative_texts isText_written (by decide) applyLines_parse_written⟩

theorem ampersand_missing :
    (∀ line ∈ [[Element.text written]], ∀ x ∈ line, x.isText) ∧
    runFrom start (applyLines ⟨Fragment.parseBare, false⟩ (normalSteps ++ [.splitLines]) "paragraph"
      [[.text written]]) = (.ok [imageLine ∅], start) ∧
    runFrom start (applyLines ⟨Fragment.parse, false⟩ (normalSteps ++ [.splitLines]) "paragraph"
      [[.text written]]) = (.ok [imageLine stemmed], start) ∧
    ∀ x ∈ imageLine stemmed, ¬ x.Named := by
  refine ⟨isText_written, applyLines_written (fun _ => parseBare_of_ne) rfl parseBare_macros_escapedLine,
    applyLines_parse_written, List.forall_mem_singleton.mpr fun hnamed => ?_⟩
  have hstem : Location.stem ⟨"", [.text "a", .special "&", .text "b"]⟩ = "a&b" := rfl
  have halt : stemmed.find? "alt" = some (.string "ab") := rfl
  rw [Element.Named, hstem, halt] at hnamed
  exact absurd (Value.string.inj (Option.some.inj hnamed)) (by decide)

end Ampersand

end Pass

end Manuscript
