import Manuscript.Proofs.LineBreaks.Reading
import Manuscript.Proofs.Passthroughs.Steps
import Manuscript.Proofs.Steady

namespace Manuscript

open Glyph Pending

mutual

def Element.quotedTexts : Element → List String
  | .quoted _ _ content => textsOf content
  | .quotation _ content => textsOf content
  | _ => []

def textsOf : List Element → List String
  | [] => []
  | .text s :: rest => s :: textsOf rest
  | element :: rest => element.quotedTexts ++ textsOf rest

end

def BreakIn (s : String) : Prop := PlusBefore AtLineEnd (s.toList.map some)

structure Sound (line : Line) : Prop where
  outside : ¬ PlusBefore (· = some (some '\r')) (outline line)
  inside : ∀ x ∈ line, ∀ s ∈ x.quotedTexts, ¬ BreakIn s

theorem unbroken_merge {xs : List Element} : Unbroken (merge xs) ↔ Unbroken xs :=
  everywhere_merge (fun _ _ => iff_of_true nofun ⟨nofun, nofun⟩) nofun xs

section Payload

variable {parse : String → Except Fault (List Element)}

theorem throughout_quoted {style : Style} {attributes : Attributes} {content : List Element} :
    (Element.quoted style attributes content).Throughout (· ≠ .lineBreak) ↔
      Unbroken content ∧ ∀ s ∈ sequencesOf attributes.entries, Unbroken s := by
  simp [Element.Throughout, Element.children, Element.held, Unbroken]

theorem throughout_quotation {mark : QuoteMark} {content : List Element} :
    (Element.quotation mark content).Throughout (· ≠ .lineBreak) ↔ Unbroken content := by
  simp [Element.Throughout, Element.children, Element.held, Unbroken]

theorem unbroken_parsePayload
    (hparse : ∀ s parsed, parse s = .ok parsed → (Unbroken parsed ↔ ¬ BreakIn s)) (element : Element) :
    element.Throughout (· ≠ .lineBreak) → ∀ payload, parsePayload parse element = .ok payload →
      (payload.Throughout (· ≠ .lineBreak) ↔ ∀ s ∈ element.quotedTexts, ¬ BreakIn s) := by
  intro helement payload h
  refine payload_induction
    (P := fun element payload => element.Throughout (· ≠ .lineBreak) →
      (payload.Throughout (· ≠ .lineBreak) ↔ ∀ s ∈ element.quotedTexts, ¬ BreakIn s))
    (Q := fun content fragments => Unbroken content →
      (Unbroken fragments ↔ ∀ s ∈ textsOf content, ¬ BreakIn s))
    ?quoted ?quotation ?other ?nil ?text ?cons h helement
  case quoted =>
    intro style attributes content fragments ih hquoted
    obtain ⟨hcontent, hattributes⟩ := throughout_quoted.mp hquoted
    rw [throughout_quoted, and_iff_left hattributes, unbroken_merge, Element.quotedTexts]
    exact ih hcontent
  case quotation =>
    intro mark content fragments ih hquotation
    rw [throughout_quotation, unbroken_merge, Element.quotedTexts]
    exact ih (throughout_quotation.mp hquotation)
  case other =>
    intro x hquoted hquotation hx
    rw [Element.quotedTexts.eq_3 _ hquoted hquotation]
    exact iff_of_true hx (List.forall_mem_nil _)
  case nil =>
    intro _
    rw [textsOf]
    exact iff_of_true everywhere_nil (List.forall_mem_nil _)
  case text =>
    intro s rest parsed others hparsed ih hcontent
    rw [Unbroken, everywhere_append, textsOf, List.forall_mem_cons, ← hparse s parsed hparsed,
      ← ih (everywhere_cons.mp hcontent).2]
    rfl
  case cons =>
    intro x rest payload others hnot _ ih ihrest hcontent
    obtain ⟨hx, hrest⟩ := everywhere_cons.mp hcontent
    rw [Unbroken, everywhere_cons, textsOf.eq_3 _ _ (ne_text_of_not_isText hnot),
      List.forall_mem_append, ih hx, ← ihrest hrest]
    rfl

def Element.IsGap (x : Element) : Prop := x.isText = false ∧ x ≠ .lineBreak

theorem isGap_quoted (style : Style) (attributes : Attributes) (content : List Element) :
    (Element.quoted style attributes content).IsGap := ⟨rfl, nofun⟩

theorem isGap_quotation (mark : QuoteMark) (content : List Element) :
    (Element.quotation mark content).IsGap := ⟨rfl, nofun⟩

theorem isGap_blankLine : Element.blankLine.IsGap := ⟨rfl, nofun⟩

theorem isGap_of_parsePayload {x payload : Element} (hx : x.IsGap)
    (h : parsePayload parse x = .ok payload) : payload.IsGap := by
  rcases parsePayload_cases h with
    rfl | ⟨style, attributes, _, content, -, rfl⟩ | ⟨mark, _, content, -, rfl⟩
  · exact hx
  · exact isGap_quoted style attributes content
  · exact isGap_quotation mark content

end Payload

section Restoring

variable {original : UInt32 → Element} {parsed : List Element} {next : Option (Option Char) → Prop}

theorem cases_makes_postReplacements {x : Element} (h : Rule.postReplacements.Makes x) :
    (∃ s, x = .text s) ∨ (∃ reference, x = .placeholder reference) ∨ x = .lineBreak := by
  cases x <;> first
    | exact .inl ⟨_, rfl⟩
    | exact .inr (.inl ⟨_, rfl⟩)
    | exact .inr (.inr rfl)
    | cases h

theorem putBack_cons (x : Element) :
    putBack original (x :: parsed) = (match placeholder? x with
      | some reference => original reference
      | none => x.withChildren (x.children.map (putBack original))) :: putBack original parsed := by
  rw [putBack, substituted_eq, id, List.map_cons, putBack, substituted_eq, id]
  cases placeholder? x <;> rfl

theorem breaksBefore_putBack (hgap : ∀ reference, (original reference).IsGap)
    (h : ∀ x ∈ parsed, Rule.postReplacements.Makes x) :
    BreaksBefore next (putBack original parsed) ↔ BreaksBefore next parsed ∧
      ∀ reference ∈ references parsed, (original reference).Throughout (· ≠ .lineBreak) := by
  induction parsed with
  | nil =>
    rw [references_nil, putBack, substituted_eq]
    exact iff_of_true trivial ⟨trivial, List.forall_mem_nil _⟩
  | cons x rest ih =>
    obtain ⟨hx, hrest⟩ := List.forall_mem_cons.mp h
    have hiff := ih hrest
    rw [putBack_cons, references_cons]
    obtain ⟨s, rfl⟩ | ⟨reference, rfl⟩ | rfl := cases_makes_postReplacements hx
    · exact (breaksBefore_text_cons s).trans (hiff.trans (and_congr_left' (breaksBefore_text_cons s).symm))
    · rw [placeholder?, breaksBefore_cons (hgap reference).2, hiff, breaksBefore_placeholder_cons,
        List.singleton_append, List.forall_mem_cons, and_left_comm]
    · have houtline := outline_putBack (fun reference => (hgap reference).1) rest
      change BreaksBefore next (.lineBreak :: putBack original rest) ↔
        BreaksBefore next (.lineBreak :: rest) ∧ ∀ reference ∈ references rest, _
      rw [BreaksBefore, BreaksBefore, houtline, hiff, and_assoc]

end Restoring

section Reread

variable {parse : String → Except Fault (List Element)} {options : Options} {line after : Line}
  {elements payloads parsed : List Element}

theorem unbroken_payloads (hparse : ∀ s parsed, parse s = .ok parsed → (Unbroken parsed ↔ ¬ BreakIn s))
    (helements : Unbroken elements) (h : elements.mapM (parsePayload parse) = .ok payloads) :
    Unbroken payloads ↔ ∀ x ∈ elements, ∀ s ∈ x.quotedTexts, ¬ BreakIn s := by
  rw [mapM_eq_ok_iff] at h
  induction h with
  | nil => exact iff_of_true everywhere_nil (List.forall_mem_nil _)
  | cons hpayload _ ih =>
    obtain ⟨hx, hrest⟩ := everywhere_cons.mp helements
    rw [Unbroken, everywhere_cons, List.forall_mem_cons,
      unbroken_parsePayload hparse _ hx _ hpayload, ← ih hrest]
    rfl

theorem quotedTexts_of_isText {x : Element} (h : x.isText = true) : x.quotedTexts = [] := by
  obtain ⟨s, rfl⟩ := eq_text_of_isText h
  rfl

theorem isGap_of_mem_setAside (hline : Unbroken line) {x : Element} (hx : x ∈ setAside [line]) :
    x.IsGap ∧ x ∈ line := by
  rw [setAside, List.flatten_singleton, List.mem_filter] at hx
  exact ⟨⟨by simpa using hx.2, (everywhere_iff.mp hline x hx.1).1⟩, hx.1⟩

theorem unbroken_setAside (hline : Unbroken line)
    (h : (setAside [line]).mapM (parsePayload (Fragment.parse .postReplacements options)) =
      .ok payloads) :
    Unbroken payloads ↔ ∀ x ∈ line, ∀ s ∈ x.quotedTexts, ¬ BreakIn s := by
  have hunbroken : Unbroken (setAside [line]) := everywhere_iff.mpr fun x hx =>
    everywhere_iff.mp hline x (isGap_of_mem_setAside hline hx).2
  rw [unbroken_payloads (fun _ _ => Fragment.unbroken_parse) hunbroken h]
  constructor
  · intro hall x hx
    cases htext : x.isText with
    | true =>
      rw [quotedTexts_of_isText htext]
      exact List.forall_mem_nil _
    | false =>
      refine hall x ?_
      rw [setAside, List.flatten_singleton]
      exact List.mem_filter.mpr ⟨hx, by rw [htext]; rfl⟩
  · exact fun hall x hx => hall x (isGap_of_mem_setAside hline hx).2

theorem breaksBefore_serialized (h : Fragment.parse .postReplacements options (serialized [line]) =
    .ok parsed) : BreaksBefore AtLineFeed parsed ↔ ¬ PlusBefore (· = some (some '\r')) (outline line) := by
  have hreturn : (fun c => AtLineEnd c ∧ ¬ AtLineFeed c) = (· = some (some '\r')) := by
    funext c
    refine propext ⟨?_, ?_⟩
    · rintro ⟨rfl | ⟨d, hd, rfl⟩, hfeed⟩
      · exact absurd (.inl rfl) hfeed
      · rcases Bool.or_eq_true_iff.mp hd with hd | hd
        · exact absurd (.inr (congrArg (some ∘ some) (eq_of_beq hd))) hfeed
        · exact congrArg (some ∘ some) (eq_of_beq hd)
    · rintro rfl
      exact ⟨.inr ⟨'\r', by decide, rfl⟩, by rintro (h | h) <;> cases h⟩
  rw [Fragment.breaksBefore_parse h, hreturn, plusBefore_serialized]
  rintro c rfl
  exact .inr ⟨'\r', by decide, rfl⟩

theorem isGap_original (hline : Unbroken line)
    (h : (setAside [line]).mapM (parsePayload parse) = .ok payloads) (reference : UInt32) :
    ((handedOut payloads).original reference).IsGap := by
  rcases original_handedOut_cases payloads reference with hmem | hblank
  · exact forall_of_mapM_ok (fun _ _ => isGap_of_parsePayload) h
      (fun x hx => (isGap_of_mem_setAside hline hx).1) _ hmem
  · rw [hblank]
    exact isGap_blankLine

theorem breaksBefore_reread (hline : Unbroken line)
    (h : Pass.reread Fragment.parse .postReplacements options [line] = .ok after) :
    ∃ payloads parsed,
      (setAside [line]).mapM (parsePayload (Fragment.parse .postReplacements options)) = .ok payloads ∧
      Fragment.parse .postReplacements options (serialized [line]) = .ok parsed ∧
      (BreaksBefore AtLineFeed after ↔ ¬ PlusBefore (· = some (some '\r')) (outline line) ∧
        ∀ reference ∈ references parsed,
          ((handedOut payloads).original reference).Throughout (· ≠ .lineBreak)) := by
  obtain ⟨payloads, hpayloads⟩ := Pass.exists_payloads_of_reread h
  obtain ⟨parsed, hparsed⟩ := Pass.exists_parsed_of_reread h hpayloads
  obtain rfl := Pass.eq_of_reread h hpayloads hparsed
  refine ⟨payloads, parsed, hpayloads, hparsed, ?_⟩
  rw [breaksBefore_merge, breaksBefore_putBack (isGap_original hline hpayloads),
    breaksBefore_serialized hparsed]
  exact fun x hx => (everywhere_iff.mp (Fragment.makes_parse hparsed) x hx).1

theorem breaksBefore_of_sound (hline : Unbroken line) (hsound : Sound line)
    (h : Pass.reread Fragment.parse .postReplacements options [line] = .ok after) :
    BreaksBefore AtLineFeed after := by
  obtain ⟨payloads, parsed, hpayloads, -, hiff⟩ := breaksBefore_reread hline h
  have hunbroken := (unbroken_setAside hline hpayloads).mpr hsound.inside
  refine hiff.mpr ⟨hsound.outside, fun reference _ => ?_⟩
  rcases original_handedOut_cases payloads reference with hmem | hblank
  · exact everywhere_iff.mp hunbroken _ hmem
  · rw [hblank]
    exact (throughout_of_leaf rfl rfl).mpr isGap_blankLine.2

theorem sound_of_breaksBefore (few : (setAside [line]).length < UInt32.size) (hline : Unbroken line)
    (h : Pass.reread Fragment.parse .postReplacements options [line] = .ok after)
    (hbreaks : BreaksBefore AtLineFeed after) : Sound line := by
  obtain ⟨payloads, parsed, hpayloads, hparsed, hiff⟩ := breaksBefore_reread hline h
  obtain ⟨houtside, hback⟩ := hiff.mp hbreaks
  obtain ⟨honce, -⟩ := exactlyOnce_of_reread few hpayloads hparsed h
  have hlength := length_of_mapM_ok hpayloads
  have hmoved := flatMap_nth_perm honce hlength fun x => [x]
  refine ⟨houtside, (unbroken_setAside hline hpayloads).mp (everywhere_iff.mpr fun x hx => ?_)⟩
  have hmem : x ∈ (references parsed).flatMap fun r => [nth payloads r] :=
    hmoved.mem_iff.mpr (by rwa [List.flatMap_singleton'])
  obtain ⟨reference, hreference, hx⟩ := List.mem_flatMap.mp hmem
  obtain rfl := List.mem_singleton.mp hx
  rw [← hlength] at few honce
  rw [← original_handedOut few (((exactlyOnce_iff few).mp honce).1.2 reference hreference)]
  exact hback reference hreference

end Reread

namespace Pass

def Unbreaking (x : Element) : Prop := x ≠ .lineBreak ∧ x.Inline

theorem stable_unbreaking : Stable Unbreaking where
  text _ := ⟨nofun, rfl⟩
  blankLine := ⟨nofun, rfl⟩
  withChildren x sequences := and_congr
    (by fun_induction Element.withChildren x sequences <;> simp_all) (inline_withChildren x sequences)
  inline h := h.2

theorem unbreaking_parse {step : Step} {rule : Rule} {options : Options} {text : String}
    {parsed : List Element} (hstep : step ≠ .postReplacements) (hrule : step.rule? = some rule)
    (h : Fragment.parse rule options text = .ok parsed) : Everywhere Unbreaking parsed := by
  have hne : rule ≠ .postReplacements := Step.rule_ne_of_ne hstep hrule rfl
  refine ((Fragment.makes_parse h).and (Fragment.inline_parse h)).mono fun x hx => ⟨?_, hx.2⟩
  rintro rfl
  cases rule <;> first | exact hne rfl | cases hx.1

variable {tracing : Bool} {block : String} {index : Nat} {lines after : List Line}
  {line : Line} {s s' : PassState}

theorem endsAtBreak_of_applySteps (hline : Unbroken line)
    (h : runFrom s (applySteps ⟨Fragment.parse, tracing⟩ block index
      [.postReplacements, .splitLines] [line]) = (.ok after, s')) :
    (Sound line → ∀ part ∈ after, EndsAtBreak part) ∧
      ((setAside [line]).length < UInt32.size → (∀ part ∈ after, EndsAtBreak part) → Sound line) := by
  obtain ⟨middle, s₁, s₂, hfirst, -, hsplit⟩ := cases_applySteps_cons h
  obtain ⟨read, hread, ⟨-, rfl, -⟩ | ⟨hstep, -⟩⟩ := applyStep_cases rfl hfirst
  · obtain rfl := splitLine_of_applySteps hsplit
    rw [endsAtBreak_splitLine]
    exact ⟨fun hsound => breaksBefore_of_sound hline hsound hread,
      fun few => sound_of_breaksBefore few hline hread⟩
  · cases hstep

/-- Breaks stand at the ends of lines exactly when, before they are read, no plus outside a quote stands before
a carriage return and no text inside one has a break of its own. -/
theorem breaks_at_line_ends (htext : ∀ line ∈ lines, ∀ x ∈ line, x.isText)
    (h : runFrom s (applyLines ⟨Fragment.parse, tracing⟩ (normalSteps ++ [.splitLines]) block lines) =
      (.ok after, s')) :
    ∃ before s'', runFrom s (applyLines ⟨Fragment.parse, tracing⟩ normalSteps.dropLast block lines) =
        (.ok before, s'') ∧
      ((∀ line ∈ before, Sound line) → ∀ line ∈ after, EndsAtBreak line) ∧
      ((setAside before).length < UInt32.size → (∀ line ∈ after, EndsAtBreak line) →
        ∀ line ∈ before, Sound line) := by
  rw [applyLines] at h ⊢
  split at h
  · next hempty =>
    cases h
    rw [if_pos hempty]
    exact ⟨[], _, rfl, fun _ => List.forall_mem_nil _, fun _ _ => List.forall_mem_nil _⟩
  · next hsome =>
    have hsteps : normalSteps ++ [.splitLines] =
        normalSteps.dropLast ++ [.postReplacements, .splitLines] := rfl
    rw [hsteps, applySteps_append] at h
    obtain ⟨before, s₁, hbefore, hlast⟩ := runFrom_bind_eq_ok.mp h
    rw [if_neg hsome]
    refine ⟨before, s₁, hbefore, ?_⟩
    have hlines : ∀ line ∈ lines, Everywhere Unbreaking line := fun line hline =>
      everywhere_of_text (htext line hline) fun t _ => stable_unbreaking.text t
    have hunread : ∀ step ∈ normalSteps.dropLast, step ≠ .postReplacements := by decide
    have hunbreaking := stable_unbreaking.applySteps
      (fun step hstep _ _ _ _ => unbreaking_parse (hunread step hstep)) hlines hbefore
    obtain ⟨line, rfl⟩ : ∃ line, before = [line] := by
      obtain ⟨middle, s₂, s₃, hfirst, -, hrest⟩ := cases_applySteps_cons hbefore
      obtain ⟨whole, rfl⟩ := exists_line_of_applyStep (by decide) hfirst
      exact exists_line_of_through (by decide) (through_of_applySteps hrest)
    have hline : Unbroken line := (hunbreaking line List.mem_cons_self).mono fun _ hx => hx.1
    rw [List.forall_mem_singleton]
    exact endsAtBreak_of_applySteps hline hlast

section Bold

open Fragment Reader

def boldText : String := "*a +* b"

def boldState : PassState := ⟨⟨⟨∅, ∅, ∅⟩, []⟩, []⟩

def boldLine (content : List Element) : Line := [.quoted .bold ∅ content, .text " b"]

theorem reread_of_takesNone {rule : Rule} (hcallouts : rule ≠ .callouts)
    (hattribution : rule ≠ .attribution)
    (h : takesNone (construct ⟨none⟩ rule) (spell boldText)) :
    reread Fragment.parse rule ⟨none⟩ [[.text boldText]] = .ok [.text boldText] := by
  have hparse := parse_of_takesNone hcallouts hattribution (by decide) (by decide) h
  exact reread_text hparse (references_of_leaf rfl rfl)

theorem reread_quotes_bold : reread Fragment.parse .quotes ⟨none⟩ [[.text boldText]] =
    .ok (boldLine [.text "a +"]) := by
  have hspell : spell boldText = .char '*' :: spell "a +* b" := rfl
  have hrun : (construct ⟨none⟩ .quotes).run (.char '*' :: spell "a +* b") =
      some ([.quoted .bold ∅ [.text "a +"]], spell " b") := by cbv
  have hread : Fragment.parse .quotes ⟨none⟩ boldText = .ok (boldLine [.text "a +"]) := by
    have hrest : takesNone (construct ⟨none⟩ .quotes) (spell " b") :=
      takesNone_cons (run_quotes_eq_none rfl rfl) (takesNone_cons (run_quotes_eq_none rfl rfl) rfl)
    rw [Fragment.parse_of_clean (by decide) (by decide) (by decide), hspell,
      Fragment.read_of_run hrun (by decide), List.singleton_append, merge_cons rfl,
      merge_read_of_takesNone hrest]
    rfl
  refine reread_text hread ?_
  simp [boldLine, references_cons, placeholder?, Element.children, sequencesOf,
    show (∅ : Attributes).entries = [] from rfl]

theorem reread_bold {rule : Rule} {content : List Element} (hcallouts : rule ≠ .callouts)
    (hattribution : rule ≠ .attribution)
    (hrest : merge (Fragment.read (construct ⟨none⟩ rule) (spell " b")) = [.text " b"])
    (hcontent : merge (Fragment.read (construct ⟨none⟩ rule) (spell "a +")) = content) :
    reread Fragment.parse rule ⟨none⟩ [boldLine [.text "a +"]] = .ok (boldLine content) := by
  have hmerged : merge content = content := by
    have h := merge_append_left (Fragment.read (construct ⟨none⟩ rule) (spell "a +")) []
    rwa [List.append_nil, List.append_nil, hcontent] at h
  have hclean : ∀ line ∈ [boldLine [.text "a +"]], Unforged line := by
    simp [boldLine, Unforged]
    decide
  have hglyphs : linesGlyphs 0 [boldLine [.text "a +"]] = .token (digitsOf 1) :: spell " b" := rfl
  have hparse : Fragment.parse rule ⟨none⟩ (serialized [boldLine [.text "a +"]]) =
      .ok [.placeholder 1, .text " b"] := by
    rw [Fragment.parse_serialized hcallouts hattribution hclean, scan_serialized hclean, hglyphs,
      Fragment.read, merge_cons rfl, hrest, reference_digitsOf]
  have hpayloads : (setAside [boldLine [.text "a +"]]).mapM (parsePayload (Fragment.parse rule ⟨none⟩)) =
      .ok [.quoted .bold ∅ content] := by
    change (do return (← parsePayload (Fragment.parse rule ⟨none⟩) _) :: []) = _
    rw [parsePayload, parseFragments, Fragment.parse_of_clean hcallouts hattribution (by decide),
      hcontent, parseFragments]
    change Except.ok [Element.quoted .bold ∅ (merge (content ++ []))] = _
    rw [List.append_nil, hmerged]
  have honce : ExactlyOnce 1 [.placeholder 1, .text " b"] := by
    simp [ExactlyOnce, references_cons, placeholder?, Element.children]
  rw [reread_eq_ok (by decide) hpayloads hparse honce]
  simp [boldLine, putBack, substituted_eq, placeholder?, Element.withChildren, nth, merge]
  rfl

theorem read_behind {rule : Rule}
    (hrule : rule ∈ [.attributes, .replacements, .macros, .postReplacements]) :
    merge (Fragment.read (construct ⟨none⟩ rule) (spell " b")) = [.text " b"] := by
  have hspell : spell " b" = [.char ' ', .char 'b'] := rfl
  have hword : (construct ⟨none⟩ .replacements).run [.char 'b'] = some ([.text "b"], []) := rfl
  simp only [List.mem_cons, List.not_mem_nil, or_false] at hrule
  rcases hrule with rfl | rfl | rfl | rfl
  · exact merge_read_of_takesNone rfl
  · rw [hspell, Fragment.read_char rfl (by decide), Fragment.read_of_run hword (by decide),
      Fragment.read]
    rfl
  · exact merge_read_of_takesNone rfl
  · exact merge_read_of_takesNone rfl

theorem reread_unchanged {rule : Rule} (hrule : rule ∈ [.attributes, .replacements, .macros]) :
    reread Fragment.parse rule ⟨none⟩ [boldLine [.text "a +"]] = .ok (boldLine [.text "a +"]) := by
  have hword : (construct ⟨none⟩ .replacements).run (.char 'a' :: spell " +") =
      some ([.text "a"], spell " +") := rfl
  have hspell : spell "a +" = .char 'a' :: spell " +" := rfl
  simp only [List.mem_cons, List.not_mem_nil, or_false] at hrule
  rcases hrule with rfl | rfl | rfl
  · exact reread_bold (by decide) (by decide) (read_behind (by decide)) (merge_read_of_takesNone rfl)
  · refine reread_bold (by decide) (by decide) (read_behind (by decide)) ?_
    rw [hspell, Fragment.read_of_run hword (by decide), List.singleton_append, merge,
      merge_read_of_takesNone rfl]
    rfl
  · exact reread_bold (by decide) (by decide) (read_behind (by decide)) (merge_read_of_takesNone rfl)

theorem reread_postReplacements_bold :
    reread Fragment.parse .postReplacements ⟨none⟩ [boldLine [.text "a +"]] =
      .ok (boldLine [.text "a", .lineBreak]) := by
  have hbreak : (construct ⟨none⟩ .postReplacements).run (.char ' ' :: spell "+") =
      some ([.lineBreak], []) := rfl
  have hspell : spell "a +" = .char 'a' :: .char ' ' :: spell "+" := rfl
  refine reread_bold (by decide) (by decide) (read_behind (by decide)) ?_
  have hword : Fragment.read (construct ⟨none⟩ .postReplacements) (.char 'a' :: .char ' ' :: spell "+") =
      .text "a" :: Fragment.read (construct ⟨none⟩ .postReplacements) (.char ' ' :: spell "+") :=
    Fragment.read_word rfl (by decide) rfl
  rw [hspell, hword, Fragment.read_of_run hbreak (by decide), Fragment.read]
  rfl

theorem applyLines_bold :
    runFrom boldState (applyLines ⟨Fragment.parse, false⟩ (normalSteps ++ [.splitLines])
      "paragraph" [[.text boldText]]) =
        (.ok [boldLine [.text "a", .lineBreak]], boldState) := by
  have hresolve : runFrom boldState.resolution (resolve (boldLine [.text "a +"])) =
      (.ok (boldLine [.text "a +"]), boldState.resolution) := by
    simp [boldLine, resolve_eq_mapM, resolveElement, resolving?, Event.ofElement?,
      Element.mapChildrenM, Element.children, Element.withChildren, merge, pushText, sequencesOf,
      show (∅ : Attributes).entries = [] from rfl]
    rfl
  have hunread {rule : Rule} (h : rule ∈ [.passthroughs, .specials]) :
      reread Fragment.parse rule ⟨none⟩ [[.text boldText]] = .ok [.text boldText] := by
    simp only [List.mem_cons, List.not_mem_nil, or_false] at h
    rcases h with rfl | rfl <;> exact reread_of_takesNone (by decide) (by decide) rfl
  have hsplit : splitLine (boldLine [.text "a", .lineBreak]) = [boldLine [.text "a", .lineBreak]] :=
    rfl
  rw [← hsplit]
  exact runFrom_applyLines_normalSteps "paragraph" rfl (hunread (by decide)) (hunread (by decide))
    reread_quotes_bold (reread_unchanged (by decide)) hresolve (reread_unchanged (by decide))
    (reread_unchanged (by decide)) reread_postReplacements_bold

theorem isText_bold : ∀ line ∈ [[Element.text boldText]], ∀ x ∈ line, x.isText :=
  List.forall_mem_singleton.mpr (List.forall_mem_singleton.mpr rfl)

theorem breaks_at_line_ends_bold :
    (∀ line ∈ [[Element.text boldText]], ∀ x ∈ line, x.isText) ∧
      ∃ before s'', runFrom boldState (applyLines ⟨Fragment.parse, false⟩ normalSteps.dropLast
          "paragraph" [[.text boldText]]) = (.ok before, s'') ∧
        ((∀ line ∈ before, Sound line) →
          ∀ line ∈ [boldLine [.text "a", .lineBreak]], EndsAtBreak line) ∧
        ((setAside before).length < UInt32.size →
          (∀ line ∈ [boldLine [.text "a", .lineBreak]], EndsAtBreak line) →
            ∀ line ∈ before, Sound line) :=
  ⟨isText_bold, breaks_at_line_ends isText_bold applyLines_bold⟩

theorem break_inside_line :
    (∀ line ∈ [[Element.text "*a +* b"]], ∀ x ∈ line, x.isText) ∧
      runFrom boldState (applyLines ⟨Fragment.parse, false⟩ (normalSteps ++ [.splitLines])
        "paragraph" [[.text "*a +* b"]]) =
          (.ok [[.quoted .bold ∅ [.text "a", .lineBreak], .text " b"]], boldState) ∧
      ¬ EndsAtBreak [.quoted .bold ∅ [.text "a", .lineBreak], .text " b"] := by
  refine ⟨isText_bold, applyLines_bold, fun hends => ?_⟩
  have hbold := ((endsAtBreak_cons (isGap_quoted _ _ _).2).mp hends).1
  have hbreak := everywhere_iff.mp (throughout_quoted.mp hbold).1 .lineBreak (by simp)
  exact hbreak.1 rfl

end Bold

end Pass

end Manuscript
