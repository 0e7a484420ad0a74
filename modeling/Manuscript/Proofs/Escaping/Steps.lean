import Manuscript.Proofs.Escaping.Counters
import Manuscript.Proofs.Reserved.Reading
import Manuscript.Proofs.Run

namespace Manuscript

open Event Glyph Pending Reader

abbrev EscapedOutside (elements : List Element) : Prop :=
  Around Element.Escaped Element.passthrough? elements

namespace Element

theorem passthrough?_eq_none_of_withChildren (x : Element) (sequences : List (List Element))
    (h : (x.withChildren sequences).passthrough? = none) : x.passthrough? = none := by
  fun_induction withChildren x sequences <;> simp_all [passthrough?]

def Flat : Element → Prop
  | .text _ => True
  | .passthrough _ _ => True
  | .placeholder _ => True
  | .crossReference _ _ => True
  | .blankLine => True
  | .special name => name ∈ ["<", ">", "&"]
  | _ => False

theorem flat_withChildren (x : Element) (sequences : List (List Element)) :
    (x.withChildren sequences).Flat ↔ x.Flat := by
  fun_induction withChildren x sequences <;> simp_all [Flat]

theorem Flat.parsePayload_eq {x : Element} (h : x.Flat)
    (parse : String → Except Fault (List Element)) : parsePayload parse x = .ok x := by
  cases x <;> first | cases h; done | rfl

theorem Flat.escapedOutside {x : Element} (h : x.Flat) (htext : x.isText = false) :
    EscapedOutside [x] := by
  cases x
  case text s => cases htext
  case passthrough shield content => exact around_of_event rfl
  case special name => exact Everywhere.around (escaped_leaf h rfl rfl)
  case crossReference id label => exact Everywhere.around (escaped_leaf trivial rfl rfl)
  case placeholder n => exact Everywhere.around (escaped_leaf nofun rfl rfl)
  case blankLine => exact Everywhere.around (escaped_leaf nofun rfl rfl)
  all_goals cases h

end Element

theorem textual_flat : Textual Element.Flat where
  merge := everywhere_merge (fun _ _ => by simp [Element.Flat]) trivial
  quoted _ h := h.elim
  quotation _ h := h.elim
  blankLine := trivial

theorem textualAround_escaped : TextualAround Element.passthrough? Element.Escaped where
  merge := around_merge (fun _ => rfl) escaped_text_append escaped_text_empty
  event?_text _ := rfl
  event?_quoted _ _ _ := rfl
  event?_quotation _ _ := rfl
  quoted _ h := h
  quotation _ h := h
  blankLine := nofun

namespace Fragment

variable {rule : Rule} {options : Options} {text : String} {parsed : List Element}

theorem flat_passthrough :
    Construct.passthrough.Yields fun _ x => Everywhere Element.Flat [x] :=
  Construct.yields_passthrough_of fun _ _ => everywhere_singleton.mpr
    ⟨trivial, List.forall_mem_singleton.mpr (everywhere_fragment trivial), nofun⟩

theorem flat_special : Construct.special.Yields fun _ x => Everywhere Element.Flat [x] :=
  Construct.yields_special_of (fun _ _ => everywhere_leaf trivial rfl rfl) fun _ hname =>
    everywhere_leaf hname rfl rfl

theorem flat_parse (hrule : rule ∈ [.passthroughs, .specials])
    (h : parse rule options text = .ok parsed) : Everywhere Element.Flat parsed := by
  have hne : rule ≠ .attribution := ne_of_mem_of_not_mem hrule (by decide)
  have hconstruct : (construct options rule).Yields fun _ xs => Everywhere Element.Flat xs := by
    simp only [List.mem_cons, List.not_mem_nil, or_false] at hrule
    rcases hrule with rfl | rfl
    · exact Construct.yields_single flat_passthrough
    · exact Construct.yields_single flat_special
  rw [parse_eq_ok hne h, textual_flat.merge]
  refine @relates_read (fun _ xs => Everywhere Element.Flat xs) everywhere_nil
    (fun _ _ _ _ hxs hys => everywhere_append.mpr ⟨hxs, hys⟩) (fun g => ?_)
    (fun _ _ => everywhere_leaf trivial rfl rfl) _ hconstruct _
  cases g <;> exact everywhere_leaf trivial rfl rfl

end Fragment

section Serialized

theorem safe_token (n : UInt32) : Safe (Pending.token n) := by
  refine safe_append.mpr ⟨safe_append.mpr ⟨?_, safe_toString_nat n.toNat⟩, ?_⟩ <;> decide

theorem safe_writeLine {line : Line} (h : ∀ s, .text s ∈ line → Safe s) (pending : Pending) :
    Safe ((writeLine line).run pending).1 := by
  induction line generalizing pending with
  | nil => exact safe_empty
  | cons x line ih =>
    have hline : ∀ s, .text s ∈ line → Safe s := fun s hs => h s (List.mem_cons_of_mem x hs)
    cases htext : x.isText with
    | true =>
      obtain ⟨s, rfl⟩ := eq_text_of_isText htext
      exact safe_append.mpr ⟨h s List.mem_cons_self, ih hline pending⟩
    | false =>
      rw [writeLine.eq_3 x line (ne_text_of_not_isText htext)]
      exact safe_append.mpr ⟨safe_token _, ih hline _⟩

theorem safe_serialized {lines : List Line} (h : ∀ line ∈ lines, ∀ s, .text s ∈ line → Safe s) :
    Safe (serialized lines) := by
  have hwritten (pending : Pending) : ∀ s ∈ ((lines.mapM writeLine).run pending).1, Safe s := by
    induction lines generalizing pending with
    | nil => exact nofun
    | cons line lines ih =>
      obtain ⟨hline, hlines⟩ := List.forall_mem_cons.mp h
      rw [List.mapM_cons]
      exact List.forall_mem_cons.mpr ⟨safe_writeLine hline pending, ih hlines _⟩
  exact intercalate_of_append safe_empty (fun _ _ hs ht => safe_append.mpr ⟨hs, ht⟩) (by decide)
    (hwritten Pending.empty)

end Serialized

namespace Store

def Plain (store : Store) : Prop :=
  ∀ name value, store.find? name = some value → Safe value.asText ∧ Clean value.asText

theorem plain_of_entries {store : Store}
    (h : ∀ entry ∈ store.overrides.entries ++ store.live.entries,
      Safe entry.2.asText ∧ Clean entry.2.asText) : store.Plain := by
  intro name value hvalue
  rcases Option.or_eq_some_iff.mp hvalue with hvalue | ⟨-, hvalue⟩
  · exact h _ (List.mem_append_left _ (Dict.mem_of_find? hvalue))
  · exact h _ (List.mem_append_right _ (Dict.mem_of_find? hvalue))

theorem Plain.text? {store : Store} (h : store.Plain) {name s : String}
    (hs : store.text? name = some s) : Safe s ∧ Clean s := by
  rw [Store.text?] at hs
  cases hvalue : store.find? name with
  | none => rw [hvalue] at hs; cases hs
  | some value =>
    rw [hvalue] at hs
    have hplain := h name value hvalue
    cases value <;> cases hs <;> exact hplain

end Store

section Resolving

variable {r r' : Resolution} {elements result : List Element}

theorem replay_references {store : Store} (hstore : store.Plain) {events : List Event}
    (h : ∀ event ∈ events, ∃ name, event = .reference name ∧ Safe name) :
    ∀ turn ∈ (replay store events).1,
      turn.store = store ∧ ∃ s, turn.element = .text s ∧ Safe s := by
  induction events with
  | nil => exact nofun
  | cons event rest ih =>
    obtain ⟨⟨name, rfl, hname⟩, hrest⟩ := List.forall_mem_cons.mp h
    obtain ⟨warning, hturn⟩ := turn_reference_eq store name
    rw [replay_of_ok hturn]
    refine List.forall_mem_cons.mpr ⟨⟨rfl, _, rfl, ?_⟩, ih hrest⟩
    cases htext : store.text? name with
    | none => exact safe_literalReference hname
    | some s => exact (hstore.text? htext).1

theorem storeAfter_eq {store : Store} {turns : List Turn} (h : ∀ turn ∈ turns, turn.store = store) :
    storeAfter store turns = store := by
  induction turns with
  | nil => rfl
  | cons turn rest ih =>
    obtain ⟨hturn, hrest⟩ := List.forall_mem_cons.mp h
    rw [storeAfter_cons, hturn, ih hrest]

theorem escapedOutside_of_resolve (hready : Everywhere Element.Ready elements)
    (hstore : r.store.Plain) (helements : EscapedOutside elements)
    (h : runFrom r (resolve elements) = (.ok result, r')) :
    EscapedOutside result ∧ r'.store = r.store := by
  have hevents : ∀ event ∈ gather ofElement? elements,
      ∃ name, event = .reference name ∧ Safe name := by
    intro event hevent
    obtain ⟨x, hx, hof⟩ := visited_of_mem_gather _ hevent
    exact (throughout_of_visited hready hx).1 event hof
  have hturns := replay_references hstore hevents
  obtain ⟨-, hfilled⟩ := filled_of_runFrom_resolve (congrArg Prod.fst h)
  constructor
  · refine hfilled.around (fun _ => (textualAround_escaped.merge _).mpr)
      (fun x sequences => (Element.escaped_withChildren x sequences).mpr)
      Element.passthrough?_eq_none_of_withChildren (List.forall_mem_map.mpr fun turn hturn => ?_)
      helements
    obtain ⟨-, s, hs, hsafe⟩ := hturns turn hturn
    rw [hs]
    exact (around_text fun _ => rfl).mpr (escaped_text.mpr hsafe)
  · have hafter := runFrom_resolve_snd r elements
    rw [h] at hafter
    rw [show r' = _ from hafter]
    exact storeAfter_eq fun turn hturn => (hturns turn hturn).1

end Resolving

namespace Pass

theorem safe_optionsOf {store : Store} (h : store.Plain) : (optionsOf store).Safe :=
  fun _ hd => (h.text? (Option.mem_filter_iff.mp hd).1).1

theorem clean_optionsOf {store : Store} (h : store.Plain) : (optionsOf store).Clean :=
  fun _ hd => (h.text? (Option.mem_filter_iff.mp hd).1).2

section Reread

variable {rule : Rule} {options : Options} {lines : List Line} {line : Line}

structure Settled (lines : List Line) : Prop where
  tidy : ∀ line ∈ lines, Everywhere Element.Tidy line
  quiet : ∀ line ∈ lines, Quiet line

theorem Settled.unforged (h : Settled lines) : ∀ line ∈ lines, Unforged line :=
  fun line hline => unforged_of_tidy (h.tidy line hline)

theorem settled_of_reread (hrule : rule ∈ Rule.early) (hoptions : options.Clean)
    (hsettled : Settled lines) (hflat : ∀ line ∈ lines, Everywhere Element.Flat line)
    (h : reread Fragment.parse rule options lines = .ok line) : Settled [line] where
  tidy := by
    have hne : rule ≠ .attribution := ne_of_mem_of_not_mem hrule (by decide)
    exact List.forall_mem_singleton.mpr (tidy_of_reread hoptions hne hsettled.tidy h)
  quiet := by
    refine List.forall_mem_singleton.mpr
      (quiet_of_reread hrule hsettled.unforged hsettled.quiet (fun x hx => ?_) h)
    obtain ⟨line, hline, hmem⟩ := mem_of_mem_setAside hx
    exact (everywhere_iff.mp (hflat line hline) x hmem).1.parsePayload_eq _

theorem flat_of_reread (hrule : rule ∈ [.passthroughs, .specials])
    (hflat : ∀ line ∈ lines, Everywhere Element.Flat line)
    (h : reread Fragment.parse rule options lines = .ok line) : Everywhere Element.Flat line := by
  refine everywhere_of_reread (q := fun x => x.Flat ∧ x.Inline) textual_flat (fun _ => id)
    (fun x hx _ => ?_) (fun s parsed _ => Fragment.flat_parse hrule) (fun parsed hparsed => ?_) hflat h
  · exact ⟨hx.2, fun sequences => (Element.flat_withChildren x sequences).mpr hx.1⟩
  · exact (Fragment.flat_parse hrule hparsed).and (Fragment.inline_parse hparsed)

theorem escapedOutside_of_reread
    (hparse : ∀ s parsed, Safe s → Fragment.parse rule options s = .ok parsed → AllEscaped parsed)
    (hread : ∀ parsed, Fragment.parse rule options (serialized lines) = .ok parsed →
      AllEscaped parsed)
    (haside : ∀ x ∈ setAside lines, EscapedOutside [x])
    (h : reread Fragment.parse rule options lines = .ok line) : EscapedOutside line := by
  refine around_of_reread (q := fun x => x.Escaped ∧ x.Inline) textualAround_escaped (fun _ => id)
    (fun x hx _ => ?_) Element.passthrough?_eq_none_of_withChildren (fun s parsed hs hparsed => ?_)
    (fun parsed hparsed => ?_) haside h
  · exact ⟨hx.2, fun sequences => (Element.escaped_withChildren x sequences).mpr hx.1⟩
  · exact (hparse s parsed (escaped_text.mp hs) hparsed).around
  · exact ((hread parsed hparsed).and (Fragment.inline_parse hparsed)).around

theorem escapedOutside_of_reread_specials
    (hflat : ∀ line ∈ lines, Everywhere Element.Flat line)
    (h : reread Fragment.parse .specials options lines = .ok line) : EscapedOutside line := by
  refine escapedOutside_of_reread (fun _ _ _ => Fragment.escaped_parse_specials)
    (fun _ => Fragment.escaped_parse_specials) (fun x hx => ?_) h
  obtain ⟨line, hline, hmem⟩ := mem_of_mem_setAside hx
  have htext : x.isText = false := by simpa using (List.mem_filter.mp hx).2
  exact (everywhere_iff.mp (hflat line hline) x hmem).1.escapedOutside htext

theorem escapedOutside_of_reread_escaped (hoptions : options.Safe)
    (hlines : ∀ line ∈ lines, EscapedOutside line)
    (h : reread Fragment.parse rule options lines = .ok line) : EscapedOutside line := by
  have hsafe : Safe (serialized lines) := by
    refine safe_serialized fun line hline s hs => ?_
    have htext := around_iff_forall_mem.mp (hlines line hline) _ hs
    exact escaped_text.mp ((around_text fun _ => rfl).mp htext)
  refine escapedOutside_of_reread (fun s parsed hs => Fragment.escaped_parse hoptions hs)
    (fun parsed => Fragment.escaped_parse hoptions hsafe) (fun x hx => ?_) h
  obtain ⟨line, hline, hmem⟩ := mem_of_mem_setAside hx
  exact around_iff_forall_mem.mp (hlines line hline) x hmem

end Reread

variable {tracing : Bool} {block : String} {index : Nat} {step : Step} {steps : List Step}
  {lines after : List Line} {s s' : PassState}

theorem reread_of_applyStep {setting : Setting} {rule : Rule} (hrule : step.rule? = some rule)
    (hstep : step ≠ .attributes)
    (h : runFrom s (applyStep setting block step lines) = (.ok after, s')) :
    ∃ line, reread setting.grammar rule (optionsOf s.resolution.store) lines = .ok line ∧
      after = [line] ∧ s' = s := by
  obtain ⟨line, hread, ⟨-, hafter, hsame⟩ | ⟨heq, -⟩⟩ := applyStep_cases hrule h
  · exact ⟨line, hread, hafter, hsame⟩
  · exact absurd heq hstep

theorem reread_of_applySteps_cons {setting : Setting} {rule : Rule}
    (hrule : step.rule? = some rule) (hstep : step ≠ .attributes)
    (h : runFrom s (applySteps setting block index (step :: steps) lines) = (.ok after, s')) :
    ∃ line t, reread setting.grammar rule (optionsOf s.resolution.store) lines = .ok line ∧
      t.resolution = s.resolution ∧
      runFrom t (applySteps setting block (index + 1) steps [line]) = (.ok after, s') := by
  obtain ⟨middle, s₁, t, hfirst, hsame, hrest⟩ := cases_applySteps_cons h
  obtain ⟨line, hread, rfl, rfl⟩ := reread_of_applyStep hrule hstep hfirst
  exact ⟨line, t, hread, hsame, hrest⟩

theorem escapedOutside_of_applyStep (hstep : step ≠ .attributes)
    (hstore : s.resolution.store.Plain) (hlines : ∀ line ∈ lines, EscapedOutside line)
    (h : runFrom s (applyStep ⟨Fragment.parse, tracing⟩ block step lines) = (.ok after, s')) :
    (∀ line ∈ after, EscapedOutside line) ∧ s' = s := by
  cases hrule : step.rule? with
  | none =>
    rw [applyStep, hrule] at h
    cases h
    refine ⟨around_splitLines (fun _ => rfl) (fun t part ht hpart => ?_) hlines, rfl⟩
    exact escaped_text.mpr ((escaped_text.mp ht).of_mem_splitOn hpart)
  | some rule =>
    obtain ⟨line, hread, rfl, rfl⟩ := reread_of_applyStep hrule hstep h
    exact ⟨List.forall_mem_singleton.mpr
      (escapedOutside_of_reread_escaped (safe_optionsOf hstore) hlines hread), rfl⟩

theorem escapedOutside_of_applySteps (hsteps : .attributes ∉ steps)
    (hstore : s.resolution.store.Plain) (hlines : ∀ line ∈ lines, EscapedOutside line)
    (h : runFrom s (applySteps ⟨Fragment.parse, tracing⟩ block index steps lines) =
      (.ok after, s')) : ∀ line ∈ after, EscapedOutside line := by
  refine (holds_of_applySteps (I := fun r lines => r.store.Plain ∧ ∀ line ∈ lines, EscapedOutside line)
    (fun step hmem t t' before after' hkept hstep => ?_) ⟨hstore, hlines⟩ h).2
  have hne : step ≠ .attributes := fun he => hsteps (he ▸ hmem)
  obtain ⟨hafter, rfl⟩ := escapedOutside_of_applyStep hne hkept.1 hkept.2 hstep
  exact ⟨hkept.1, hafter⟩

theorem settled_of_applySteps (hstore : s.resolution.store.Plain) (hsettled : Settled lines)
    (hflat : ∀ line ∈ lines, Everywhere Element.Flat line)
    (h : runFrom s (applySteps ⟨Fragment.parse, tracing⟩ block index
      (.passthroughs :: .specials :: .quotes :: steps) lines) = (.ok after, s')) :
    ∃ line t, Settled [line] ∧ EscapedOutside line ∧ t.resolution = s.resolution ∧
      runFrom t (applySteps ⟨Fragment.parse, tracing⟩ block (index + 3) steps [line]) =
        (.ok after, s') := by
  have hclean := clean_optionsOf hstore
  obtain ⟨shielded, s₁, hread, hsame₁, h₁⟩ := reread_of_applySteps_cons rfl (by decide) h
  have hsettled₁ := settled_of_reread (by decide) hclean hsettled hflat hread
  have hflat₁ := List.forall_mem_singleton.mpr (flat_of_reread (by decide) hflat hread)
  obtain ⟨special, s₂, hread, hsame₂, h₂⟩ := reread_of_applySteps_cons rfl (by decide) h₁
  rw [hsame₁] at hread hsame₂
  have hsettled₂ := settled_of_reread (by decide) hclean hsettled₁ hflat₁ hread
  have hflat₂ := List.forall_mem_singleton.mpr (flat_of_reread (by decide) hflat₁ hread)
  -- Flat lines hold no names or attributes, so after the special characters no raw one is left.
  have hescaped := List.forall_mem_singleton.mpr (escapedOutside_of_reread_specials hflat₁ hread)
  obtain ⟨quoted, s₃, hread, hsame₃, h₃⟩ := reread_of_applySteps_cons rfl (by decide) h₂
  rw [hsame₂] at hread hsame₃
  exact ⟨quoted, s₃, settled_of_reread (by decide) hclean hsettled₂ hflat₂ hread,
    escapedOutside_of_reread_escaped (safe_optionsOf hstore) hescaped hread, hsame₃, h₃⟩

theorem escapedOutside_of_applySteps_attributes (hsteps : .attributes ∉ steps)
    (hstore : s.resolution.store.Plain) (hsettled : Settled lines)
    (hlines : ∀ line ∈ lines, EscapedOutside line)
    (h : runFrom s (applySteps ⟨Fragment.parse, tracing⟩ block index (.attributes :: steps) lines) =
      (.ok after, s')) : ∀ line ∈ after, EscapedOutside line := by
  obtain ⟨middle, s₁, t, hfirst, hsame, hrest⟩ := cases_applySteps_cons h
  obtain ⟨line, hread, ⟨hne, -⟩ | ⟨-, resolved, r, hresolve, rfl, rfl⟩⟩ := applyStep_cases rfl hfirst
  · exact absurd rfl hne
  · have hready := ready_of_reread hsettled.unforged hsettled.quiet hread
    have hescaped := escapedOutside_of_reread_escaped (safe_optionsOf hstore) hlines hread
    -- Only references are resolved here, and the attributes that they name are plain.
    obtain ⟨hresolved, hsame'⟩ := escapedOutside_of_resolve hready hstore hescaped hresolve
    refine escapedOutside_of_applySteps hsteps ?_ (List.forall_mem_singleton.mpr hresolved) hrest
    rw [hsame]
    exact hsame' ▸ hstore

section Text

variable {line : Line}

theorem outline_of_text (htext : ∀ x ∈ line, x.isText) :
    outline line = (plainText line).toList.map some := by
  induction line with
  | nil => rfl
  | cons x line ih =>
    obtain ⟨hx, hline⟩ := List.forall_mem_cons.mp htext
    obtain ⟨s, rfl⟩ := eq_text_of_isText hx
    rw [outline_cons, ih hline, plainText, String.toList_append, List.map_append]
    rfl

theorem settled_of_text (htext : ∀ line ∈ lines, ∀ x ∈ line, x.isText)
    (hclean : ∀ line ∈ lines, Unforged line)
    (hcounter : ∀ line ∈ lines, ¬ counterOpening <:+: (plainText line).toList) :
    Settled lines where
  tidy line hline := everywhere_of_text (htext line hline) fun s hs => hclean line hline s hs
  quiet line hline := by
    have huncounted : Uncounted (outline line) := by
      rw [outline_of_text (htext line hline)]
      exact uncounted_map_some (hcounter line hline)
    refine ⟨huncounted, still_of_uncounted huncounted fun x hx hnot => ?_⟩
    rw [htext line hline x hx] at hnot
    cases hnot

end Text

/-- Escaping is complete: if the steps of a paragraph succeed on texts without counters, raw characters are left
in passthroughs, in cross references and as special characters only. -/
theorem escaping_complete (htext : ∀ line ∈ lines, ∀ x ∈ line, x.isText)
    (hclean : ∀ line ∈ lines, Unforged line)
    (hcounter : ∀ line ∈ lines, ¬ counterOpening <:+: (plainText line).toList)
    (hstore : s.resolution.store.Plain)
    (h : runFrom s (applyLines ⟨Fragment.parse, tracing⟩ (normalSteps ++ [.splitLines]) block lines) =
      (.ok after, s')) :
    ∀ line ∈ after, Around Element.Escaped Element.passthrough? line := by
  rw [applyLines] at h
  split at h
  · cases h
    exact fun line hline => absurd hline List.not_mem_nil
  · have hflat : ∀ line ∈ lines, Everywhere Element.Flat line := fun line hline =>
      everywhere_of_text (htext line hline) fun _ _ => trivial
    obtain ⟨line, t, hsettled, hescaped, hsame, hrest⟩ :=
      settled_of_applySteps hstore (settled_of_text htext hclean hcounter) hflat h
    exact escapedOutside_of_applySteps_attributes (by decide) (hsame ▸ hstore) hsettled
      (List.forall_mem_singleton.mpr hescaped) hrest

section Angle

def angleState : PassState :=
  ⟨⟨⟨∅, Dict.ofList [("author", .string "Ann")], ∅⟩, []⟩, []⟩

theorem applyLines_angle :
    runFrom angleState (applyLines ⟨Fragment.parse, false⟩ (normalSteps ++ [.splitLines]) "paragraph"
      [[.text "<"]]) = (.ok [[.special "<"]], angleState) := by
  with_unfolding_all rfl

theorem escaping_complete_angle :
    runFrom angleState (applyLines ⟨Fragment.parse, false⟩ (normalSteps ++ [.splitLines])
        "paragraph" [[.text "<"]]) = (.ok [[.special "<"]], angleState) ∧
      Around Element.Escaped Element.passthrough? [.special "<"] := by
  refine ⟨applyLines_angle, escaping_complete ?_ ?_ ?_ ?_ applyLines_angle _ List.mem_cons_self⟩
  · simp [Element.isText]
  · simp [Unforged, Clean, reservedChar]
  · exact List.forall_mem_singleton.mpr (by decide)
  · refine Store.plain_of_entries fun entry he => ?_
    obtain rfl := List.mem_singleton.mp he
    decide

end Angle

end Pass

end Manuscript
