import Manuscript.Proofs.Places
import Manuscript.Proofs.Rereading.Prose

namespace Manuscript

open Pass

structure Signed (lines others : List Line) (author : String) : Prop where
  lines : lines = others ++ [[.text ("-- " ++ author)]]
  named : author ≠ ""
  oneLine : ∀ c ∈ author.toList, Cause.isNewline c = false

theorem Signed.unique {lines others others' : List Line} {author author' : String}
    (h : Signed lines others author) (h' : Signed lines others' author') :
    others' = others ∧ author' = author := by
  obtain ⟨rfl, hlast⟩ := List.append_singleton_inj.mp (h'.lines.symm.trans h.lines)
  obtain ⟨htext, -⟩ := List.cons.inj hlast
  exact ⟨rfl, (String.append_right_inj _).mp (Element.text.inj htext)⟩

def Enclosed (elements : List Element) (path : List Nat) : Prop :=
  ∃ outer rest kind attributes body, path = outer ++ rest ∧ rest ≠ [] ∧
    blockAt elements outer = some (.elementBlock kind attributes body)

section Enclosed

variable {elements before after : List Element} {x : Element} {path : List Nat}

theorem not_enclosed_singleton (i : Nat) : ¬ Enclosed elements [i] := by
  rintro ⟨_ | ⟨j, outer⟩, rest, kind, attributes, body, hpath, hrest, hblock⟩
  · cases hblock
  · obtain ⟨-, hnil⟩ := List.cons.inj hpath
    exact hrest (List.append_eq_nil_iff.mp hnil.symm).2

theorem enclosed_inside (hpath : path ≠ []) :
    Enclosed (before ++ x :: after) (before.length :: path) ↔
      (∃ kind attributes body, x = .elementBlock kind attributes body) ∨ Enclosed x.inner path := by
  constructor
  · rintro ⟨_ | ⟨i, outer⟩, rest, kind, attributes, body, houter, hrest, hblock⟩
    · cases hblock
    · obtain ⟨rfl, rfl⟩ := List.cons.inj houter
      rw [blockAt_append] at hblock
      split at hblock
      · exact .inl ⟨kind, attributes, body, Option.some.inj hblock⟩
      · exact .inr ⟨outer, rest, kind, attributes, body, rfl, hrest, hblock⟩
  · rintro (⟨kind, attributes, body, rfl⟩ | ⟨outer, rest, kind, attributes, body, rfl, hrest, hblock⟩)
    · refine ⟨[before.length], path, kind, attributes, body, rfl, hpath, ?_⟩
      rw [blockAt_append, if_pos rfl]
    · refine ⟨before.length :: outer, rest, kind, attributes, body, rfl, hrest, ?_⟩
      have houter : outer ≠ [] := by
        rintro rfl
        cases hblock
      rw [blockAt_append, if_neg houter, hblock]

theorem blockAt_afterHeader_eq_iff {kind : BlockKind} {attributes : Attributes} {body : List Element} :
    blockAt (afterHeader elements) path = some (.elementBlock kind attributes body) ↔
      blockAt elements path = some (.elementBlock kind attributes body) := by
  have hcredited := blockAt_rel (fun _ _ => Credited.inside) (credited_afterHeader elements) path
  generalize blockAt elements path = before, blockAt (afterHeader elements) path = after at hcredited
  cases hcredited with
  | none => rfl
  | @some x y hxy =>
    obtain rfl | rfl := hxy
    · rfl
    · cases x <;> simp [withoutCredits]

theorem enclosed_afterHeader (elements : List Element) (path : List Nat) :
    Enclosed (afterHeader elements) path ↔ Enclosed elements path := by
  simp only [Enclosed, blockAt_afterHeader_eq_iff]

end Enclosed

namespace Pass

section Handed

variable {setting : Setting} {handed last : Handed} {steps : List Step} {s t : PassState}
  {elements : List Element} {x : Element} {path : List Nat}

theorem enter_cases (h : runFrom s (enter setting handed x) = (.ok last, t)) :
    (∃ kind attributes body steps, x = .elementBlock kind attributes body ∧
      last = some (handed.getD steps)) ∨
    (∀ kind attributes body, x ≠ .elementBlock kind attributes body) ∧ last = handed := by
  cases x
  case elementBlock kind attributes body =>
    refine .inl ⟨kind, attributes, body, ?_⟩
    cases handed with
    | none =>
      rw [enter, runFrom_map] at h
      cases hsteps : Directive.forBlock kind attributes with
      | error fault => rw [hsteps] at h; cases h
      | ok steps =>
        rw [hsteps] at h
        cases h
        exact ⟨steps, rfl, rfl⟩
    | some steps =>
      cases h
      exact ⟨steps, rfl, rfl⟩
  case sectionBlock | labeledItem =>
    obtain ⟨_, _, -, h⟩ := runFrom_bind_eq_ok.mp h
    cases h
    exact .inr ⟨by simp, rfl⟩
  all_goals
    cases h
    exact .inr ⟨by simp, rfl⟩

theorem Comes.last_of_some (h : Comes setting handed s elements path last t)
    (hhanded : handed = some steps) : last = some steps := by
  induction h with
  | here => exact hhanded
  | inside _ henter _ ih =>
    subst hhanded
    obtain ⟨_, _, _, _, -, rfl⟩ | ⟨-, rfl⟩ := enter_cases henter <;> exact ih rfl

theorem Comes.last_ne_none_iff (h : Comes setting handed s elements path last t)
    (hhanded : handed = none) : last ≠ none ↔ Enclosed elements path := by
  induction h with
  | here => exact iff_of_false (fun hne => hne hhanded) (not_enclosed_singleton _)
  | inside _ henter hcomes ih =>
    subst hhanded
    rw [enclosed_inside hcomes.path_ne_nil]
    obtain ⟨kind, attributes, body, steps, rfl, rfl⟩ | ⟨hother, rfl⟩ := enter_cases henter
    · rw [hcomes.last_of_some rfl]
      exact iff_of_true (Option.some_ne_none _) (.inl ⟨kind, attributes, body, rfl⟩)
    · rw [ih rfl, or_iff_right fun ⟨kind, attributes, body, h⟩ => hother kind attributes body h]

end Handed

section Move

variable {options : Options} {lines others : List Line} {author : String}
  {attributes attributes' : Attributes} {s t : PassState} {tracing : Bool}

theorem attribution?_eq_some_iff :
    attribution? Fragment.parse options lines = some (author, others) ↔ Signed lines others author := by
  have hplain (name : String) : plainText [.text name] = name := String.append_empty
  constructor
  · intro h
    rw [attribution?] at h
    split at h
    · next text hlast =>
      obtain ⟨before, rfl⟩ := List.getLast?_eq_some_iff.mp hlast
      split at h
      · next parsed hparsed =>
        obtain ⟨name, rfl, hname, hline, rfl⟩ := Fragment.parse_attribution_eq_ok_iff.mp hparsed
        dsimp only at h
        rw [hplain, if_neg hname, List.dropLast_concat] at h
        cases h
        exact ⟨rfl, hname, hline⟩
      · cases h
    · cases h
  · rintro ⟨rfl, hname, hline⟩
    have hparsed : Fragment.parse .attribution options ("-- " ++ author) = .ok [.text author] :=
      Fragment.parse_attribution_eq_ok_iff.mpr ⟨author, rfl, hname, hline, rfl⟩
    rw [attribution?, List.getLast?_concat, List.dropLast_concat]
    dsimp only
    rw [hparsed]
    dsimp only
    rw [hplain, if_neg hname]

theorem moved_cases (h : runFrom s (moveAttribution ⟨Fragment.parse, tracing⟩ .markdownQuote
      attributes lines) = (.ok (attributes', others), t)) :
    t = s ∧ ((∃ author, Signed lines others author ∧
        attributes' = attributes.insert "quoteAuthor" (.string author)) ∨
      (∀ before author, ¬ Signed lines before author) ∧ attributes' = attributes ∧ others = lines) := by
  rw [moveAttribution, if_pos rfl] at h
  obtain ⟨current, s₁, hcurrent, h⟩ := runFrom_bind_eq_ok.mp h
  cases hcurrent
  split at h
  · next author before hauthor =>
    cases h
    exact ⟨rfl, .inl ⟨author, attribution?_eq_some_iff.mp hauthor, rfl⟩⟩
  · next hnone =>
    cases h
    refine ⟨rfl, .inr ⟨fun before author hsigned => ?_, rfl, rfl⟩⟩
    rw [attribution?_eq_some_iff.mpr hsigned] at hnone
    cases hnone

end Move

end Pass

theorem Noted.of_lineBlock {kind : BlockKind} {attributes : Attributes} {lines : List Line}
    {y : Element} (h : Noted (.lineBlock kind attributes lines) y) :
    ∃ after, y = .lineBlock kind attributes after ∧ List.Forall₂ Referenced lines after := by
  cases h with
  | reference hnote => exact absurd rfl hnote
  | around hlines => exact ⟨_, rfl, hlines⟩

def GoThrough (document : Document) (configuration : Configuration) (path : List Nat)
    (kind : BlockKind) (attributes : Attributes) (lines after : List Line) : Prop :=
  ∃ store last steps t results t',
    prepare document configuration = .ok (store, afterHeader document.elements) ∧
    Comes ⟨Fragment.parse, false⟩ none ⟨⟨store, []⟩, []⟩ (afterHeader document.elements) path last t ∧
    last.elim (Directive.forBlock kind attributes) .ok = .ok steps ∧
    runFrom t (applyLines ⟨Fragment.parse, false⟩ steps kind.name lines) = (.ok results, t') ∧
    List.Forall₂ Referenced results after

section Quote

variable {document : Document} {configuration : Configuration} {draft : Draft} {path : List Nat}
  {attributes : Attributes} {lines : List Line}

theorem quote_cases (h : substitute Fragment.parse document configuration = .ok draft)
    (hquote : blockAt document.elements path = some (.lineBlock .markdownQuote attributes lines)) :
    ∃ attributes' others after,
      blockAt draft.elements path = some (.lineBlock .markdownQuote attributes' after) ∧
      GoThrough document configuration path .markdownQuote attributes others after ∧
      ((¬ Enclosed document.elements path ∧
          ∃ author, Signed lines others author ∧
            attributes' = attributes.insert "quoteAuthor" (.string author)) ∨
        ((∀ before author, ¬ Signed lines before author) ∨ Enclosed document.elements path) ∧
          attributes' = attributes ∧ others = lines) := by
  obtain ⟨store, hprepare, hplaces⟩ := blockAt_draft h
  obtain ⟨z, hz, x, hx, y, ⟨last, t, t', hcomes, htreat⟩, hnoted⟩ :=
    exists_right_of_rel (hquote ▸ hplaces path)
  obtain rfl : x = .lineBlock .markdownQuote attributes lines := by
    obtain rfl | rfl := hx <;> rfl
  have henclosed : last ≠ none ↔ Enclosed document.elements path :=
    (hcomes.last_ne_none_iff rfl).trans (enclosed_afterHeader _ _)
  cases treated_of_treat htreat with
  | @ownLines _ _ attributes' steps _ others after u hlast hsteps hmoved hlines =>
    have hopen : ¬ Enclosed document.elements path := fun he => henclosed.mpr he hlast
    obtain ⟨rfl, hauthor⟩ := moved_cases hmoved
    obtain ⟨after, rfl, hreferenced⟩ := hnoted.of_lineBlock
    refine ⟨attributes', others, after, hz, ⟨store, last, steps, _, _, _, hprepare, hcomes, ?_,
      hlines, hreferenced⟩, hauthor.imp (⟨hopen, ·⟩) (.imp_left .inl)⟩
    rw [hlast]
    exact hsteps
  | @handedLines _ _ steps _ after hlast hlines =>
    obtain ⟨after, rfl, hreferenced⟩ := hnoted.of_lineBlock
    refine ⟨attributes, lines, after, hz, ⟨store, last, steps, _, _, _, hprepare, hcomes, ?_,
      hlines, hreferenced⟩, .inr ⟨.inr (henclosed.mp (hlast ▸ Option.some_ne_none steps)), rfl, rfl⟩⟩
    rw [hlast]
    rfl
  | leaf hleaf => exact hleaf.elim

/-- A quote in a draft has the author that its last line names, and the lines before that, just if no block
with blocks as its body stands around it. Otherwise, and without such a line, it keeps its attributes and
all of its lines go through the steps. -/
theorem attribution_moved_iff (h : substitute Fragment.parse document configuration = .ok draft)
    (hquote : blockAt document.elements path = some (.lineBlock .markdownQuote attributes lines)) :
    ∃ attributes' others after,
      blockAt draft.elements path = some (.lineBlock .markdownQuote attributes' after) ∧
      GoThrough document configuration path .markdownQuote attributes others after ∧
      (∀ before author, Signed lines before author →
        (attributes' = attributes.insert "quoteAuthor" (.string author) ∧ others = before ↔
          ¬ Enclosed document.elements path)) ∧
      ((∀ before author, ¬ Signed lines before author) ∨ Enclosed document.elements path →
        attributes' = attributes ∧ others = lines) := by
  obtain ⟨attributes', others, after, hblock, hthrough, hcases⟩ := quote_cases h hquote
  refine ⟨attributes', others, after, hblock, hthrough, ?_⟩
  obtain ⟨hopen, author, hauthor, rfl⟩ | ⟨hkept, hsame⟩ := hcases
  · refine ⟨fun before name hsigned => iff_of_true ?_ hopen, fun hkept => ?_⟩
    · obtain ⟨rfl, rfl⟩ := hauthor.unique hsigned
      exact ⟨rfl, rfl⟩
    · exact absurd hauthor (hkept.resolve_right hopen others author)
  · refine ⟨fun before author hsigned => iff_of_false ?_ ?_, fun _ => hsame⟩
    · rintro ⟨-, hbefore⟩
      have hlines : before = before ++ [[.text ("-- " ++ author)]] :=
        hbefore.symm.trans (hsame.2.trans hsigned.lines)
      exact List.cons_ne_nil _ _ (List.self_eq_append_right.mp hlines)
    · exact not_not.mpr (hkept.resolve_left fun hnone => hnone before author hsigned)

end Quote

section Nested

def unchanging : Attributes := Dict.ofList [("subs", .string "none")]

def signedQuotes : Document :=
  ⟨none, [.listItem (.unordered 1) ∅
      [.lineBlock .markdownQuote unchanging [[.text "a"], [.text "-- b"]]],
    .elementBlock .exampleBlock unchanging
      [.lineBlock .markdownQuote ∅ [[.text "a"], [.text "-- b"]]]]⟩

theorem substitute_signedQuotes :
    substitute Fragment.parse signedQuotes Configuration.empty =
      .ok ⟨∅, none, [.listItem (.unordered 1) ∅
          [.lineBlock .markdownQuote (unchanging.insert "quoteAuthor" (.string "b")) [[.text "a"]]],
        .elementBlock .exampleBlock unchanging
          [.lineBlock .markdownQuote ∅ [[.text "a"], [.text "-- b"]]]], [], []⟩ := by
  with_unfolding_all rfl

theorem signed_ab : Signed [[.text "a"], [.text "-- b"]] [[.text "a"]] "b" :=
  ⟨rfl, by decide, by simp [Cause.isNewline]⟩

theorem attribution_moved_iff_signedQuotes :
    ∃ draft, substitute Fragment.parse signedQuotes Configuration.empty = .ok draft ∧
      Signed [[.text "a"], [.text "-- b"]] [[.text "a"]] "b" ∧
      ∃ after, blockAt draft.elements [0, 0] = some (.lineBlock .markdownQuote
          (unchanging.insert "quoteAuthor" (.string "b")) after) ∧
        GoThrough signedQuotes Configuration.empty [0, 0] .markdownQuote unchanging [[.text "a"]] after := by
  have hquote : blockAt signedQuotes.elements [0, 0] = some (.lineBlock .markdownQuote unchanging
      [[.text "a"], [.text "-- b"]]) := rfl
  obtain ⟨attributes', others, after, hblock, hthrough, hmoved, -⟩ :=
    attribution_moved_iff substitute_signedQuotes hquote
  have hopen : ¬ Enclosed signedQuotes.elements [0, 0] := by
    change ¬ Enclosed ([] ++ _ :: _) [([] : List Element).length, 0]
    rw [enclosed_inside (List.cons_ne_nil 0 []), not_or]
    exact ⟨by simp, not_enclosed_singleton 0⟩
  obtain ⟨rfl, rfl⟩ := (hmoved _ _ signed_ab).mpr hopen
  exact ⟨_, substitute_signedQuotes, signed_ab, after, hblock, hthrough⟩

theorem attribution_kept_inside :
    ∃ draft attributes lines before author after attributes',
      substitute Fragment.parse signedQuotes Configuration.empty = .ok draft ∧
      blockAt signedQuotes.elements [1, 0] = some (.lineBlock .markdownQuote attributes lines) ∧
      Signed lines before author ∧
      blockAt draft.elements [1, 0] = some (.lineBlock .markdownQuote attributes' after) ∧
      attributes'.find? "quoteAuthor" = none ∧ [.text ("-- " ++ author)] ∈ after :=
  ⟨_, _, _, _, _, _, _, substitute_signedQuotes, rfl, signed_ab, rfl, rfl, by simp⟩

end Nested

end Manuscript
