import Manuscript.Proofs.Footnotes
import Manuscript.Proofs.Markup.Mapping
import Manuscript.Proofs.Reserved.Blocks
import Manuscript.Proofs.Reserved.Check
import Manuscript.Proofs.Reserved.Header

namespace Manuscript

def Dict.Unmarked (attributes : Attributes) : Prop :=
  ∀ entry ∈ attributes.entries, ∀ s ∈ entry.2.sequences, Everywhere Element.Unmarked s

theorem Dict.Tidy.unmarked {attributes : Attributes} (h : attributes.Tidy) : attributes.Unmarked :=
  fun entry he s hs => ((h entry he).2 s hs).mono fun _ => Element.Tidy.unmarked

structure Document.Tidy (document : Document) : Prop where
  frontMatter : ∀ attributes ∈ document.frontMatter, attributes.Tidy
  elements : Everywhere Element.Tidy document.elements

def Configuration.Clean (configuration : Configuration) : Prop :=
  ∀ entry ∈ configuration.overrides.entries, Manuscript.Clean entry.2

structure Draft.Unmarked (draft : Draft) : Prop where
  attributes : draft.attributes.Unmarked
  frontMatter : ∀ attributes ∈ draft.frontMatter, attributes.Unmarked
  elements : Everywhere Element.Unmarked draft.elements
  notes : ∀ note ∈ draft.notes, Everywhere Element.Unmarked note.content

namespace Footnotes

variable {f f' : Footnotes} {note : Note} {footnotes : List Note}
  {elements outcomes result : List Element}

theorem unmarked_kept : (∀ note ∈ kept footnotes, Everywhere Element.Unmarked note.content) ↔
    ∀ note ∈ footnotes, Everywhere Element.Unmarked note.content := by
  refine ⟨fun h note hnote => ?_, fun h note hnote => h note (List.mem_filter.mp hnote).1⟩
  by_cases hcontent : note.content = []
  · rw [hcontent]
    exact everywhere_nil
  · exact h note (List.mem_filter.mpr ⟨hnote, by simpa using hcontent⟩)

theorem unmarked_mapM_collect (h : (footnotes.mapM collect).run f = (outcomes, f')) :
    outcomes.length = footnotes.length ∧ (∀ o ∈ outcomes, o.Throughout Element.Unmarked) ∧
      ((∀ known ∈ f'.notes, Everywhere Element.Unmarked known.content) ↔
        (∀ known ∈ f.notes, Everywhere Element.Unmarked known.content) ∧
          ∀ note ∈ footnotes, Everywhere Element.Unmarked note.content) := by
  obtain ⟨hlength, hreferred, hnotes⟩ := of_run_mapM_collect h
  refine ⟨hlength, fun o ho => ?_, ?_⟩
  · obtain ⟨id, reference, duplicate, rfl⟩ := hreferred o ho
    exact (throughout_of_leaf rfl rfl).mpr trivial
  · rw [hnotes, List.forall_mem_append, unmarked_kept]

theorem unmarked_replace {warnings : List Warning}
    (h : (replace elements).run ⟨[], warnings⟩ = (result, f')) :
    Everywhere Element.Unmarked elements ↔
      Everywhere Element.Unmarked result ∧
        ∀ note ∈ f'.notes, Everywhere Element.Unmarked note.content := by
  have hnote (x : Element) (note : Note) (hx : note? x = some note) :
      x.Throughout Element.Unmarked ↔ Everywhere Element.Unmarked note.content := by
    cases x
    case footnote =>
      cases hx
      simp [Element.Throughout, Element.Unmarked, Element.children, Element.held]
    all_goals cases hx
  rw [replace_eq, StateT.run_map] at h
  cases hrun : ((gather note? elements).mapM collect).run ⟨[], warnings⟩ with
  | mk outcomes f₁ =>
    rw [hrun] at h
    change (((rebuild note? id elements).run outcomes).1, f₁) = (result, f') at h
    obtain ⟨hlength, houtcomes, hnotes⟩ := unmarked_mapM_collect hrun
    cases h
    have hnone : ∀ note ∈ ([] : List Note), Everywhere Element.Unmarked note.content :=
      fun _ hn => absurd hn List.not_mem_nil
    have hid (elements : List Element) : Everywhere Element.Unmarked (id elements) ↔
        Everywhere Element.Unmarked elements := Iff.rfl
    rw [(filled_run_rebuild hlength).everywhere_iff hid Element.unmarked_withChildren, hnotes,
      everywhere_iff_around hnote, and_iff_left houtcomes, and_iff_right hnone]

end Footnotes

namespace Pass

variable {document : Document} {configuration : Configuration} {draft : Draft}
  {records : List Record}

def moments (setting : Setting) (document : Document) (configuration : Configuration) :
    List Moment :=
  match prepare document configuration with
  | .ok (store, elements) => elementsMoments setting elements ⟨⟨store, []⟩, []⟩
  | .error _ => []

theorem prepare_cases {store : Store} {elements : List Element}
    (h : prepare document configuration = .ok (store, elements)) :
    ((Store.ofOverrides configuration.overrides).addAll (document.frontMatter.getD ∅)).addAll
        (Header.collect ∅ document.elements).1 = store ∧
      (Header.collect ∅ document.elements).2 = elements := by
  rw [prepare] at h
  obtain ⟨checked, hchecked, h⟩ := bind_eq_ok.mp h
  obtain rfl := Reserved.eq_of_check hchecked
  obtain ⟨_, -, h⟩ := bind_eq_ok.mp h
  obtain ⟨_, -, h⟩ := bind_eq_ok.mp h
  obtain ⟨_, -, h⟩ := bind_eq_ok.mp h
  exact Prod.mk.inj (Except.ok.inj h)

theorem tidy_prepare (hdocument : document.Tidy) (hconfiguration : configuration.Clean)
    {store : Store} {elements : List Element}
    (h : prepare document configuration = .ok (store, elements)) :
    store.Tidy ∧ Everywhere Element.Tidy elements := by
  obtain ⟨rfl, rfl⟩ := prepare_cases h
  obtain ⟨hheader, helements⟩ := Header.tidy_collect Dict.Tidy.empty hdocument.elements
  have hfrontMatter : (document.frontMatter.getD ∅).Tidy := by
    cases hf : document.frontMatter with
    | none => exact Dict.Tidy.empty
    | some attributes => exact hdocument.frontMatter attributes hf
  exact ⟨((Store.tidy_ofOverrides hconfiguration).addAll hfrontMatter).addAll hheader, helements⟩

/-- The reserved character comes up in the lines that are read again, in the recorded lines or in the
draft just if a counter shows it. -/
theorem unmarked_iff_silent (hdocument : document.Tidy) (hconfiguration : configuration.Clean)
    (h : trace Fragment.parse document configuration = .ok (draft, records)) :
    ((∀ record ∈ records, UnmarkedLines record.lines) ∧ draft.Unmarked ∧
        ∀ moment ∈ moments recording document configuration, moment.Unmarked) ↔
      Silent (moments recording document configuration) := by
  obtain ⟨store, elements, substituted, state, hprepare, hrun, final, footnotes, hreplace, rfl, rfl⟩ :=
    run_cases h
  obtain ⟨hstore, helements⟩ := tidy_prepare hdocument hconfiguration hprepare
  obtain ⟨records, htrace, hfits⟩ := tracks_applyElements elements _ substituted state hrun
  have hfits := hfits helements hstore
  have hmoments : moments recording document configuration =
      elementsMoments recording elements ⟨⟨store, []⟩, []⟩ := by
    rw [moments, hprepare]
  rw [List.nil_append] at htrace
  rw [hmoments, htrace]
  have hnotes := Footnotes.unmarked_replace hreplace
  constructor
  · rintro ⟨hrecords, hdraft, -⟩
    exact hfits.silent hrecords (hnotes.mpr ⟨hdraft.elements, hdraft.notes⟩)
  · intro hsilent
    obtain ⟨hunmarked, hrecords, htidy, hstore'⟩ := hfits.of_silent hsilent
    obtain ⟨hfinal, hcontents⟩ := hnotes.mp (htidy.mono fun _ => Element.Tidy.unmarked)
    refine ⟨hrecords, ⟨hstore'.snapshot.unmarked, fun attributes ha => ?_, hfinal, hcontents⟩,
      hunmarked⟩
    exact (hdocument.frontMatter attributes ha).unmarked

section Counting

def countingText (start : Char) : String :=
  "\x7bcounter:x:" ++ String.singleton start ++ "\x7d\x7bcounter:x\x7d"

def countingUses (start : Char) : Line :=
  [.counter ⟨"x", false, some (.character start)⟩, .counter ⟨"x", false, none⟩]

def counting (start : Char) : Document :=
  ⟨none, [.paragraph ⟨[("subs", .string "attributes")]⟩ [[.text (countingText start)]]]⟩

variable {start : Char}

theorem tidy_counting (h : Clean (countingText start)) : (counting start).Tidy where
  frontMatter _ h := by cases h
  elements := by
    refine everywhere_singleton.mpr ⟨trivial, List.forall_mem_singleton.mpr ?_, fun _ hs => ?_⟩
    · exact everywhere_singleton.mpr (throughout_text.mpr h)
    · cases hs

theorem clean_empty_configuration : Configuration.empty.Clean :=
  fun _ he => absurd he List.not_mem_nil

theorem prepare_counting (h : Clean (countingText start)) :
    prepare (counting start) Configuration.empty = .ok (⟨∅, ∅, ∅⟩, (counting start).elements) := by
  have hcheck : Reserved.check (counting start).elements = .ok (counting start).elements := by
    refine Reserved.check_of_gather_eq_nil ?_
    have hclean : Reserved.isIn (countingText start) = false := by
      simpa [Reserved.isIn, Clean] using h
    simp [counting, gather_eq, Element.gather, Reserved.offending?, Element.children, hclean]
  rw [prepare, hcheck]
  rfl

theorem parse_counting (rest : List Glyph) (hclean : Clean (countingText start))
    (hspell : Glyph.spell (countingText start) = .char '\x7b' :: rest)
    (hrun : (Fragment.construct ⟨none⟩ .attributes).run (.char '\x7b' :: rest) =
      some ([.counter ⟨"x", false, some (.character start)⟩], Glyph.spell "\x7bcounter:x\x7d"))
    (hlength : (Glyph.spell "\x7bcounter:x\x7d").length ≤ rest.length) :
    Fragment.parse .attributes ⟨none⟩ (countingText start) = .ok (countingUses start) := by
  have hlast : (Fragment.construct ⟨none⟩ .attributes).run (Glyph.spell "\x7bcounter:x\x7d") =
      some ([.counter ⟨"x", false, none⟩], []) := rfl
  have hsecond : Fragment.read (Fragment.construct ⟨none⟩ .attributes)
      (Glyph.spell "\x7bcounter:x\x7d") = [.counter ⟨"x", false, none⟩] := by
    refine (Fragment.read_of_run hlast (by simp)).trans ?_
    rw [Fragment.read, List.append_nil]
  rw [Fragment.parse_of_clean (by decide) (by decide) hclean, hspell,
    Fragment.read_of_run hrun (Nat.lt_succ_of_le hlength), hsecond]
  rfl

theorem reread_counting
    (hparse : Fragment.parse .attributes ⟨none⟩ (countingText start) = .ok (countingUses start)) :
    reread Fragment.parse .attributes ⟨none⟩ [[.text (countingText start)]] =
      .ok (countingUses start) := by
  have hnone : references (countingUses start) = [] := by
    simp [countingUses, references, gather_eq, Element.gather, placeholder?, Element.children]
  exact reread_text hparse hnone

theorem trace_counting {resolved : Line} {resolution : Resolution}
    (hclean : Clean (countingText start))
    (hparse : Fragment.parse .attributes ⟨none⟩ (countingText start) = .ok (countingUses start))
    (hresolve : runFrom ⟨⟨∅, ∅, ∅⟩, []⟩ (resolve (countingUses start)) =
      (.ok resolved, resolution)) :
    ∃ draft, trace Fragment.parse (counting start) Configuration.empty =
      .ok (draft, [⟨"paragraph", 0, .attributes, [resolved]⟩,
        ⟨"paragraph", 1, .splitLines, splitLines [resolved]⟩]) := by
  have hread : reread Fragment.parse .attributes (optionsOf ⟨∅, ∅, ∅⟩)
      [[.text (countingText start)]] = .ok (countingUses start) := reread_counting hparse
  have hsteps : runFrom ⟨⟨⟨∅, ∅, ∅⟩, []⟩, []⟩ (applySteps recording "paragraph" 0
      [.attributes, .splitLines] [[.text (countingText start)]]) =
        (.ok (splitLines [resolved]), ⟨resolution, [⟨"paragraph", 0, .attributes, [resolved]⟩,
          ⟨"paragraph", 1, .splitLines, splitLines [resolved]⟩]⟩) := by
    have hattributes := runFrom_takeStep "paragraph" 0
      (runFrom_applyStep_attributes (s := ⟨⟨⟨∅, ∅, ∅⟩, []⟩, []⟩) "paragraph" hread hresolve)
    rw [applySteps_cons, runFrom_bind_ok hattributes]
    rfl
  have hdirective : runFrom ⟨⟨⟨∅, ∅, ∅⟩, []⟩, []⟩
      (ofExcept (Directive.forParagraph ⟨[("subs", .string "attributes")]⟩)) =
        (.ok [.attributes, .splitLines], ⟨⟨⟨∅, ∅, ∅⟩, []⟩, []⟩) := rfl
  have helements : runFrom ⟨⟨⟨∅, ∅, ∅⟩, []⟩, []⟩ (applyElements recording (counting start).elements) =
      (.ok [.paragraph ⟨[("subs", .string "attributes")]⟩ (splitLines [resolved])],
        ⟨resolution, [⟨"paragraph", 0, .attributes, [resolved]⟩,
          ⟨"paragraph", 1, .splitLines, splitLines [resolved]⟩]⟩) := by
    rw [counting, applyElements, applyElement]
    refine runFrom_bind_ok ((runFrom_bind_ok hdirective _).trans (runFrom_bind_ok hsteps _)) _
  exact run_of_ok (prepare_counting hclean) helements

theorem unmarked_of_letters :
    ∃ draft records, trace Fragment.parse (counting 'a') Configuration.empty = .ok (draft, records) ∧
      (((∀ record ∈ records, UnmarkedLines record.lines) ∧ draft.Unmarked ∧
        ∀ moment ∈ moments recording (counting 'a') Configuration.empty, moment.Unmarked) ↔
          Silent (moments recording (counting 'a') Configuration.empty)) := by
  have hclean : Clean (countingText 'a') := by decide
  have hparse : Fragment.parse .attributes ⟨none⟩ (countingText 'a') = .ok (countingUses 'a') :=
    parse_counting (Glyph.spell "counter:x:a\x7d\x7bcounter:x\x7d") hclean rfl rfl (by decide)
  have hresolve : runFrom ⟨⟨∅, ∅, ∅⟩, []⟩ (resolve (countingUses 'a')) =
      (.ok [.text "ab"], ⟨⟨∅, ∅, ⟨[("x", .character 'b')]⟩⟩, []⟩) := by
    rw [resolve, walkM_eq]
    rfl
  obtain ⟨draft, htrace⟩ := trace_counting hclean hparse hresolve
  exact ⟨draft, _, htrace, unmarked_iff_silent (tidy_counting hclean) clean_empty_configuration htrace⟩

theorem marked_after_last_character :
    (counting '\uFFFC').Tidy ∧ Configuration.empty.Clean ∧
      ∃ draft records,
        trace Fragment.parse (counting '\uFFFC') Configuration.empty = .ok (draft, records) ∧
          ∃ record ∈ records, ¬ UnmarkedLines record.lines := by
  have hclean : Clean (countingText '\uFFFC') := by decide
  have hparse : Fragment.parse .attributes ⟨none⟩ (countingText '\uFFFC') =
      .ok (countingUses '\uFFFC') :=
    parse_counting (Glyph.spell "counter:x:\uFFFC\x7d\x7bcounter:x\x7d") hclean rfl rfl (by decide)
  have hresolve : runFrom ⟨⟨∅, ∅, ∅⟩, []⟩ (resolve (countingUses '\uFFFC')) =
      (.ok [.text "\uFFFC\uFFFD"], ⟨⟨∅, ∅, ⟨[("x", .character '\uFFFD')]⟩⟩, []⟩) := by
    rw [resolve, walkM_eq]
    rfl
  obtain ⟨draft, htrace⟩ := trace_counting hclean hparse hresolve
  refine ⟨tidy_counting hclean, clean_empty_configuration, draft, _, htrace, _, List.mem_cons_self,
    fun hunmarked => ?_⟩
  have htext := everywhere_singleton.mp (hunmarked _ List.mem_cons_self)
  have hshown : Clean "\uFFFC\uFFFD" := throughout_text.mp htext
  exact absurd hshown (by decide)

end Counting

end Pass

end Manuscript
